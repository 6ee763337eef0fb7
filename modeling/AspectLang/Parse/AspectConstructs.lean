import AspectLang.Parse.BaseConstructs

/-! # Semantic actions of aspect constructs

These actions build through a factory.  Without a dialect the placeholder factory answers, and
the first construct of a unit is reported as unavailable. -/

namespace AspectLang.Work

open Handle

/-- The factory for a construct; without a dialect the first construct of a unit is reported. -/
def factoryFor (dialect : Dialect) (construct : String) (span : Span) : Work Factory := do
  match dialect with
  | .enabled f => return f
  | .disabled =>
    let w ← get
    if !w.unavailableReported then
      set { w with unavailableReported := true }
      report .featureUnavailable span [construct]
    return .placeholder

/-- Does something with the reporter at hand. -/
def withReporter {β : Type} (f : Reporter → β × Reporter) : Work β := modifyGet fun w =>
  let (b, reporter) := f w.reporter
  (b, { w with reporter })

/-! ### Aspects -/

/-- Joins the modifiers before and after `privileged`; a modifier in both is reported. -/
def joinModifiers (outer inner : WrittenModifiers) (span : Span) : Work WrittenModifiers := do
  if Modifiers.meets outer.flags inner.flags then
    report .duplicateModifier span [Modifiers.render (outer.flags &&& inner.flags)]
  return ⟨outer.flags ||| inner.flags, min outer.start inner.start,
    outer.annotations ++ inner.annotations⟩

/-- The modifiers of an aspect, on both sides of the word `privileged` if it is there. -/
def popAspectModifiers (privileged : Bool) (c : Handle) : Work WrittenModifiers := do
  let inner ← popModifiers
  if privileged then
    let _ ← popIdentifier
    let outer ← popModifiers
    joinModifiers outer inner (c.span 2)
  else return inner

/-- An aspect with its name. -/
def aspectHeaderName (f : Factory) (privileged typeParameters : Bool) (c : Handle) :
    Work Unit := do
  let parameters ← popTypeParameters typeParameters
  let name ← popIdentifier
  let _ ← popIdentifier
  let modifiers ← popAspectModifiers privileged c
  let aspect := f.setPrivileged privileged f.newAspect
  let aspect :=
    { aspect with
      modifiers := if privileged then aspect.modifiers ||| Modifiers.privilegedFlag
        else aspect.modifiers
      typeParameters := parameters }
  pushNode (.type (headType name modifiers aspect))

/-- The per-clause and the `dominates` clause of the aspect on top. -/
def headerRest (f : Factory) (c : Handle) : Work Unit := do
  let rest ← if c.arity = 2 then popFragments else pure []
  let first ← popFragment
  let run := f.joinTokens (first :: rest ++ [f.pseudoToken "\x7b" false c.lookahead])
  let aspect ← typeOnTop .aspect
  let aspect ← withReporter (f.setDominates run aspect)
  let aspect ← withReporter (f.setPerClause run aspect)
  replaceTop (.type (reachTo run.span.stop aspect))

/-! ### Pointcuts and advice -/

/-- A pointcut declaration with its name. -/
def pointcutHeader (f : Factory) : Work Unit := do
  let name ← popIdentifier
  let keyword ← popIdentifier
  let modifiers ← popModifiers
  let pointcut :=
    { f.newPointcut with
      selector := name.name
      returnType := some (.ofPrimitive "void" keyword.span) }
  pushNode (.method (headMethod name.span modifiers pointcut))

/-- The parameters and the pointcut of the declaration on top, which end it. -/
def pointcutDecl (f : Factory) (hasDesignator : Bool) (c : Handle) : Work Unit := do
  let semicolon := c.lastSpan
  let designator ← if hasDesignator then do
      let tokens ← popFragments
      let run := f.joinTokens (tokens ++ [f.pseudoToken ";" false semicolon])
      some <$> withReporter (f.designator run)
    else pure none
  let parameters ← popParameters
  updateMethod fun m =>
    let m := { m with parameters }
    let m := match designator with
      | some d => f.setDesignator d m
      | none => m
    { m with bodyEnd := some semicolon.stop, extent.declaration.stop := semicolon.stop }

/-- An advice with its keyword for a name. -/
def pushAdvice (keyword : Identifier) (returnType : TypeRef) (modifiers : WrittenModifiers)
    (advice : MethodDecl) : Work Unit :=
  pushNode (.method
    (headMethod keyword.span modifiers { advice with returnType := some returnType }))

/-- An around advice; a missing return type is reported and taken to be `void`. -/
def aroundHeaderName (f : Factory) (hasReturnType : Bool) : Work Unit := do
  let keyword ← popIdentifier
  let returnType ← if hasReturnType then popType
    else do
      report .insertToComplete keyword.span ["return type", "around advice declaration"]
      pure (.ofPrimitive "void" keyword.span)
  let modifiers ← popModifiers
  pushAdvice keyword returnType modifiers f.newAroundAdvice

/-- A before or after advice. -/
def adviceHeaderName (f : Factory) (after : Bool) : Work Unit := do
  let keyword ← popIdentifier
  let modifiers ← popModifiers
  pushAdvice keyword (.ofPrimitive "void" keyword.span) modifiers
    (if after then f.newAfterAdvice else f.newBeforeAdvice)

/-- Applies a `returning` or `throwing` clause to an advice. -/
def applyExtra (f : Factory) (extra : ExtraParameter) (m : MethodDecl) (r : Reporter) :
    MethodDecl × Reporter :=
  let name := extra.name.name
  if !f.isAfterAdvice m then
    (m, r.error .invalidExtraParameter extra.name.span [name, ":"])
  else
    let narrowed := match name with
      | "throwing" => some (f.narrowAfter .afterThrowing m)
      | "returning" => some (f.narrowAfter .afterReturning m)
      | _ => none
    match narrowed with
    | none =>
      (m, r.error .invalidExtraParameter extra.name.span [name, "throwing", "returning", ":"])
    | some m =>
      match extra.parameter with
      | some parameter => (f.setExtra parameter m, r)
      | none => (m, r)

/-- Completes the advice on top with its parameters, its clauses and the pointcut whose tokens
are given. -/
def completeAdvice (f : Factory) (tokens : List Fragment) (throws : List TypeRef)
    (extra : Option ExtraParameter) (c : Handle) : Work Unit := do
  let parameters ← popParameters
  let run := f.joinTokens (tokens ++ [f.pseudoToken "\x7b" false c.lookahead])
  let designator ← withReporter (f.designator run)
  let advice ← methodOnTop .advice
  let advice := f.setDesignator designator
    { advice with parameters, throws, extent.declaration.stop := c.whole.stop }
  let advice ← match extra with
    | some extra => withReporter (applyExtra f extra advice)
    | none => pure advice
  replaceTop (.method advice)

/-- The parameters, clauses and pointcut of the advice on top. -/
def adviceHeader (f : Factory) (hasExtra : Bool) (c : Handle) : Work Unit := do
  let tokens ← popFragments
  let throws ← popTypes
  let extra ← if hasExtra then
      match ← popOptionalNode with
      | none => pure none
      | some n => some <$> expectNode .ast .extraParameter (asExtraParameter? n)
    else pure none
  completeAdvice f tokens throws extra c

/-- A `returning` or `throwing` clause. -/
def extraParameter (formal : Bool) : Work Unit := do
  let parameter ← if formal then some <$> popParameter else pure none
  let name ← popIdentifier
  pushNode (.extraParameter ⟨name, parameter⟩)

/-! ### Declare statements -/

/-- Positions of a declaration that ends at its semicolon. -/
def endAtSemicolon (name : Span) (start : Nat) (semicolon : Span) (m : MethodDecl) : MethodDecl :=
  { m with
    extent := ⟨name, ⟨min start name.start, semicolon.stop⟩⟩
    bodyEnd := some semicolon.stop }

/-- The first tokens of a declare statement. -/
def declareHeader (f : Factory) (c : Handle) : Work Unit := do
  let kind ← popIdentifier
  let keyword ← popIdentifier
  pushNodes [
    .fragment (f.pseudoToken keyword.name true keyword.span),
    .fragment (f.pseudoToken kind.name true kind.span),
    .fragment (f.pseudoToken ":" false (c.span 2))]

/-- The range of the first fragment and of the one at `place`, which names the statement. -/
def headerSpans (header : List Fragment) (place : Nat) (c : Handle) : Span × Span :=
  let keyword := match header.head? with
    | some fragment => fragment.span
    | none => c.span 0
  let kind := match header[place]? with
    | some fragment => fragment.span
    | none => keyword
  (keyword, kind)

/-- A declare statement. -/
def declareDecl (f : Factory) (c : Handle) : Work Unit := do
  let body ← popFragments
  let header ← popFragments
  let semicolon := c.span 2
  let (keyword, kind) := headerSpans header 1 c
  let run := f.joinTokens (header ++ body ++ [f.pseudoToken ";" false semicolon])
  let w ← get
  match f.newDeclare run w.reporter with
  | .error text => throw (.crash (.brokenText text))
  | .ok (m, reporter) =>
    set { w with reporter }
    pushNode (.method (endAtSemicolon kind keyword.start semicolon m))

/-- The first tokens of a declared annotation. -/
def declareAnnotationHeader (f : Factory) (c : Handle) : Work Unit := do
  let kind ← popIdentifier
  let keyword ← popIdentifier
  pushNodes [
    .fragment (f.pseudoToken keyword.name true keyword.span),
    .fragment (f.pseudoToken "@" false (c.span 1)),
    .fragment (f.pseudoToken kind.name true kind.span),
    .fragment (f.pseudoToken ":" false (c.span 3))]

/-- A declared annotation. -/
def annotationDeclare (f : Factory) (sign : Char) (c : Handle) : Work Unit := do
  let annotationUse ← expectNode .expression .annotationUse (← popExpr).annotationUse?
  let pattern ← popFragments
  let header ← popFragments
  let semicolon := c.lastSpan
  let (keyword, kind) := headerSpans header 2 c
  let run := f.joinTokens (header ++ pattern ++ [f.pseudoToken ";" false semicolon])
  let m ← withReporter (f.newAnnotationDeclare run annotationUse sign)
  pushNode (.method (endAtSemicolon kind keyword.start semicolon m))

/-! ### Inter-type members -/

/-- Reports a star or plus sign where a plain name belongs. -/
def reportTargetForm (pattern : TargetForm) (c : Handle) : Work Unit :=
  match pattern with
  | .plain => pure ()
  | .starSegment | .starOnly => report .deleteToken (c.span 4) ["*"]
  | .plus => report .deleteToken (c.span 3) ["+"]

/-- An inter-type field with its name. -/
def interTypeFieldHeader (f : Factory) (pattern : TargetForm) (c : Handle) :
    Work Unit := do
  let name ← match pattern with
    | .starOnly => pure ⟨"*", c.span 4⟩
    | _ => popIdentifier
  reportTargetForm pattern c
  let onType ← popName
  let type ← popType
  let modifiers ← popModifiers
  let field := { f.newInterTypeField (.ofName onType) with selector := name.name }
  let field := { f.setDeclaredModifiers modifiers.flags field with returnType := some type }
  pushNode (.method (headMethod name.span modifiers field))

/-- The initial value of the inter-type field on top. -/
def interTypeFieldBody (f : Factory) (hasInitializer : Bool) : Work Unit := do
  if hasInitializer then
    let value ← popExpr
    updateMethod (f.setInitialization value)

/-- The semicolon of the inter-type field on top, which ends it. -/
def interTypeFieldDecl (c : Handle) : Work Unit :=
  updateMethod fun m =>
    { m with bodyEnd := some (c.span 2).stop, extent.declaration.stop := (c.span 2).stop }

/-- An inter-type method with its name. -/
def interTypeMethodHeaderName (f : Factory) (pattern : TargetForm) (c : Handle) :
    Work Unit := do
  let name ← popIdentifier
  reportTargetForm pattern c
  let onType ← popName
  let returnType ← popType
  let modifiers ← popModifiers
  let method := { f.setTarget (.ofName onType) f.newInterTypeMethod with selector := name.name }
  let method :=
    { f.setDeclaredModifiers modifiers.flags method with returnType := some returnType }
  pushNode (.method (headMethod name.span modifiers method))

/-- An inter-type constructor; its selector is made from the type that it goes on. -/
def interTypeConstructorHeaderName (f : Factory) (plus : Bool) (c : Handle) :
    Work Unit := do
  if plus then report .deleteToken (c.span 2) ["+"]
  let onType ← popName
  let modifiers ← popModifiers
  let keyword := c.span (if plus then 4 else 3)
  let constructor :=
    { f.setTarget (.ofName onType) f.newInterTypeConstructor with
      selector := onType.join "_" ++ "_new" }
  let constructor := f.setDeclaredModifiers modifiers.flags constructor
  pushNode (.method (headMethod keyword modifiers constructor))

/-- An inter-type member class with its name. -/
def interTypeClassHeaderName (f : Factory) : Work Unit := do
  let name ← popIdentifier
  let onType ← popName
  let modifiers ← popModifiers
  let memberClass := f.setMemberClassTarget (.ofName onType) f.newMemberClass
  pushNode (.type (headType name modifiers memberClass))

/-! ### Pseudo tokens -/

/-- The word for a kind of literal. -/
def literalKindWord : LiteralKind → String
  | .int => "int"
  | .long => "long"
  | .float => "float"
  | .double => "double"
  | .char => "char"
  | .string => "string"
  | .true | .false => "boolean"
  | .null => "null"

/-- A literal as a pseudo token. -/
def literalToken (f : Factory) : Work Unit := do
  match ← popExpr with
  | .literal kind text span =>
    pushNode (.fragment (f.setLiteralKind (literalKindWord kind) (f.pseudoToken text false span)))
  | _ => wrongNode .expression .literal

/-! ### Choice -/

/-- Runs an action of an aspect construct. -/
def aspectAction (dialect : Dialect) (c : Handle) (action : AspectAction) : Work Unit := do
  let f ← factoryFor dialect action.constructWords c.whole
  match action with
  | .aspectHeaderName privileged typeParameters => aspectHeaderName f privileged typeParameters c
  | .headerRest => headerRest f c
  | .pointcutHeader => pointcutHeader f
  | .pointcutDecl designator => pointcutDecl f designator c
  | .aroundHeaderName returnType => aroundHeaderName f returnType
  | .adviceHeaderName after => adviceHeaderName f after
  | .adviceHeader extra => adviceHeader f extra c
  | .extraParameter formal => extraParameter formal
  | .declareHeader => declareHeader f c
  | .declareDecl => declareDecl f c
  | .declareAnnotationHeader => declareAnnotationHeader f c
  | .annotationDeclare sign => annotationDeclare f sign c
  | .interTypeFieldHeader pattern => interTypeFieldHeader f pattern c
  | .interTypeFieldBody initializer => interTypeFieldBody f initializer
  | .interTypeFieldDecl => interTypeFieldDecl c
  | .interTypeMethodHeaderName pattern => interTypeMethodHeaderName f pattern c
  | .interTypeConstructorHeaderName plus => interTypeConstructorHeaderName f plus c
  | .interTypeClassHeaderName => interTypeClassHeaderName f
  | .symbolToken kind => pushNode (.fragment (f.pseudoToken kind.grammarName false (c.span 0)))
  | .identifierToken => do
    let word ← popIdentifier
    pushNode (.fragment (f.pseudoToken word.name true word.span))
  | .literalToken => literalToken f
  | .modifierToken => do
    let modifiers ← popModifiers
    pushNode (.fragment (f.pseudoToken modifiers.flags.render false (c.span 0)))
  | .primitiveTypeToken => do
    let type ← popType
    pushNode (.fragment (f.pseudoToken type.simpleName false (c.span 0)))
  | .guardToken => do
    let condition ← popExpr
    pushNode (.fragment (f.guardToken condition c.whole))

/-- Runs a semantic action. -/
def act (dialect : Dialect) (c : Handle) : SemanticAction → Work Unit
  | .aspect action => aspectAction dialect c action
  | action => baseAction dialect c action

end AspectLang.Work
