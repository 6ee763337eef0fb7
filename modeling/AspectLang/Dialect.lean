import AspectLang.Settings
import AspectLang.Problem
import AspectLang.Tree.Node

/-! # Dialects

The parser builds every aspect construct through a `Factory`: `aspects` makes the real
constructs and reads the pseudo tokens of pointcuts, per-clauses and declare statements, while
`placeholder` makes stand-ins and reads nothing.  A `Dialect` is a factory or none.  Factories
are looked up by name in a `Registry`; a name that is not registered means no dialect. -/

namespace AspectLang

/-- The makers of aspect constructs. -/
inductive Factory where
  | aspects | placeholder
deriving DecidableEq, Inhabited, Repr

namespace Factory

/-- The name of a factory. -/
def name : Factory → String
  | .aspects => "aspectj"
  | .placeholder => "unavailable"

/-! ### Shapes -/

/-- A method in the form of which a construct appears. -/
def extendedMethod (extension : MethodExtension) (selector : String) : MethodDecl :=
  { kind := .dialect, selector, extension := some extension }

/-- A stand-in for a construct in the form of a method. -/
def methodStandIn (construct : Construct) : MethodDecl :=
  extendedMethod (.placeholder construct) ""

/-- A type in the form of which a construct appears. -/
def extendedType (extension : TypeExtension) : TypeDecl :=
  { TypeDecl.new .classType with extension := some extension }

/-- The advice of one kind. -/
def adviceMethod (kind : AdviceKind) : MethodDecl :=
  extendedMethod (.advice { kind }) "ajc$advice"

/-! ### Pseudo tokens -/

/-- One pseudo token. -/
def pseudoToken (f : Factory) (value : String) (isIdentifier : Bool) (span : Span) : Fragment :=
  match f with
  | .aspects => ⟨span, .token { value, isIdentifier, span }⟩
  | .placeholder => ⟨span, .placeholder .pseudoToken⟩

/-- The pseudo token of a guard. -/
def guardToken (f : Factory) (condition : Expr) (span : Span) : Fragment :=
  match f with
  | .aspects =>
    ⟨span, .token { value := "if", isIdentifier := false, span, condition := some condition }⟩
  | .placeholder => ⟨span, .placeholder .pseudoToken⟩

/-- Notes which kind of literal a pseudo token is. -/
def setLiteralKind (f : Factory) (kind : String) (fragment : Fragment) : Fragment :=
  match f, fragment.content with
  | .aspects, .token t => { fragment with content := .token { t with literalKind := some kind } }
  | _, _ => fragment

/-- The pseudo tokens of a fragment: itself, or those of a run. -/
def tokensIn (fragment : Fragment) : List PseudoToken :=
  match fragment.content with
  | .token t => [t]
  | .tokens ts => ts
  | _ => []

/-- Joins fragments into one run of pseudo tokens. -/
def joinTokens (f : Factory) (fragments : List Fragment) : Fragment :=
  match f with
  | .aspects =>
    let tokens := fragments.flatMap tokensIn
    ⟨PseudoToken.spanOf tokens {}, .tokens tokens⟩
  | .placeholder =>
    ⟨(Span.hull (fragments.map (·.span))).getD {}, .placeholder .pseudoTokens⟩

/-- A run without the semicolon or brace that ends it, and where something missing at its end
is reported. -/
def dropTerminator (ts : List PseudoToken) : List PseudoToken × Span :=
  match ts.getLast? with
  | some last =>
    if last.is ";" || last.is "\x7b" then (ts.dropLast, last.span)
    else (ts, .point (last.span.stop + 1))
  | none => (ts, {})

/-! ### Aspects -/

/-- An aspect without a name. -/
def newAspect : Factory → TypeDecl
  | .aspects => extendedType (.aspect false none none)
  | .placeholder => extendedType (.placeholder .aspect)

/-- Sets whether an aspect is privileged. -/
def setPrivileged (f : Factory) (privileged : Bool) (t : TypeDecl) : TypeDecl :=
  match f, t.extension with
  | .aspects, some (.aspect _ perClause dominates) =>
    { t with extension := some (.aspect privileged perClause dominates) }
  | _, _ => t

/-- Reads the per-clause of an aspect from a run of pseudo tokens. -/
def setPerClause (f : Factory) (run : Fragment) (t : TypeDecl) (r : Reporter) :
    TypeDecl × Reporter :=
  match f with
  | .placeholder => (t, r)
  | .aspects =>
    let (tokens, stop) := dropTerminator run.tokens
    match PerClause.parse? tokens stop with
    | .error problem => (t, r.error .perClauseSyntax problem.span [problem.message])
    | .ok perClause =>
      match t.extension with
      | some (.aspect privileged _ dominates) =>
        ({ t with extension := some (.aspect privileged perClause dominates) }, r)
      | _ => (t, r)

/-- Reads the `dominates` clause of an aspect from a run of pseudo tokens. -/
def setDominates (f : Factory) (run : Fragment) (t : TypeDecl) (r : Reporter) :
    TypeDecl × Reporter :=
  match f with
  | .placeholder => (t, r)
  | .aspects =>
    let (tokens, _) := dropTerminator run.tokens
    match PerClause.parseDominates? tokens with
    | .error problem => (t, r.error .perClauseSyntax problem.span [problem.message])
    | .ok none => (t, r)
    | .ok (some pattern) =>
      match t.extension with
      | some (.aspect privileged perClause _) =>
        ({ t with extension := some (.aspect privileged perClause (some pattern)) }, r)
      | _ => (t, r)

/-- A class that an aspect adds to another type. -/
def newMemberClass : Factory → TypeDecl
  | .aspects => extendedType (.memberClass none)
  | .placeholder => extendedType (.placeholder .memberClass)

/-- Sets the type that a member class is added to. -/
def setMemberClassTarget (f : Factory) (onType : TypeRef) (t : TypeDecl) : TypeDecl :=
  match f, t.extension with
  | .aspects, some (.memberClass _) => { t with extension := some (.memberClass (some onType)) }
  | _, _ => t

/-! ### Pointcuts and advice -/

/-- A pointcut declaration without a name. -/
def newPointcut : Factory → MethodDecl
  | .aspects => extendedMethod (.pointcut none) ""
  | .placeholder => methodStandIn .pointcut

/-- An advice that runs before its join points. -/
def newBeforeAdvice : Factory → MethodDecl
  | .aspects => adviceMethod .before
  | .placeholder => methodStandIn .beforeAdvice

/-- An advice that runs after its join points. -/
def newAfterAdvice : Factory → MethodDecl
  | .aspects => adviceMethod .after
  | .placeholder => methodStandIn .afterAdvice

/-- An advice that runs in place of its join points. -/
def newAroundAdvice : Factory → MethodDecl
  | .aspects => adviceMethod .around
  | .placeholder => methodStandIn .aroundAdvice

/-- Reads a pointcut from a run of pseudo tokens. -/
def designator (f : Factory) (run : Fragment) (r : Reporter) : Fragment × Reporter :=
  match f with
  | .placeholder => (⟨run.span, .placeholder .designator⟩, r)
  | .aspects =>
    let (tokens, stop) := dropTerminator run.tokens
    let source := PseudoToken.renderAll tokens
    match Pointcut.parse tokens stop with
    | .ok pointcut => (⟨run.span, .designator ⟨some pointcut, source⟩⟩, r)
    | .error problem =>
      (⟨run.span, .designator ⟨none, source⟩⟩,
        r.error .pointcutSyntax problem.span [problem.message])

/-- Gives a pointcut declaration or an advice its pointcut. -/
def setDesignator (f : Factory) (fragment : Fragment) (m : MethodDecl) : MethodDecl :=
  let designator := match fragment.content with
    | .designator d => some d
    | _ => none
  match f, m.extension with
  | .aspects, some (.advice a) => { m with extension := some (.advice { a with designator }) }
  | .aspects, some (.pointcut _) => { m with extension := some (.pointcut designator) }
  | _, _ => m

/-- Gives an advice the parameter of its `returning` or `throwing` clause. -/
def setExtra (f : Factory) (parameter : Parameter) (m : MethodDecl) : MethodDecl :=
  match f, m.extension with
  | .aspects, some (.advice a) =>
    { m with extension := some (.advice { a with extra := some parameter }) }
  | _, _ => m

/-- Whether a method is an advice that runs after its join points. -/
def isAfterAdvice (f : Factory) (m : MethodDecl) : Bool :=
  match f, m.extension with
  | .aspects, some (.advice a) => a.kind.isAfter
  | .placeholder, some (.placeholder construct) => construct == .afterAdvice
  | _, _ => false

/-- Narrows an advice that runs after its join points. -/
def narrowAfter (f : Factory) (kind : AdviceKind) (m : MethodDecl) : MethodDecl :=
  match f, m.extension with
  | .aspects, some (.advice a) =>
    if a.kind.isAfter then { m with extension := some (.advice { a with kind }) } else m
  | _, _ => m

/-! ### Declare statements -/

/-- Reads a declare statement from a run of pseudo tokens.  A malformed one is reported and
kept as such; the fault is a message literal that cannot be unquoted. -/
def newDeclare (f : Factory) (run : Fragment) (r : Reporter) :
    Except String (MethodDecl × Reporter) :=
  match f with
  | .placeholder => .ok (methodStandIn .declare, r)
  | .aspects =>
    match Declare.parse run.tokens with
    | .ok declare => .ok (extendedMethod (.declare declare) "ajc$declare", r)
    | .error (.brokenText text) => .error text
    | .error (.problem problem) =>
      let kind := match run.tokens[1]? with
        | some t => t.value
        | none => ""
      let declare := Declare.invalid kind (PseudoToken.renderAll run.tokens)
      .ok (extendedMethod (.declare declare) "ajc$declare",
        r.error .declareSyntax problem.span [problem.message])

/-- Reads a declared annotation from a run of pseudo tokens and the annotation. -/
def newAnnotationDeclare (f : Factory) (run : Fragment) (annotationUse : AnnotationUse)
    (sign : Char) (r : Reporter) : MethodDecl × Reporter :=
  match f with
  | .placeholder => (methodStandIn .annotationDeclare, r)
  | .aspects =>
    match Declare.parseAnnotationForm run.tokens annotationUse sign with
    | .ok declare => (extendedMethod (.declare declare) "ajc$declare_at", r)
    | .error problem =>
      let kind := match run.tokens[2]? with
        | some t => "@" ++ t.value
        | none => ""
      let declare := Declare.invalid kind (PseudoToken.renderAll run.tokens)
      (extendedMethod (.declare declare) "ajc$declare_at",
        r.error .declareSyntax problem.span [problem.message])

/-! ### Inter-type members -/

/-- A field that an aspect adds to another type. -/
def newInterTypeField (f : Factory) (onType : TypeRef) : MethodDecl :=
  match f with
  | .aspects => extendedMethod (.interType { kind := .field, onType := some onType }) ""
  | .placeholder => methodStandIn .interTypeField

/-- A method that an aspect adds to another type. -/
def newInterTypeMethod : Factory → MethodDecl
  | .aspects => extendedMethod (.interType { kind := .method }) ""
  | .placeholder => methodStandIn .interTypeMethod

/-- A constructor that an aspect adds to another type. -/
def newInterTypeConstructor : Factory → MethodDecl
  | .aspects => extendedMethod (.interType { kind := .constructor }) ""
  | .placeholder => methodStandIn .interTypeConstructor

/-- Changes the inter-type part of a method, if it has one. -/
def updateInterType (f : Factory) (change : InterTypeMember → InterTypeMember) (m : MethodDecl) :
    MethodDecl :=
  match f, m.extension with
  | .aspects, some (.interType member) => { m with extension := some (.interType (change member)) }
  | _, _ => m

/-- Sets the modifiers as written. -/
def setDeclaredModifiers (f : Factory) (modifiers : Modifiers) : MethodDecl → MethodDecl :=
  f.updateInterType fun m => { m with declaredModifiers := modifiers }

/-- Sets the initial value of an inter-type field. -/
def setInitialization (f : Factory) (value : Expr) : MethodDecl → MethodDecl :=
  f.updateInterType fun m => { m with initialization := some value }

/-- Sets the type that a member is added to. -/
def setTarget (f : Factory) (onType : TypeRef) : MethodDecl → MethodDecl :=
  f.updateInterType fun m => { m with onType := some onType }

/-! ### Calls and repairs -/

/-- Whether a call named `proceed` is marked as the one that continues the advised
computation. -/
def marksProceed : Factory → Bool
  | .aspects => true
  | .placeholder => false

/-- Whether error recovery may guess a repair while a node is unfinished.  Real aspect
constructs are never guessed at. -/
def allowsRepair (f : Factory) (node : Node) : Bool :=
  match f with
  | .aspects => !node.isExtended
  | .placeholder => true

end Factory

/-! ### Dialects and their names -/

/-- The dialect that a parser is built with. -/
inductive Dialect where
  | disabled
  | enabled (factory : Factory)
deriving DecidableEq, Inhabited, Repr

namespace Dialect

/-- The factory of a dialect. -/
def factory? : Dialect → Option Factory
  | .disabled => none
  | .enabled f => some f

/-- Whether there is a factory. -/
def isEnabled (d : Dialect) : Bool := d.factory?.isSome

/-- The name of a dialect. -/
def name : Dialect → String
  | .disabled => "none"
  | .enabled f => f.name

end Dialect

/-- The factories that can be asked for by name. -/
structure Registry where
  entries : List (String × Factory)
deriving DecidableEq, Repr

namespace Registry

/-- The registry of the front end. -/
def standard : Registry := ⟨[(Factory.aspects.name, .aspects)]⟩

/-- The factory with a given name. -/
def lookup? (r : Registry) (name : String) : Option Factory := r.entries.lookup name

/-- Registers a factory and tells whether the name was free; a taken name keeps its factory. -/
def register (r : Registry) (name : String) (f : Factory) : Registry × Bool :=
  match r.lookup? name with
  | some _ => (r, false)
  | none => (⟨(name, f) :: r.entries⟩, true)

/-- The registered names in order. -/
def names (r : Registry) : List String := (r.entries.map (·.1)).mergeSort (· ≤ ·)

/-- The dialect with a given name. -/
def dialect (r : Registry) (name : String) : Dialect :=
  match r.lookup? name with
  | some f => .enabled f
  | none => .disabled

/-- The dialect that settings ask for. -/
def resolve (r : Registry) (settings : Settings) : Dialect :=
  match settings.dialect with
  | some name => r.dialect name
  | none => .disabled

end Registry

end AspectLang
