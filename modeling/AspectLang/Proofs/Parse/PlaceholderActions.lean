import AspectLang.Proofs.Parse.BaseActionsInStep

/-! # Actions without a dialect

Without a dialect the placeholder factory answers, and the first construct of a unit is reported.
So a run without a dialect does what a run with that factory does, but for this report: the
workspaces agree in their values, and their logs are related by a relation that is kept when
both get the same error (`Workspace.Agrees`).  One lemma per action of an aspect construct
follows it from one value to the next; the actions of the base language are those of two runs in
general, since the placeholder factory marks nothing. -/

namespace AspectLang

/-- Two workspaces hold the same values, and their logs are related. -/
structure Workspace.Agrees (L : Reporter × Bool → Reporter × Bool → Prop) (w w' : Workspace) :
    Prop where
  values : w'.values = w.values
  unit : w'.unit = w.unit
  log : L w.log w'.log

theorem ValueStacks.markProceeds_placeholder (s : ValueStacks) :
    s.markProceeds .placeholder = s := by
  unfold markProceeds SegmentStack.map
  rw [map_eq_self Node.markProceeds_placeholder, map_eq_self Expr.markProceeds_placeholder]

theorem Workspace.mirrors_placeholder_iff {L : Reporter × Bool → Reporter × Bool → Prop}
    {w w' : Workspace} : Mirrors .placeholder L w w' ↔ Agrees L w w' := by
  constructor
  · intro h
    refine ⟨h.values.trans (ValueStacks.markProceeds_placeholder _), h.unit.trans ?_, h.log⟩
    exact option_map_eq_self CompilationUnit.markProceeds_placeholder _
  · intro h
    refine ⟨h.values.trans (ValueStacks.markProceeds_placeholder _).symm, h.unit.trans ?_,
      fun _ _ => rfl, h.log⟩
    exact (option_map_eq_self CompilationUnit.markProceeds_placeholder _).symm

namespace Work

open Workspace

variable {L : Reporter × Bool → Reporter × Bool → Prop} {α β : Type} {c : Handle}

/-- A step of building a tree does the same in workspaces that agree. -/
def Even (L : Reporter × Bool → Reporter × Bool → Prop) (x : Work α) : Prop :=
  InStep (Agrees L) Eq x x

/-! ### Values -/

theorem Even.bind {x : Work α} {k : α → Work β} (hx : Even L x) (hk : ∀ a, Even L (k a)) :
    Even L (x >>= k) :=
  InStep.bind hx fun a _ h => h ▸ hk a

theorem Even.map {x : Work α} {k : α → β} (hx : Even L x) : Even L (k <$> x) :=
  InStep.map hx fun _ _ => congrArg k

theorem even_pure (a : α) : Even L (pure a) := .pure rfl

theorem even_onStacks (op : StackM α) : Even L (onStacks op) := by
  rintro w w' ⟨hvalues, hunit, hlog⟩
  unfold onStacks
  rw [hvalues]
  cases op w.values with
  | ok a values => exact .ok rfl ⟨rfl, hunit, hlog⟩
  | error e values => exact .error ⟨rfl, hunit, hlog⟩

theorem even_modifyValues (g : ValueStacks → ValueStacks) :
    Even L (modify fun w => { w with values := g w.values }) :=
  .modifies fun _ _ h => ⟨congrArg g h.values, h.unit, h.log⟩

theorem even_pushNode (n : Node) : Even L (pushNode n) :=
  even_modifyValues fun s => { s with nodes := s.nodes.push n }

theorem even_pushNodes (ns : List Node) : Even L (pushNodes ns) :=
  even_modifyValues fun s => { s with nodes := s.nodes.pushSegment ns }

theorem even_wrongNode (stack : StackName) (expected : NodeSort) :
    Even L (wrongNode stack expected : Work α) := by
  rintro w w' ⟨hvalues, hunit, hlog⟩
  unfold wrongNode
  rw [hvalues]
  exact .error ⟨hvalues, hunit, hlog⟩

theorem even_expectNode (stack : StackName) (expected : NodeSort) (x : Option α) :
    Even L (expectNode stack expected x) := by
  cases x with
  | some a => exact even_pure a
  | none => exact even_wrongNode stack expected

theorem even_noIdentifier : Even L (noIdentifier : Work α) := by
  rintro w w' ⟨hvalues, hunit, hlog⟩
  unfold noIdentifier
  rw [hvalues]
  exact .error ⟨hvalues, hunit, hlog⟩

theorem even_popName : Even L popName := by
  refine .bind (even_onStacks _) fun segments => ?_
  cases segments with
  | nil => exact even_noIdentifier
  | cons word words => exact even_pure _

theorem even_popType : Even L popType := .bind (even_onStacks _) fun _ => even_expectNode _ _ _

theorem even_popTypes : Even L popTypes := .bind (even_onStacks _) fun _ => even_expectNode _ _ _

theorem even_popTypeParameters (present : Bool) : Even L (popTypeParameters present) := by
  cases present with
  | false => exact even_pure []
  | true => exact .bind (even_onStacks _) fun _ => even_expectNode _ _ _

theorem even_popModifiers : Even L popModifiers :=
  .bind (even_onStacks _) fun _ => .bind (even_onStacks _) fun _ =>
    .bind (even_onStacks _) fun _ => even_pure _

theorem even_popParameter : Even L popParameter :=
  .bind (even_onStacks _) fun _ => even_expectNode _ _ _

theorem even_popParameters : Even L popParameters :=
  .bind (even_onStacks _) fun _ => even_expectNode _ _ _

theorem even_popFragment : Even L popFragment :=
  .bind (even_onStacks _) fun _ => even_expectNode _ _ _

theorem even_popFragments : Even L popFragments :=
  .bind (even_onStacks _) fun _ => even_expectNode _ _ _

theorem even_methodOnTop (expected : NodeSort) : Even L (methodOnTop expected) :=
  .bind (even_onStacks _) fun _ => even_expectNode _ _ _

theorem even_typeOnTop (expected : NodeSort) : Even L (typeOnTop expected) :=
  .bind (even_onStacks _) fun _ => even_expectNode _ _ _

theorem even_updateMethod (change : MethodDecl → MethodDecl) : Even L (updateMethod change) :=
  .bind (even_methodOnTop _) fun _ => even_onStacks _

/-! ### Reporting -/

theorem even_report (hL : KeptByErrors L) (id : ProblemKind) (span : Span)
    (arguments : List String) : Even L (report id span arguments) :=
  .modifies fun _ _ h => ⟨h.values, h.unit, hL _ _ id span arguments h.log⟩

/-- Something that leaves the reporter alone. -/
theorem even_withReporter (a : α) : Even L (withReporter fun r => (a, r)) := by
  rintro w w' ⟨hvalues, hunit, hlog⟩
  exact .ok rfl ⟨hvalues, hunit, hlog⟩

/-! ### Aspects -/

theorem even_joinModifiers (hL : KeptByErrors L) (outer inner : WrittenModifiers) (span : Span) :
    Even L (joinModifiers outer inner span) := by
  unfold joinModifiers
  split
  · exact .bind (even_report hL _ _ _) fun _ => even_pure _
  · exact even_pure _

theorem even_popAspectModifiers (hL : KeptByErrors L) (privileged : Bool) :
    Even L (popAspectModifiers privileged c) := by
  refine .bind even_popModifiers fun inner => ?_
  cases privileged with
  | false => exact even_pure _
  | true =>
      refine .bind (even_onStacks _) fun _ => ?_
      exact .bind even_popModifiers fun outer => even_joinModifiers hL outer inner _

theorem even_aspectHeaderName (hL : KeptByErrors L) (privileged typeParameters : Bool) :
    Even L (aspectHeaderName .placeholder privileged typeParameters c) := by
  refine .bind (even_popTypeParameters typeParameters) fun parameters => ?_
  refine .bind (even_onStacks _) fun name => ?_
  refine .bind (even_onStacks _) fun _ => ?_
  exact .bind (even_popAspectModifiers hL privileged) fun modifiers => even_pushNode _

theorem even_headerRest : Even L (headerRest .placeholder c) := by
  have hrest : ∀ rest : List Fragment, Even L (do
      let first ← popFragment
      let run := Factory.placeholder.joinTokens
        (first :: rest ++ [Factory.placeholder.pseudoToken "\x7b" false c.lookahead])
      let aspect ← typeOnTop .aspect
      let aspect ← withReporter (Factory.placeholder.setDominates run aspect)
      let aspect ← withReporter (Factory.placeholder.setPerClause run aspect)
      replaceTop (.type (reachTo run.span.stop aspect))) := by
    intro rest
    refine .bind even_popFragment fun first => ?_
    refine .bind (even_typeOnTop _) fun aspect => ?_
    refine .bind (even_withReporter aspect) fun aspect => ?_
    exact .bind (even_withReporter aspect) fun aspect => even_onStacks _
  unfold headerRest
  split
  · exact .bind even_popFragments hrest
  · exact hrest []

/-! ### Pointcuts and advice -/

theorem even_pointcutHeader : Even L (pointcutHeader .placeholder) := by
  refine .bind (even_onStacks _) fun name => ?_
  refine .bind (even_onStacks _) fun keyword => ?_
  exact .bind even_popModifiers fun modifiers => even_pushNode _

theorem even_pointcutDecl (hasDesignator : Bool) :
    Even L (pointcutDecl .placeholder hasDesignator c) := by
  have hrest : ∀ change : List Parameter → MethodDecl → MethodDecl, Even L (do
      let parameters ← popParameters
      updateMethod (change parameters)) :=
    fun change => .bind even_popParameters fun parameters => even_updateMethod _
  cases hasDesignator with
  | false => exact hrest _
  | true =>
      refine .bind even_popFragments fun tokens => ?_
      refine .bind (.map (even_withReporter _)) fun designator => ?_
      exact hrest _

theorem even_pushAdvice (keyword : Identifier) (returnType : TypeRef)
    (modifiers : WrittenModifiers) (advice : MethodDecl) :
    Even L (pushAdvice keyword returnType modifiers advice) := even_pushNode _

theorem even_aroundHeaderName (hL : KeptByErrors L) (hasReturnType : Bool) :
    Even L (aroundHeaderName .placeholder hasReturnType) := by
  refine .bind (even_onStacks _) fun keyword => ?_
  have hrest : ∀ returnType : TypeRef, Even L (do
      let modifiers ← popModifiers
      pushAdvice keyword returnType modifiers Factory.placeholder.newAroundAdvice) :=
    fun returnType => .bind even_popModifiers fun modifiers => even_pushAdvice _ _ _ _
  cases hasReturnType with
  | false => exact .bind (even_report hL _ _ _) fun _ => hrest _
  | true => exact .bind even_popType hrest

theorem even_adviceHeaderName (after : Bool) : Even L (adviceHeaderName .placeholder after) := by
  refine .bind (even_onStacks _) fun keyword => ?_
  exact .bind even_popModifiers fun modifiers => even_pushAdvice _ _ _ _

/-- A clause that does not fit is an error, and every other one is taken in silence. -/
theorem even_applyExtra (hL : KeptByErrors L) (extra : ExtraParameter) (m : MethodDecl) :
    Even L (withReporter (applyExtra .placeholder extra m)) := by
  have happly : ∀ l l', L l l' →
      (applyExtra .placeholder extra m l.1).1 = (applyExtra .placeholder extra m l'.1).1 ∧
        L ((applyExtra .placeholder extra m l.1).2, l.2)
          ((applyExtra .placeholder extra m l'.1).2, l'.2) := by
    intro l l' h
    have herror := fun id span arguments => hL l l' id span arguments h
    unfold applyExtra
    split
    · exact ⟨rfl, herror _ _ _⟩
    · dsimp only
      split
      · exact ⟨rfl, herror _ _ _⟩
      · split
        · exact ⟨rfl, h⟩
        · exact ⟨rfl, h⟩
  rintro w w' ⟨hvalues, hunit, hlog⟩
  exact .ok (happly _ _ hlog).1 ⟨hvalues, hunit, (happly _ _ hlog).2⟩

theorem even_adviceHeader (hL : KeptByErrors L) (hasExtra : Bool) :
    Even L (adviceHeader .placeholder hasExtra c) := by
  refine .bind even_popFragments fun tokens => ?_
  refine .bind even_popTypes fun throws => ?_
  have hrest : ∀ extra : Option ExtraParameter, Even L
      (completeAdvice .placeholder tokens throws extra c) := by
    intro extra
    refine .bind even_popParameters fun parameters => ?_
    refine .bind (even_withReporter _) fun designator => ?_
    refine .bind (even_methodOnTop _) fun advice => ?_
    cases extra with
    | none => exact even_onStacks _
    | some extra => exact .bind (even_applyExtra hL _ _) fun advice => even_onStacks _
  cases hasExtra with
  | false => exact hrest none
  | true =>
      refine .bind (even_onStacks _) fun n => ?_
      cases n with
      | none => exact hrest none
      | some n => exact .bind (.map (even_expectNode _ _ _)) hrest

theorem even_extraParameter (formal : Bool) : Even L (extraParameter formal) := by
  have hrest : ∀ parameter : Option Parameter, Even L (do
      let name ← popIdentifier
      pushNode (.extraParameter ⟨name, parameter⟩)) :=
    fun parameter => .bind (even_onStacks _) fun name => even_pushNode _
  cases formal with
  | false => exact hrest none
  | true => exact .bind (.map even_popParameter) hrest

/-! ### Declare statements -/

theorem even_declareHeader : Even L (declareHeader .placeholder c) := by
  refine .bind (even_onStacks _) fun kind => ?_
  exact .bind (even_onStacks _) fun keyword => even_pushNodes _

theorem even_declareDecl : Even L (declareDecl .placeholder c) := by
  refine .bind even_popFragments fun body => ?_
  refine .bind even_popFragments fun header => ?_
  refine .get_bind fun w w' hw => ?_
  -- both runs put back the workspace that they have just read
  rintro _ _ ⟨_, _, _⟩
  exact even_pushNode _ w w' hw

theorem even_declareAnnotationHeader : Even L (declareAnnotationHeader .placeholder c) := by
  refine .bind (even_onStacks _) fun kind => ?_
  exact .bind (even_onStacks _) fun keyword => even_pushNodes _

theorem even_annotationDeclare (sign : Char) : Even L (annotationDeclare .placeholder sign c) := by
  refine .bind (even_onStacks _) fun value => ?_
  refine .bind (even_expectNode _ _ _) fun annotationUse => ?_
  refine .bind even_popFragments fun pattern => ?_
  refine .bind even_popFragments fun header => ?_
  exact .bind (even_withReporter _) fun m => even_pushNode _

/-! ### Inter-type members -/

theorem even_reportTargetForm (hL : KeptByErrors L) (pattern : TargetForm) :
    Even L (reportTargetForm pattern c) := by
  cases pattern with
  | plain => exact even_pure ()
  | starSegment | starOnly | plus => exact even_report hL _ _ _

theorem even_interTypeFieldHeader (hL : KeptByErrors L) (pattern : TargetForm) :
    Even L (interTypeFieldHeader .placeholder pattern c) := by
  have hrest : ∀ name : Identifier, Even L (do
      reportTargetForm pattern c
      let onType ← popName
      let type ← popType
      let modifiers ← popModifiers
      let field := { Factory.placeholder.newInterTypeField (.ofName onType) with
        selector := name.name }
      let field := { Factory.placeholder.setDeclaredModifiers modifiers.flags field with
        returnType := some type }
      pushNode (.method (headMethod name.span modifiers field))) := by
    intro name
    refine .bind (even_reportTargetForm hL pattern) fun _ => ?_
    refine .bind even_popName fun onType => ?_
    refine .bind even_popType fun type => ?_
    exact .bind even_popModifiers fun modifiers => even_pushNode _
  cases pattern with
  | starOnly => exact hrest _
  | plain | starSegment | plus => exact .bind (even_onStacks _) hrest

theorem even_interTypeFieldBody (hasInitializer : Bool) :
    Even L (interTypeFieldBody .placeholder hasInitializer) := by
  cases hasInitializer with
  | false => exact even_pure ()
  | true => exact .bind (even_onStacks _) fun value => even_updateMethod _

theorem even_interTypeMethodHeaderName (hL : KeptByErrors L) (pattern : TargetForm) :
    Even L (interTypeMethodHeaderName .placeholder pattern c) := by
  refine .bind (even_onStacks _) fun name => ?_
  refine .bind (even_reportTargetForm hL pattern) fun _ => ?_
  refine .bind even_popName fun onType => ?_
  refine .bind even_popType fun returnType => ?_
  exact .bind even_popModifiers fun modifiers => even_pushNode _

theorem even_interTypeConstructorHeaderName (hL : KeptByErrors L) (plus : Bool) :
    Even L (interTypeConstructorHeaderName .placeholder plus c) := by
  have hrest : ∀ node : QualifiedName → WrittenModifiers → Node, Even L (do
      let onType ← popName
      let modifiers ← popModifiers
      pushNode (node onType modifiers)) := by
    intro node
    refine .bind even_popName fun onType => ?_
    exact .bind even_popModifiers fun modifiers => even_pushNode _
  cases plus with
  | false => exact hrest _
  | true => exact .bind (even_report hL _ _ _) fun _ => hrest _

theorem even_interTypeClassHeaderName : Even L (interTypeClassHeaderName .placeholder) := by
  refine .bind (even_onStacks _) fun name => ?_
  refine .bind even_popName fun onType => ?_
  exact .bind even_popModifiers fun modifiers => even_pushNode _

/-! ### Pseudo tokens -/

theorem even_literalToken : Even L (literalToken .placeholder) := by
  refine .bind (even_onStacks _) fun value => ?_
  cases value with
  | literal => exact even_pushNode _
  | _ => exact even_wrongNode _ _

/-! ### All actions -/

/-- An action of an aspect construct gets its factory, and what it does with the placeholder
factory is the same in workspaces that agree. -/
theorem aspectAction_eq_bind (c : Handle) (action : AspectAction) :
    ∃ build : Factory → Work Unit,
      (∀ dialect, aspectAction dialect c action =
        factoryFor dialect action.constructWords c.whole >>= build) ∧
      ∀ L, KeptByErrors L → Even L (build .placeholder) := by
  refine ⟨_, fun _ => rfl, fun L hL => ?_⟩
  cases action with
  | aspectHeaderName privileged typeParameters =>
      exact even_aspectHeaderName hL privileged typeParameters
  | headerRest => exact even_headerRest
  | pointcutHeader => exact even_pointcutHeader
  | pointcutDecl designator => exact even_pointcutDecl designator
  | aroundHeaderName returnType => exact even_aroundHeaderName hL returnType
  | adviceHeaderName after => exact even_adviceHeaderName after
  | adviceHeader extra => exact even_adviceHeader hL extra
  | extraParameter formal => exact even_extraParameter formal
  | declareHeader => exact even_declareHeader
  | declareDecl => exact even_declareDecl
  | declareAnnotationHeader => exact even_declareAnnotationHeader
  | annotationDeclare sign => exact even_annotationDeclare sign
  | interTypeFieldHeader pattern => exact even_interTypeFieldHeader hL pattern
  | interTypeFieldBody initializer => exact even_interTypeFieldBody initializer
  | interTypeFieldDecl => exact even_updateMethod _
  | interTypeMethodHeaderName pattern => exact even_interTypeMethodHeaderName hL pattern
  | interTypeConstructorHeaderName plus => exact even_interTypeConstructorHeaderName hL plus
  | interTypeClassHeaderName => exact even_interTypeClassHeaderName
  | symbolToken kind => exact even_pushNode _
  | identifierToken => exact .bind (even_onStacks _) fun word => even_pushNode _
  | literalToken => exact even_literalToken
  | modifierToken => exact .bind even_popModifiers fun modifiers => even_pushNode _
  | primitiveTypeToken => exact .bind even_popType fun type => even_pushNode _
  | guardToken => exact .bind (even_onStacks _) fun condition => even_pushNode _

end Work

end AspectLang
