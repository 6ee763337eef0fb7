import AspectLang.Proofs.Parse.Balance

/-! # Actions leave alone what lies below their values

A stack of segments can stand on top of another one (`SegmentStack.onto`).  An operation that finds
all it needs on the upper stack does the same when the lower one is there too, and leaves that as it
is; it is called local.  Steps of building a tree are local when they are made of local ones, so the
class `Work.IsLocal` is closed under the ways of composing steps, and every action is an instance
(`Work.isLocal_act`).  Since an action finds the values of its right side, it changes nothing below
them but the declaration that its rule changes (`Work.act_onto`). -/

namespace AspectLang

/-- The result of a computation with the state changed that it leaves. -/
def mapState {ε σ τ α : Type} (f : σ → τ) : EStateM.Result ε σ α → EStateM.Result ε τ α
  | .ok a s => .ok a (f s)
  | .error e s => .error e (f s)

/-! ### Stacks on top of each other -/

namespace SegmentStack

variable {α β κ : Type} {Has : κ → α → Prop} {top frame : List (Shape κ)} {s below : SegmentStack α}

/-- One stack on top of another. -/
def onto (s below : SegmentStack α) : SegmentStack α :=
  ⟨s.items ++ below.items, s.lengths ++ below.lengths⟩

theorem pushSegment_onto (segment : List α) (s below : SegmentStack α) :
    (s.onto below).pushSegment segment = (s.pushSegment segment).onto below := by
  simp [pushSegment, onto]

theorem Fits.onto (hs : s.Fits Has top) (hbelow : below.Fits Has frame) :
    (s.onto below).Fits Has (top ++ frame) := by
  induction hs with
  | empty => exact hbelow
  | @segment _ _ items segment lengths _ hsegment ih =>
      have hstack : SegmentStack.onto ⟨segment.reverse ++ items, segment.length :: lengths⟩ below =
          (SegmentStack.onto ⟨items, lengths⟩ below).pushSegment segment :=
        (pushSegment_onto segment ⟨items, lengths⟩ below).symm
      rw [hstack]
      exact ih.pushSegment hsegment

/-- A stack can be cut between two of its segments. -/
theorem Fits.cut (h : s.Fits Has (top ++ frame)) :
    ∃ t below : SegmentStack α, s = t.onto below ∧ t.Fits Has top ∧ below.Fits Has frame := by
  induction top generalizing s with
  | nil => exact ⟨⟨[], []⟩, s, rfl, .empty, h⟩
  | cons shape top ih =>
      cases h with
      | @segment _ _ items segment lengths hrest hsegment =>
          obtain ⟨t, below, hstack, ht, hbelow⟩ := ih hrest
          refine ⟨t.pushSegment segment, below, ?_, ht.pushSegment hsegment, hbelow⟩
          rw [← pushSegment_onto, ← hstack]
          rfl

/-- An operation that finds all it needs does the same on top of more. -/
class IsLocal (op : Op α β) : Prop where
  onto (s below : SegmentStack α) :
    op (s.onto below) = mapState (·.onto below) (op s) ∨ ∃ s', op s = .error .underflow s'

instance : IsLocal (pop : Op α α) where
  onto := by
    rintro ⟨items, lengths⟩ below
    cases lengths with
    | nil => exact .inr ⟨_, rfl⟩
    | cons n lengths =>
        unfold pop SegmentStack.onto
        by_cases hn : n = 1
        · subst hn
          cases items with
          | nil => exact .inr ⟨_, rfl⟩
          | cons a items => exact .inl rfl
        · simp [hn, mapState]

instance : IsLocal (popSegment : Op α (List α)) where
  onto := by
    rintro ⟨items, lengths⟩ below
    cases lengths with
    | nil => exact .inr ⟨_, rfl⟩
    | cons n lengths =>
        unfold popSegment SegmentStack.onto
        by_cases hn : n ≤ items.length
        · refine .inl ?_
          simp [mapState, List.take_append_of_le_length hn, List.drop_append_of_le_length hn, hn]
        · exact .inr ⟨⟨items, lengths⟩, by simp [hn]⟩

instance : IsLocal (popOptional : Op α (Option α)) where
  onto := by
    intro s below
    unfold popOptional
    simp only [bind, EStateM.bind]
    rcases @IsLocal.onto _ _ popSegment _ s below with h | ⟨s', h⟩
    · rw [h]
      refine .inl ?_
      cases popSegment s with
      | error e s' => rfl
      | ok segment s' =>
          match segment with
          | [] => rfl
          | [a] => rfl
          | a :: b :: more => rfl
    · rw [h]
      exact .inr ⟨s', rfl⟩

instance : IsLocal (concat : Op α Unit) where
  onto := by
    rintro ⟨items, lengths⟩ below
    match lengths with
    | [] => exact .inr ⟨_, rfl⟩
    | [_] => exact .inr ⟨_, rfl⟩
    | top :: next :: rest => exact .inl rfl

instance : IsLocal (peek : Op α α) where
  onto := by
    rintro ⟨items, lengths⟩ below
    cases items with
    | nil => exact .inr ⟨_, rfl⟩
    | cons a items => exact .inl rfl

instance (change : α → α) : IsLocal (modifyTop change) where
  onto := by
    rintro ⟨items, lengths⟩ below
    cases items with
    | nil => exact .inr ⟨_, rfl⟩
    | cons a items => exact .inl rfl

end SegmentStack

open SegmentStack

/-- The workspace with more nodes below its own. -/
def Workspace.onto (w : Workspace) (below : SegmentStack Node) : Workspace :=
  { w with values := { w.values with nodes := w.values.nodes.onto below } }

namespace Work

variable {β γ : Type} {a : Work β} {f : β → Work γ}

/-- A step that finds all it needs does the same on top of more nodes. -/
class IsLocal (a : Work β) : Prop where
  onto (w : Workspace) (below : SegmentStack Node) :
    a (w.onto below) = mapState (·.onto below) (a w) ∨
      ∃ stack production w', a w = .error (.stackUnderflow stack production) w'

/-! ### Composing local steps -/

theorem isLocal_of_eq (h : ∀ w below, a (w.onto below) = mapState (·.onto below) (a w)) :
    IsLocal a := ⟨fun w below => .inl (h w below)⟩

theorem isLocal_modify {change : Workspace → Workspace}
    (h : ∀ w below, change (w.onto below) = (change w).onto below) :
    IsLocal (modify change : Work Unit) :=
  isLocal_of_eq fun w below => congrArg (EStateM.Result.ok ()) (h w below)

theorem isLocal_bind (ha : IsLocal a) (hf : ∀ b, IsLocal (f b)) : IsLocal (a >>= f) where
  onto w below := by
    change EStateM.bind a f (w.onto below) = mapState _ (EStateM.bind a f w) ∨
      ∃ stack production w', EStateM.bind a f w = .error (.stackUnderflow stack production) w'
    unfold EStateM.bind
    rcases ha.onto w below with h | ⟨stack, production, w', h⟩
    · rw [h]
      cases a w with
      | ok b w' => exact (hf b).onto w' below
      | error e w' => exact .inl rfl
    · rw [h]
      exact .inr ⟨stack, production, w', rfl⟩

theorem isLocal_get_bind {f : Workspace → Work β}
    (h : ∀ w below, f (w.onto below) (w.onto below) = mapState (·.onto below) (f w w)) :
    IsLocal (get >>= f) := isLocal_of_eq h

instance (b : β) : IsLocal (pure b : Work β) := isLocal_of_eq fun _ _ => rfl

instance [IsLocal a] [∀ b, IsLocal (f b)] : IsLocal (a >>= f) :=
  isLocal_bind inferInstance inferInstance

instance (g : β → γ) [IsLocal a] : IsLocal (g <$> a) := by
  rw [map_eq_pure_bind]
  infer_instance

instance {c : Prop} [Decidable c] {b : Work β} [IsLocal a] [IsLocal b] :
    IsLocal (if c then a else b) := by
  split <;> infer_instance

instance {xs : List β} {f : β → Work Unit} [∀ x, IsLocal (f x)] : IsLocal (xs.forM f) := by
  induction xs with
  | nil => exact inferInstanceAs (IsLocal (pure ()))
  | cons x xs ih => exact isLocal_bind inferInstance fun _ => ih

/-! ### Operations on the stacks -/

instance (op : Op Node β) [SegmentStack.IsLocal op] : IsLocal (onStacks (.onNodes op)) where
  onto w below := by
    unfold onStacks StackM.onNodes Workspace.onto
    rcases @SegmentStack.IsLocal.onto _ _ op _ w.values.nodes below with h | ⟨s, h⟩
    · dsimp only
      rw [h]
      cases op w.values.nodes <;> exact .inl rfl
    · rw [h]
      exact .inr ⟨_, _, _, rfl⟩

instance (op : Op Expr β) : IsLocal (onStacks (.onExprs op)) := isLocal_of_eq fun w _ => by
  unfold onStacks StackM.onExprs Workspace.onto
  cases op w.values.exprs <;> rfl

instance (op : Op Identifier β) : IsLocal (onStacks (.onIdentifiers op)) :=
  isLocal_of_eq fun w _ => by
    unfold onStacks StackM.onIdentifiers Workspace.onto
    cases op w.values.identifiers <;> rfl

instance (op : Op TypeNode β) : IsLocal (onStacks (.onTypes op)) := isLocal_of_eq fun w _ => by
  unfold onStacks StackM.onTypes Workspace.onto
  cases op w.values.types <;> rfl

instance : IsLocal popInt := isLocal_of_eq fun w _ => by
  unfold popInt onStacks StackM.popInt Workspace.onto
  cases w.values.ints <;> rfl

instance (k : Nat) : IsLocal (discard (onStacks (StackM.addInt k))) := isLocal_of_eq fun w _ => by
  change EStateM.map _ (onStacks (StackM.addInt k)) _ =
    mapState _ (EStateM.map _ (onStacks (StackM.addInt k)) w)
  unfold EStateM.map onStacks StackM.addInt Workspace.onto
  cases w.values.ints <;> rfl

/-! ### Adding and reporting -/

section

variable (n : Node) (ns : List Node) (id : ProblemKind) (span : Span) (arguments : List String)
  (stack : StackName) (expected : NodeSort)

instance : IsLocal (pushNode n) := isLocal_modify fun _ _ => rfl
instance : IsLocal pushNoNodes := isLocal_modify fun _ _ => rfl
instance (e : Expr) : IsLocal (pushExpr e) := isLocal_modify fun _ _ => rfl
instance : IsLocal pushNoExprs := isLocal_modify fun _ _ => rfl
instance (n : TypeNode) : IsLocal (pushTypeNode n) := isLocal_modify fun _ _ => rfl
instance (t : TypeRef) : IsLocal (pushType t) := isLocal_modify fun _ _ => rfl
instance : IsLocal pushNoTypes := isLocal_modify fun _ _ => rfl
instance (n : Nat) : IsLocal (pushInt n) := isLocal_of_eq fun _ _ => rfl
instance (s : Statement) : IsLocal (pushStatement s) := isLocal_modify fun _ _ => rfl
instance : IsLocal (report id span arguments) := isLocal_modify fun _ _ => rfl
instance (f : Reporter → β × Reporter) : IsLocal (withReporter f) := isLocal_of_eq fun _ _ => rfl
instance : IsLocal (wrongNode stack expected : Work β) := isLocal_of_eq fun _ _ => rfl
instance : IsLocal (noIdentifier : Work β) := isLocal_of_eq fun _ _ => rfl

instance : IsLocal (pushNodes ns) := isLocal_modify fun w below => by
  dsimp only [Workspace.onto]
  rw [pushSegment_onto]

instance (value : Option β) : IsLocal (expectNode stack expected value) := by
  unfold expectNode
  split <;> infer_instance

/-! ### Taking -/

instance : IsLocal popNode := by unfold popNode; infer_instance
instance : IsLocal popNodes := by unfold popNodes; infer_instance
instance : IsLocal popOptionalNode := by unfold popOptionalNode; infer_instance
instance : IsLocal popExpr := by unfold popExpr; infer_instance
instance : IsLocal popExprs := by unfold popExprs; infer_instance
instance : IsLocal popOptionalExpr := by unfold popOptionalExpr; infer_instance
instance : IsLocal popIdentifier := by unfold popIdentifier; infer_instance
instance : IsLocal popType := by unfold popType; infer_instance
instance : IsLocal popTypes := by unfold popTypes; infer_instance
instance : IsLocal popTypeArguments := by unfold popTypeArguments; infer_instance
instance : IsLocal popModifiers := by unfold popModifiers; infer_instance
instance : IsLocal popParameter := by unfold popParameter; infer_instance
instance : IsLocal popParameters := by unfold popParameters; infer_instance
instance : IsLocal popDeclarator := by unfold popDeclarator; infer_instance
instance : IsLocal popDeclarators := by unfold popDeclarators; infer_instance
instance : IsLocal popStatement := by unfold popStatement; infer_instance
instance : IsLocal popStatements := by unfold popStatements; infer_instance
instance : IsLocal popBlock := by unfold popBlock; infer_instance
instance : IsLocal popFragment := by unfold popFragment; infer_instance
instance : IsLocal popFragments := by unfold popFragments; infer_instance
instance : IsLocal (replaceTop n) := by unfold replaceTop; infer_instance
instance : IsLocal (typeOnTop expected) := by unfold typeOnTop; infer_instance
instance : IsLocal (methodOnTop expected) := by unfold methodOnTop; infer_instance
instance (change : TypeDecl → TypeDecl) : IsLocal (updateType change) := by
  unfold updateType; infer_instance
instance (change : MethodDecl → MethodDecl) : IsLocal (updateMethod change) := by
  unfold updateMethod; infer_instance

instance : IsLocal popName := by
  unfold popName
  refine isLocal_bind inferInstance fun segments => ?_
  cases segments <;> infer_instance

end

section

variable (present : Bool) (c : Handle)

instance : IsLocal (popTypeParameters present) := by unfold popTypeParameters; infer_instance
instance : IsLocal (popModifiersIf present) := by unfold popModifiersIf; infer_instance
instance : IsLocal (popReceiver present c) := by unfold popReceiver; infer_instance
instance : IsLocal (popLabel present) := by unfold popLabel; infer_instance

end

/-! ### Actions of the base language -/

section

variable (dialect : Dialect) (c : Handle)

instance (flag : Modifiers) (start : Nat) : IsLocal (startModifiers flag start) := by
  unfold startModifiers; infer_instance
instance (type : TypeRef) (declarators : List Declarator) :
    IsLocal (reportVoid type declarators) := by unfold reportVoid; infer_instance

instance : IsLocal (compilationUnit c) := by
  unfold compilationUnit
  refine isLocal_bind inferInstance fun _ => isLocal_bind inferInstance fun types => ?_
  refine isLocal_bind inferInstance fun _ => isLocal_bind inferInstance fun imports => ?_
  refine isLocal_bind inferInstance fun n => ?_
  have hfinish : ∀ package, IsLocal (modify fun w =>
      { w with unit := some ⟨package, imports, types, c.whole⟩ } : Work Unit) :=
    fun _ => isLocal_modify fun _ _ => rfl
  cases n <;> infer_instance

instance (kind : WildcardKind) : IsLocal (wildcard kind c) := by
  unfold wildcard
  cases kind <;> infer_instance

instance : IsLocal (callByName dialect c) := by
  unfold callByName
  refine isLocal_bind inferInstance fun arguments => isLocal_bind inferInstance fun segments => ?_
  cases segments.getLast? <;> infer_instance

/-- Every action of the base language is local. -/
theorem isLocal_baseAction (action : SemanticAction) : IsLocal (baseAction dialect c action) := by
  cases action <;> simp only [baseAction, packageDecl, importDecl, namedType,
    qualifiedGenericType, genericType, arrayType, typeParameter, concatModifiers, annotationMarker,
    annotationSingleMember, typeHeaderName, superclass, interfaces, classBody, fieldDecl,
    declaratorId, declaratorInitializer, methodHeaderName, constructorHeaderName, methodHeader,
    methodDecl, formalParameter, initializerBlock, blockStatement, localVariables,
    localVariablesStatement, expressionStatement, labeledStatement, ifStatement, whileStatement,
    doStatement, forStatement, forInitExpressions, forEachStatement, tryStatement, catchClause,
    assertStatement, parenthesized, allocation, fieldAccess, callOn, nameExpr, unary, binary,
    instanceOf, conditional, assignment] <;> infer_instance

/-! ### Actions of aspect constructs -/

variable (factory : Factory)

instance (construct : String) (span : Span) : IsLocal (factoryFor dialect construct span) := by
  unfold factoryFor
  cases dialect with
  | enabled f => infer_instance
  | disabled =>
      refine isLocal_get_bind fun w below => ?_
      have hreported : (w.onto below).unavailableReported = w.unavailableReported := rfl
      rw [hreported]
      cases w.unavailableReported <;> rfl

instance (outer inner : WrittenModifiers) (span : Span) :
    IsLocal (joinModifiers outer inner span) := by unfold joinModifiers; infer_instance
instance (privileged : Bool) : IsLocal (popAspectModifiers privileged c) := by
  unfold popAspectModifiers; infer_instance
instance (keyword : Identifier) (returnType : TypeRef) (modifiers : WrittenModifiers)
    (advice : MethodDecl) : IsLocal (pushAdvice keyword returnType modifiers advice) := by
  unfold pushAdvice; infer_instance
instance (pattern : TargetForm) : IsLocal (reportTargetForm pattern c) := by
  unfold reportTargetForm
  cases pattern <;> infer_instance

instance (pattern : TargetForm) : IsLocal (interTypeFieldHeader factory pattern c) := by
  unfold interTypeFieldHeader
  cases pattern <;> infer_instance

instance (tokens : List Fragment) (throws : List TypeRef) (extra : Option ExtraParameter) :
    IsLocal (completeAdvice factory tokens throws extra c) := by
  unfold completeAdvice
  cases extra <;> infer_instance

instance (hasExtra : Bool) : IsLocal (adviceHeader factory hasExtra c) := by
  unfold adviceHeader
  refine isLocal_bind inferInstance fun tokens => isLocal_bind inferInstance fun throws => ?_
  dsimp only
  split
  · refine isLocal_bind inferInstance fun n => ?_
    cases n <;> infer_instance
  · infer_instance

instance : IsLocal (declareDecl factory c) := by
  unfold declareDecl
  refine isLocal_bind inferInstance fun body => isLocal_bind inferInstance fun header => ?_
  generalize headerSpans header 1 c = spans
  refine isLocal_get_bind fun w below => ?_
  have hreporter : (w.onto below).reporter = w.reporter := rfl
  rw [hreporter]
  cases factory.newDeclare _ w.reporter <;> rfl

instance : IsLocal (literalToken factory) := by
  unfold literalToken
  refine isLocal_bind inferInstance fun e => ?_
  cases e <;> infer_instance

/-- Every action of an aspect construct is local. -/
theorem isLocal_aspectAction (action : AspectAction) : IsLocal (aspectAction dialect c action) := by
  unfold aspectAction
  refine isLocal_bind inferInstance fun factory => ?_
  cases action <;> simp only [aspectHeaderName, headerRest, pointcutHeader, pointcutDecl,
    aroundHeaderName, adviceHeaderName, extraParameter, declareHeader, declareAnnotationHeader,
    annotationDeclare, interTypeFieldBody, interTypeFieldDecl, interTypeMethodHeaderName,
    interTypeConstructorHeaderName, interTypeClassHeaderName] <;> infer_instance

/-- Every action is local. -/
theorem isLocal_act (action : SemanticAction) : IsLocal (act dialect c action) := by
  cases action with
  | aspect action => exact isLocal_aspectAction dialect c action
  | _ =>
      unfold act
      exact isLocal_baseAction dialect c _

end

/-! ### Reductions -/

/-- **An action leaves alone what lies below the values of its right side and the declaration that
it changes.**  It does there what it does without it. -/
theorem act_onto (dialect : Dialect) {plain : Prop} {c : Handle} {r : Rule} {frame : Profile}
    {w w' : Workspace} {below : SegmentStack Node} (hr : r ∈ Language.rules)
    (harity : c.arity = r.rhs.length) (hcontext : r.lhs.context <+: frame.nodes)
    (h : w.Fits plain (frame.followed (r.rhs.map RuleSymbol.profile)))
    (hact : act dialect c r.action (w.onto below) = .ok () w') :
    ∃ upper, act dialect c r.action w = .ok () upper ∧ w' = upper.onto below ∧
      upper.Fits plain (r.lhs.profile.atop frame) := by
  have hensures := ensures_act dialect hr harity hcontext h
  unfold Ensures at hensures
  rcases (isLocal_act dialect c r.action).onto w below with honto | ⟨stack, production, _, herror⟩
  · rw [honto] at hact
    cases hwork : act dialect c r.action w with
    | error e upper =>
        rw [hwork] at hact
        cases hact
    | ok u upper =>
        rw [hwork] at hact hensures
        cases hact
        exact ⟨upper, rfl, rfl, hensures⟩
  · rw [herror] at hensures
    obtain ⟨_, text, htext⟩ := hensures
    cases htext

end Work

end AspectLang
