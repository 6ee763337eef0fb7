import AspectLang.Proofs.Parse.Lockstep

/-! # What actions report

`Reporter.Adds P` relates a reporter to itself with more errors, each of which is as `P` says.  The
problems that a semantic action finds concern the construct that it builds
(`ProblemKind.concernsConstruct`): no action reports that a token fits nowhere, or that the unit is
given up.  Steps of building a tree that only report such problems are closed under the ways of
composing steps, so they form a class, and every action is an instance once it has its factory; what
an action asks for first is the factory, and that can report that there is no dialect
(`Work.adds_act`). -/

namespace AspectLang

/-! ### Where computations lead -/

section

variable {ε σ α β : Type} {R : σ → σ → Prop} {x : EStateM ε σ α} {f : α → EStateM ε σ β}

/-- Wherever the computation starts, `R` relates that to where it ends, also when it fails. -/
def Moves (R : σ → σ → Prop) (x : EStateM ε σ α) : Prop := ∀ s, Ends (R s) (x s)

namespace Moves

theorem pure (hR : ∀ s, R s s) (a : α) : Moves R (Pure.pure a : EStateM ε σ α) :=
  fun s => .ok (hR s)

theorem throw (hR : ∀ s, R s s) (e : ε) : Moves R (MonadExcept.throw e : EStateM ε σ α) :=
  fun s => .error (hR s)

theorem modifies {k : σ → σ} (hk : ∀ s, R s (k s)) : Moves R (modify k : EStateM ε σ Unit) :=
  fun s => .ok (hk s)

theorem bind (hR : ∀ s t u, R s t → R t u → R s u) (hx : Moves R x) (hf : ∀ a, Moves R (f a)) :
    Moves R (x >>= f) := by
  intro s
  have h := hx s
  change Ends (R s) (EStateM.bind x f s)
  unfold EStateM.bind
  generalize x s = result at h
  cases h with
  | error h => exact .error h
  | @ok a t h =>
      dsimp only
      have hnext := hf a t
      generalize f a t = result at hnext
      cases hnext with
      | ok hnext => exact .ok (hR _ _ _ h hnext)
      | error hnext => exact .error (hR _ _ _ h hnext)

theorem get_bind {f : σ → EStateM ε σ α} (hf : ∀ s, Moves R (f s)) : Moves R (get >>= f) :=
  fun s => hf s s

theorem mono {R' : σ → σ → Prop} (hx : Moves R x) (hR : ∀ s t, R s t → R' s t) : Moves R' x := by
  intro s
  have h := hx s
  generalize x s = result at h
  cases h with
  | ok h => exact .ok (hR _ _ h)
  | error h => exact .error (hR _ _ h)

end Moves

end

/-! ### Reporters with more errors -/

namespace Reporter

variable {P Q : Diagnostic → Prop} {r r' r'' : Reporter}

/-- A reporter after more errors, each of which is as `P` says. -/
inductive Adds (P : Diagnostic → Prop) (r : Reporter) : Reporter → Prop
  | refl : Adds P r r
  | error {r' : Reporter} {id : ProblemKind} {span : Span} {arguments : List String} :
      Adds P r r' → P (.of id span arguments) → Adds P r (r'.error id span arguments)

theorem Adds.one {id : ProblemKind} {span : Span} {arguments : List String}
    (h : P (.of id span arguments)) : Adds P r (r.error id span arguments) := .error .refl h

theorem Adds.trans (h : Adds P r r') (h' : Adds P r' r'') : Adds P r r'' := by
  induction h' with
  | refl => exact h
  | error _ hd ih => exact .error ih hd

theorem Adds.mono (h : Adds P r r') (hPQ : ∀ d, P d → Q d) : Adds Q r r' := by
  induction h with
  | refl => exact .refl
  | error _ hd ih => exact .error ih (hPQ _ hd)

/-- How many diagnostics tell of a problem. -/
def count (id : ProblemKind) (r : Reporter) : Nat := r.diagnostics.toList.countP (·.id == id)

theorem count_error (r : Reporter) (id other : ProblemKind) (span : Span)
    (arguments : List String) :
    (r.error other span arguments).count id = r.count id + if other = id then 1 else 0 := by
  unfold count error report Diagnostic.of
  simp [List.countP_append, List.countP_cons]

/-- What is not among the added errors is told as often as before. -/
theorem Adds.count_eq {id : ProblemKind} (h : Adds P r r') (hid : ∀ d, P d → d.id ≠ id) :
    r'.count id = r.count id := by
  induction h with
  | refl => rfl
  | @error _ other _ _ _ hd ih =>
      have hother : other ≠ id := hid _ hd
      rw [count_error, if_neg hother, Nat.add_zero, ih]

theorem Adds.maxErrors_eq (h : Adds P r r') : r'.maxErrors = r.maxErrors := by
  induction h with
  | refl => rfl
  | error _ _ ih => exact ih

theorem errorCount_le_error (r : Reporter) (id : ProblemKind) (span : Span)
    (arguments : List String) : r.errorCount ≤ (r.error id span arguments).errorCount := by
  unfold error report
  dsimp only
  split
  · exact Nat.le_succ _
  · exact Nat.le_refl _

theorem Adds.errorCount_le (h : Adds P r r') : r.errorCount ≤ r'.errorCount := by
  induction h with
  | refl => exact Nat.le_refl _
  | error _ _ ih => exact Nat.le_trans ih (errorCount_le_error ..)

/-- Every diagnostic is an old one, or as `P` says. -/
theorem Adds.mem (h : Adds P r r') {d : Diagnostic} (hd : d ∈ r'.diagnostics.toList) :
    d ∈ r.diagnostics.toList ∨ P d := by
  induction h with
  | refl => exact .inl hd
  | error _ hnew ih =>
      unfold Reporter.error Reporter.report at hd
      rw [Array.toList_push, List.mem_append, List.mem_singleton] at hd
      rcases hd with hd | rfl
      · exact ih hd
      · exact .inr hnew

/-- The diagnostics stay, and the new ones stand after them. -/
theorem Adds.isPrefix (h : Adds P r r') : r.diagnostics.toList <+: r'.diagnostics.toList := by
  induction h with
  | refl => exact List.prefix_rfl
  | error _ _ ih =>
      refine ih.trans ?_
      unfold Reporter.error Reporter.report
      rw [Array.toList_push]
      exact List.prefix_append ..

end Reporter

open Reporter (Adds)

/-- Whether a problem concerns the construct that an action builds. -/
def ProblemKind.concernsConstruct : ProblemKind → Bool
  | .insertToComplete | .deleteToken | .duplicateModifier | .voidVariable | .invalidExtraParameter
  | .pointcutSyntax | .perClauseSyntax | .declareSyntax => true
  | _ => false

/-- A diagnostic of a construct. -/
def Diagnostic.OfConstruct (d : Diagnostic) : Prop := d.id.concernsConstruct = true

namespace Work

open SegmentStack

variable {β γ : Type} {a : Work β} {f : β → Work γ}

/-- The reporter only gets more errors, each of which is as `P` says, and whether the lack of a
dialect was reported stays the same. -/
structure Adding (P : Diagnostic → Prop) (w w' : Workspace) : Prop where
  adds : Adds P w.reporter w'.reporter
  reported : w'.unavailableReported = w.unavailableReported

theorem Adding.refl {P : Diagnostic → Prop} (w : Workspace) : Adding P w w := ⟨.refl, rfl⟩

theorem Adding.trans {P : Diagnostic → Prop} (w w' w'' : Workspace) (h : Adding P w w')
    (h' : Adding P w' w'') : Adding P w w'' :=
  ⟨h.adds.trans h'.adds, h'.reported.trans h.reported⟩

/-- A step that reports problems of constructs only. -/
class Reports (a : Work β) : Prop where
  adds : Moves (Adding Diagnostic.OfConstruct) a

/-! ### Composing such steps -/

theorem reports_modify {change : Workspace → Workspace}
    (h : ∀ w, Adding Diagnostic.OfConstruct w (change w)) :
    Reports (modify change : Work Unit) := ⟨.modifies h⟩

theorem reports_bind (ha : Reports a) (hf : ∀ b, Reports (f b)) : Reports (a >>= f) :=
  ⟨ha.adds.bind Adding.trans fun b => (hf b).adds⟩

instance (b : β) : Reports (pure b : Work β) := ⟨.pure Adding.refl b⟩

instance [Reports a] [∀ b, Reports (f b)] : Reports (a >>= f) :=
  reports_bind inferInstance inferInstance

instance (g : β → γ) [Reports a] : Reports (g <$> a) := by
  rw [map_eq_pure_bind]
  infer_instance

instance [Reports a] : Reports (discard a) :=
  inferInstanceAs (Reports (Function.const _ () <$> a))

instance {c : Prop} [Decidable c] {b : Work β} [Reports a] [Reports b] :
    Reports (if c then a else b) := by
  split <;> infer_instance

instance {xs : List β} {f : β → Work Unit} [∀ x, Reports (f x)] : Reports (xs.forM f) := by
  induction xs with
  | nil => exact inferInstanceAs (Reports (pure ()))
  | cons x xs ih => exact reports_bind inferInstance fun _ => ih

/-! ### Operations on the stacks -/

section

variable (n : Node) (ns : List Node) (span : Span) (arguments : List String)
  (stack : StackName) (expected : NodeSort)

instance (op : StackM β) : Reports (onStacks op) where
  adds w := by
    unfold onStacks
    cases op w.values with
    | ok b values => exact .ok ⟨.refl, rfl⟩
    | error e values => exact .error ⟨.refl, rfl⟩

instance : Reports (pushNode n) := reports_modify fun _ => ⟨.refl, rfl⟩
instance : Reports (pushNodes ns) := reports_modify fun _ => ⟨.refl, rfl⟩
instance : Reports pushNoNodes := reports_modify fun _ => ⟨.refl, rfl⟩
instance (e : Expr) : Reports (pushExpr e) := reports_modify fun _ => ⟨.refl, rfl⟩
instance : Reports pushNoExprs := reports_modify fun _ => ⟨.refl, rfl⟩
instance (n : TypeNode) : Reports (pushTypeNode n) := reports_modify fun _ => ⟨.refl, rfl⟩
instance (t : TypeRef) : Reports (pushType t) := reports_modify fun _ => ⟨.refl, rfl⟩
instance : Reports pushNoTypes := reports_modify fun _ => ⟨.refl, rfl⟩
instance (n : Nat) : Reports (pushInt n) := by unfold pushInt; infer_instance
instance (s : Statement) : Reports (pushStatement s) := by unfold pushStatement; infer_instance
instance : Reports (wrongNode stack expected : Work β) := ⟨fun w => .error (.refl w)⟩
instance : Reports (noIdentifier : Work β) := ⟨fun w => .error (.refl w)⟩

instance (value : Option β) : Reports (expectNode stack expected value) := by
  unfold expectNode
  split <;> infer_instance

/-! ### Reporting -/

theorem reports_report {id : ProblemKind} (h : id.concernsConstruct = true) :
    Reports (report id span arguments) := reports_modify fun _ => ⟨.one h, rfl⟩

instance : Reports (report .insertToComplete span arguments) := reports_report span arguments rfl
instance : Reports (report .deleteToken span arguments) := reports_report span arguments rfl
instance : Reports (report .duplicateModifier span arguments) := reports_report span arguments rfl
instance : Reports (report .voidVariable span arguments) := reports_report span arguments rfl

theorem reports_withReporter {f : Reporter → β × Reporter}
    (h : ∀ r, Adds Diagnostic.OfConstruct r (f r).2) : Reports (withReporter f) :=
  ⟨fun w => .ok ⟨h w.reporter, rfl⟩⟩

/-! ### Taking -/

instance : Reports popNode := by unfold popNode; infer_instance
instance : Reports popNodes := by unfold popNodes; infer_instance
instance : Reports popOptionalNode := by unfold popOptionalNode; infer_instance
instance : Reports popExpr := by unfold popExpr; infer_instance
instance : Reports popExprs := by unfold popExprs; infer_instance
instance : Reports popOptionalExpr := by unfold popOptionalExpr; infer_instance
instance : Reports popIdentifier := by unfold popIdentifier; infer_instance
instance : Reports popInt := by unfold popInt; infer_instance
instance : Reports popType := by unfold popType; infer_instance
instance : Reports popTypes := by unfold popTypes; infer_instance
instance : Reports popTypeArguments := by unfold popTypeArguments; infer_instance
instance : Reports popModifiers := by unfold popModifiers; infer_instance
instance : Reports popParameter := by unfold popParameter; infer_instance
instance : Reports popParameters := by unfold popParameters; infer_instance
instance : Reports popDeclarator := by unfold popDeclarator; infer_instance
instance : Reports popDeclarators := by unfold popDeclarators; infer_instance
instance : Reports popStatement := by unfold popStatement; infer_instance
instance : Reports popStatements := by unfold popStatements; infer_instance
instance : Reports popBlock := by unfold popBlock; infer_instance
instance : Reports popFragment := by unfold popFragment; infer_instance
instance : Reports popFragments := by unfold popFragments; infer_instance
instance : Reports (replaceTop n) := by unfold replaceTop; infer_instance
instance : Reports (typeOnTop expected) := by unfold typeOnTop; infer_instance
instance : Reports (methodOnTop expected) := by unfold methodOnTop; infer_instance
instance (change : TypeDecl → TypeDecl) : Reports (updateType change) := by
  unfold updateType; infer_instance
instance (change : MethodDecl → MethodDecl) : Reports (updateMethod change) := by
  unfold updateMethod; infer_instance

instance : Reports popName := by
  unfold popName
  refine reports_bind inferInstance fun segments => ?_
  cases segments <;> infer_instance

end

section

variable (present : Bool) (c : Handle)

instance : Reports (popTypeParameters present) := by unfold popTypeParameters; infer_instance
instance : Reports (popModifiersIf present) := by unfold popModifiersIf; infer_instance
instance : Reports (popReceiver present c) := by unfold popReceiver; infer_instance
instance : Reports (popLabel present) := by unfold popLabel; infer_instance

end

/-! ### Actions of the base language -/

section

variable (dialect : Dialect) (c : Handle)

instance (flag : Modifiers) (start : Nat) : Reports (startModifiers flag start) := by
  unfold startModifiers; infer_instance
instance (type : TypeRef) (declarators : List Declarator) :
    Reports (reportVoid type declarators) := by unfold reportVoid; infer_instance

instance : Reports (compilationUnit c) := by
  unfold compilationUnit
  refine reports_bind inferInstance fun _ => reports_bind inferInstance fun types => ?_
  refine reports_bind inferInstance fun _ => reports_bind inferInstance fun imports => ?_
  refine reports_bind inferInstance fun n => ?_
  have hfinish : ∀ package, Reports (modify fun w =>
      { w with unit := some ⟨package, imports, types, c.whole⟩ } : Work Unit) :=
    fun _ => reports_modify fun _ => ⟨.refl, rfl⟩
  cases n <;> infer_instance

instance (kind : WildcardKind) : Reports (wildcard kind c) := by
  unfold wildcard
  cases kind <;> infer_instance

instance : Reports (callByName dialect c) := by
  unfold callByName
  refine reports_bind inferInstance fun arguments => reports_bind inferInstance fun segments => ?_
  cases segments.getLast? <;> infer_instance

/-- Actions of the base language report problems of constructs only. -/
theorem reports_baseAction (action : SemanticAction) : Reports (baseAction dialect c action) := by
  cases action <;> simp only [baseAction, packageDecl, importDecl, namedType,
    qualifiedGenericType, genericType, arrayType, typeParameter, concatModifiers, annotationMarker,
    annotationSingleMember, typeHeaderName, superclass, interfaces, classBody, fieldDecl,
    declaratorId, declaratorInitializer, methodHeaderName, constructorHeaderName, methodHeader,
    methodDecl, formalParameter, initializerBlock, blockStatement, localVariables,
    localVariablesStatement, expressionStatement, labeledStatement, ifStatement, whileStatement,
    doStatement, forStatement, forInitExpressions, forEachStatement, tryStatement, catchClause,
    assertStatement, parenthesized, allocation, fieldAccess, callOn, nameExpr, unary, binary,
    instanceOf, conditional, assignment] <;> infer_instance

/-! ### Actions of aspect constructs -/

variable (factory : Factory)

instance (run : Fragment) (t : TypeDecl) : Reports (withReporter (factory.setDominates run t)) := by
  refine reports_withReporter fun r => ?_
  unfold Factory.setDominates
  cases factory with
  | placeholder => exact .refl
  | aspects =>
      dsimp only
      split
      · exact .one rfl
      · exact .refl
      · split <;> exact .refl

instance (run : Fragment) (t : TypeDecl) : Reports (withReporter (factory.setPerClause run t)) := by
  refine reports_withReporter fun r => ?_
  unfold Factory.setPerClause
  cases factory with
  | placeholder => exact .refl
  | aspects =>
      dsimp only
      split
      · exact .one rfl
      · split <;> exact .refl

instance (run : Fragment) : Reports (withReporter (factory.designator run)) := by
  refine reports_withReporter fun r => ?_
  unfold Factory.designator
  cases factory with
  | placeholder => exact .refl
  | aspects =>
      dsimp only
      split
      · exact .refl
      · exact .one rfl

instance (extra : ExtraParameter) (m : MethodDecl) :
    Reports (withReporter (applyExtra factory extra m)) := by
  refine reports_withReporter fun r => ?_
  unfold applyExtra
  split
  · exact .one rfl
  · dsimp only
    split
    · exact .one rfl
    · split <;> exact .refl

instance (run : Fragment) (annotationUse : AnnotationUse) (sign : Char) :
    Reports (withReporter (factory.newAnnotationDeclare run annotationUse sign)) := by
  refine reports_withReporter fun r => ?_
  unfold Factory.newAnnotationDeclare
  cases factory with
  | placeholder => exact .refl
  | aspects =>
      dsimp only
      split
      · exact .refl
      · exact .one rfl

theorem adds_newDeclare {run : Fragment} {r r' : Reporter} {m : MethodDecl}
    (h : factory.newDeclare run r = .ok (m, r')) : Adds Diagnostic.OfConstruct r r' := by
  unfold Factory.newDeclare at h
  cases factory with
  | placeholder =>
      cases h
      exact .refl
  | aspects =>
      dsimp only at h
      split at h
      · cases h
        exact .refl
      · cases h
      · cases h
        exact .one rfl

instance (outer inner : WrittenModifiers) (span : Span) :
    Reports (joinModifiers outer inner span) := by unfold joinModifiers; infer_instance
instance (privileged : Bool) : Reports (popAspectModifiers privileged c) := by
  unfold popAspectModifiers; infer_instance
instance (keyword : Identifier) (returnType : TypeRef) (modifiers : WrittenModifiers)
    (advice : MethodDecl) : Reports (pushAdvice keyword returnType modifiers advice) := by
  unfold pushAdvice; infer_instance
instance (pattern : TargetForm) : Reports (reportTargetForm pattern c) := by
  unfold reportTargetForm
  cases pattern <;> infer_instance

instance (pattern : TargetForm) : Reports (interTypeFieldHeader factory pattern c) := by
  unfold interTypeFieldHeader
  cases pattern <;> infer_instance

instance (tokens : List Fragment) (throws : List TypeRef) (extra : Option ExtraParameter) :
    Reports (completeAdvice factory tokens throws extra c) := by
  unfold completeAdvice
  cases extra <;> infer_instance

instance (hasExtra : Bool) : Reports (adviceHeader factory hasExtra c) := by
  unfold adviceHeader
  refine reports_bind inferInstance fun tokens => reports_bind inferInstance fun throws => ?_
  dsimp only
  split
  · refine reports_bind inferInstance fun n => ?_
    cases n <;> infer_instance
  · infer_instance

instance : Reports (declareDecl factory c) := by
  unfold declareDecl
  refine reports_bind inferInstance fun body => reports_bind inferInstance fun header => ?_
  refine ⟨fun w => ?_⟩
  change Ends _ ((match factory.newDeclare _ w.reporter with
    | .error text => throw (.crash (.brokenText text))
    | .ok (m, reporter) => do
      set { w with reporter }
      pushNode _ : Work Unit) w)
  cases hdeclare : factory.newDeclare _ w.reporter with
  | error text => exact .error (.refl w)
  | ok result => exact .ok ⟨adds_newDeclare factory hdeclare, rfl⟩

instance : Reports (literalToken factory) := by
  unfold literalToken
  refine reports_bind inferInstance fun e => ?_
  cases e <;> infer_instance

/-- Once it has its factory, an action of an aspect construct reports problems of constructs only. -/
theorem exists_build (c : Handle) (action : AspectAction) : ∃ build : Factory → Work Unit,
    (∀ dialect, aspectAction dialect c action =
      factoryFor dialect action.constructWords c.whole >>= build) ∧
    ∀ factory, Reports (build factory) := by
  refine ⟨_, fun _ => rfl, fun factory => ?_⟩
  cases action <;> simp only [aspectHeaderName, headerRest, pointcutHeader, pointcutDecl,
    aroundHeaderName, adviceHeaderName, extraParameter, declareHeader, declareAnnotationHeader,
    annotationDeclare, interTypeFieldBody, interTypeFieldDecl, interTypeMethodHeaderName,
    interTypeConstructorHeaderName, interTypeClassHeaderName] <;> infer_instance

end

end Work

/-- A diagnostic that an action can report. -/
def Diagnostic.OfAction (d : Diagnostic) : Prop := d.OfConstruct ∨ d.id = .featureUnavailable

namespace Work

variable (dialect : Dialect) (c : Handle)

theorem adds_factoryFor (construct : String) (span : Span) :
    Moves (fun w w' => Adds Diagnostic.OfAction w.reporter w'.reporter)
      (factoryFor dialect construct span) := by
  rintro ⟨values, reporter, unit, reported⟩
  cases dialect with
  | enabled f => exact .ok .refl
  | disabled =>
      cases reported with
      | true => exact .ok .refl
      | false => exact .ok (.one (.inr rfl))

/-- **An action reports problems of constructs only**, and that there is no dialect for one. -/
theorem adds_act (action : SemanticAction) :
    Moves (fun w w' => Adds Diagnostic.OfAction w.reporter w'.reporter) (act dialect c action) := by
  have hmono : ∀ w w', Adding Diagnostic.OfConstruct w w' →
      Adds Diagnostic.OfAction w.reporter w'.reporter := fun w w' h => h.adds.mono fun _ => .inl
  cases action with
  | aspect action =>
      obtain ⟨build, hbind, hreports⟩ := exists_build c action
      change Moves _ (aspectAction dialect c action)
      rw [hbind]
      exact (adds_factoryFor dialect _ _).bind (fun _ _ _ => Adds.trans)
        fun factory => (hreports factory).adds.mono hmono
  | _ =>
      unfold act
      exact (reports_baseAction dialect c _).adds.mono hmono

end Work

end AspectLang
