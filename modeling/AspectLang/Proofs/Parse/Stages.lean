import AspectLang.Proofs.Parse.Frames
import AspectLang.Proofs.Parse.Lockstep
import AspectLang.Proofs.Parse.Phases

/-! # Declarations come as far as their symbols say

The nodes on the stack are of the kinds that the symbols leave.  A reduction works on the values of
its right side, with the declaration that it changes, and on nothing below them (`Work.act_onto`).
There an action keeps all declarations where they are, as those do that begin a type, or it ends
the one that is on top (`SemanticAction.keeps`, `SemanticAction.finishes`); which of the two a left
side asks for is a matter of the rule (`Language.rules_reachStages`).  So every step, and every run,
keeps the nodes in step with the symbols (`Machine.staged_run`). -/

namespace AspectLang

/-! ### What a step that succeeds has done -/

theorem SegmentStack.items_of_popSegment {α : Type} {s rest : SegmentStack α} {segment : List α}
    (h : popSegment s = .ok segment rest) : s.items = segment.reverse ++ rest.items := by
  unfold popSegment at h
  split at h
  · cases h
  · dsimp only at h
    split at h
    · cases h
    · cases h
      rw [List.reverse_reverse, List.take_append_drop]

namespace Work

variable {β : Type} {w w' : Workspace}

theorem get_bind (f : Workspace → Work β) (w : Workspace) : (get >>= f) w = f w w := rfl

theorem onNodes_ok {op : SegmentStack.Op Node β} {b : β} (h : onStacks (.onNodes op) w = .ok b w') :
    op w.values.nodes = .ok b w'.values.nodes := by
  unfold onStacks StackM.onNodes at h
  cases hop : op w.values.nodes with
  | error e s =>
      rw [hop] at h
      cases h
  | ok c s =>
      rw [hop] at h
      cases h
      rfl

theorem peek_ok {n : Node} (h : onStacks (.onNodes SegmentStack.peek) w = .ok n w') :
    w' = w ∧ n ∈ w.values.nodes.items := by
  unfold onStacks StackM.onNodes SegmentStack.peek at h
  cases hitems : w.values.nodes.items with
  | nil =>
      rw [hitems] at h
      cases h
  | cons top below =>
      rw [hitems] at h
      cases h
      exact ⟨rfl, List.mem_cons_self⟩

theorem expectNode_ok {stack : StackName} {expected : NodeSort} {value : Option β} {b : β}
    (h : expectNode stack expected value w = .ok b w') : w' = w ∧ value = some b := by
  cases value <;> cases h
  exact ⟨rfl, rfl⟩

theorem replaceTop_ok {n : Node} (h : replaceTop n w = .ok () w') :
    w'.values.nodes.items = n :: w.values.nodes.items.tail := by
  have hmodified := onNodes_ok h
  unfold SegmentStack.modifyTop at hmodified
  split at hmodified
  · cases hmodified
  · rename_i hitems
    obtain ⟨_, hnodes⟩ := EStateM.Result.ok.inj hmodified
    rw [← hnodes, hitems]
    rfl

theorem typeOnTop_ok {expected : NodeSort} {t : TypeDecl}
    (h : typeOnTop expected w = .ok t w') : w' = w ∧ .type t ∈ w.values.nodes.items := by
  obtain ⟨n, middle, hpeek, hexpect⟩ := exists_of_bind h
  obtain ⟨rfl, hn⟩ := peek_ok hpeek
  obtain ⟨rfl, htype⟩ := expectNode_ok hexpect
  cases n <;> cases htype
  exact ⟨rfl, hn⟩

end Work

/-! ### Steps that keep what is so of every node -/

namespace Work

variable {P : Node → Prop} {β γ : Type} {a : Work β} {f : β → Work γ}

/-- If every node is as `P` says, a step that succeeds keeps that. -/
class Keeps (P : Node → Prop) (a : Work β) : Prop where
  kept : ∀ w b w', a w = .ok b w' → (∀ n ∈ w.values.nodes.items, P n) →
    ∀ n ∈ w'.values.nodes.items, P n

theorem keeps_of_subset
    (h : ∀ w b w', a w = .ok b w' → w'.values.nodes.items ⊆ w.values.nodes.items) : Keeps P a :=
  ⟨fun w b w' hok hw n hn => hw n (h w b w' hok hn)⟩

theorem keeps_bind (ha : Keeps P a) (hf : ∀ b, Keeps P (f b)) : Keeps P (a >>= f) where
  kept w c w' hok hw := by
    obtain ⟨b, middle, hmiddle, hlast⟩ := exists_of_bind hok
    exact (hf b).kept middle c w' hlast (ha.kept w b middle hmiddle hw)

instance (b : β) : Keeps P (pure b : Work β) := keeps_of_subset fun w b w' hok => by
  cases hok
  exact List.Subset.refl _

instance [Keeps P a] [∀ b, Keeps P (f b)] : Keeps P (a >>= f) :=
  keeps_bind inferInstance inferInstance

instance {c : Prop} [Decidable c] {b : Work β} [Keeps P a] [Keeps P b] :
    Keeps P (if c then a else b) := by
  split <;> infer_instance

instance {xs : List β} {f : β → Work Unit} [∀ x, Keeps P (f x)] : Keeps P (xs.forM f) := by
  induction xs with
  | nil => exact inferInstanceAs (Keeps P (pure ()))
  | cons x xs ih => exact keeps_bind inferInstance fun _ => ih

/-! ### Taking and reporting -/

theorem keeps_onNodes {op : SegmentStack.Op Node β}
    (hop : ∀ s b s', op s = .ok b s' → s'.items ⊆ s.items) : Keeps P (onStacks (.onNodes op)) :=
  keeps_of_subset fun _ _ _ hok => hop _ _ _ (onNodes_ok hok)

instance : Keeps P (onStacks (.onNodes SegmentStack.pop)) := by
  refine keeps_onNodes fun s b s' hok => ?_
  unfold SegmentStack.pop at hok
  split at hok
  · cases hok
  · split at hok
    · split at hok
      · cases hok
      · rename_i hitems
        cases hok
        rw [hitems]
        exact List.subset_cons_self ..
    · cases hok

instance : Keeps P (onStacks (.onNodes SegmentStack.popSegment)) := by
  refine keeps_onNodes fun s b s' hok => ?_
  rw [SegmentStack.items_of_popSegment hok]
  exact List.subset_append_right ..

instance : Keeps P (onStacks (.onNodes SegmentStack.concat)) := by
  refine keeps_onNodes fun s b s' hok => ?_
  unfold SegmentStack.concat at hok
  split at hok <;> cases hok
  exact List.Subset.refl _

instance (op : SegmentStack.Op Expr β) : Keeps P (onStacks (.onExprs op)) := by
  refine keeps_of_subset fun w b w' hok => ?_
  unfold onStacks StackM.onExprs at hok
  cases hresult : op w.values.exprs <;> rw [hresult] at hok <;> cases hok
  exact List.Subset.refl _

instance (op : SegmentStack.Op Identifier β) : Keeps P (onStacks (.onIdentifiers op)) := by
  refine keeps_of_subset fun w b w' hok => ?_
  unfold onStacks StackM.onIdentifiers at hok
  cases hresult : op w.values.identifiers <;> rw [hresult] at hok <;> cases hok
  exact List.Subset.refl _

instance (op : SegmentStack.Op TypeNode β) : Keeps P (onStacks (.onTypes op)) := by
  refine keeps_of_subset fun w b w' hok => ?_
  unfold onStacks StackM.onTypes at hok
  cases hresult : op w.values.types <;> rw [hresult] at hok <;> cases hok
  exact List.Subset.refl _

instance : Keeps P popInt := by
  refine keeps_of_subset fun w b w' hok => ?_
  unfold popInt onStacks StackM.popInt at hok
  cases hints : w.values.ints <;> rw [hints] at hok <;> cases hok
  exact List.Subset.refl _

instance (stack : StackName) (expected : NodeSort) (value : Option β) :
    Keeps P (expectNode stack expected value) := by
  refine keeps_of_subset fun w b w' hok => ?_
  cases value <;> cases hok
  exact List.Subset.refl _

instance : Keeps P (noIdentifier : Work β) := keeps_of_subset fun _ _ _ hok => by cases hok

instance (id : ProblemKind) (span : Span) (arguments : List String) :
    Keeps P (report id span arguments) := keeps_of_subset fun w _ w' hok => by
  cases hok
  exact List.Subset.refl _

instance (f : Reporter → β × Reporter) : Keeps P (withReporter f) :=
  keeps_of_subset fun w _ w' hok => by
    cases hok
    exact List.Subset.refl _

instance : Keeps P pushNoNodes := keeps_of_subset fun w _ w' hok => by
  cases hok
  exact List.Subset.refl _

instance : Keeps P popExpr := by unfold popExpr; infer_instance
instance : Keeps P popIdentifier := by unfold popIdentifier; infer_instance
instance : Keeps P popType := by unfold popType; infer_instance
instance : Keeps P popTypes := by unfold popTypes; infer_instance
instance : Keeps P popModifiers := by unfold popModifiers popExprs; infer_instance
instance : Keeps P popBlock := by unfold popBlock popStatement popNode; infer_instance
instance : Keeps P popFragment := by unfold popFragment popNode; infer_instance
instance : Keeps P popFragments := by unfold popFragments popNodes; infer_instance
instance : Keeps P popDeclarators := by unfold popDeclarators popNodes; infer_instance
instance (present : Bool) : Keeps P (popTypeParameters present) := by
  unfold popTypeParameters; infer_instance
instance (privileged : Bool) (c : Handle) : Keeps P (popAspectModifiers privileged c) := by
  unfold popAspectModifiers joinModifiers; infer_instance
instance (type : TypeRef) (declarators : List Declarator) : Keeps P (reportVoid type declarators) := by
  unfold reportVoid; infer_instance
instance : Keeps P popName := by
  unfold popName
  refine keeps_bind inferInstance fun segments => ?_
  cases segments <;> infer_instance

/-! ### Adding and changing -/

theorem keeps_pushNode {n : Node} (hn : P n) : Keeps P (pushNode n) where
  kept w _ w' hok hw := by
    cases hok
    exact List.forall_mem_cons.mpr ⟨hn, hw⟩

theorem keeps_pushNodes {ns : List Node} (hns : ∀ n ∈ ns, P n) : Keeps P (pushNodes ns) where
  kept w _ w' hok hw n hn := by
    cases hok
    rcases List.mem_append.mp hn with hn | hn
    · exact hns n (List.mem_reverse.mp hn)
    · exact hw n hn

theorem keeps_replaceTop {n : Node} (hn : P n) : Keeps P (replaceTop n) where
  kept w _ w' hok hw := by
    rw [replaceTop_ok hok]
    exact List.forall_mem_cons.mpr ⟨hn, fun n hn => hw n (List.mem_of_mem_tail hn)⟩

/-- The type on top is as `P` says too. -/
theorem keeps_typeOnTop {expected : NodeSort} {f : TypeDecl → Work γ}
    (hf : ∀ t, P (.type t) → Keeps P (f t)) : Keeps P (typeOnTop expected >>= f) where
  kept w c w' hok hw := by
    obtain ⟨t, middle, htop, hlast⟩ := exists_of_bind hok
    obtain ⟨rfl, ht⟩ := typeOnTop_ok htop
    exact (hf t (hw _ ht)).kept _ c w' hlast hw

/-- What reads the reporter may change what it reads. -/
theorem keeps_withReporter {g : Reporter → β × Reporter}
    (hf : ∀ reporter, Keeps P (f (g reporter).1)) : Keeps P (withReporter g >>= f) where
  kept w c w' hok hw := (hf w.reporter).kept { w with reporter := (g w.reporter).2 } c w' hok hw

theorem keeps_updateType {change : TypeDecl → TypeDecl}
    (hchange : ∀ t, P (.type t) → P (.type (change t))) : Keeps P (updateType change) :=
  keeps_typeOnTop fun t ht => keeps_replaceTop (hchange t ht)

/-! ### Steps that end the declaration on top -/

/-- A step that succeeds leaves a node on top that is as `P` says. -/
def Tops (P : Node → Prop) (a : Work β) : Prop :=
  ∀ w b w', a w = .ok b w' → ∀ n ∈ w'.values.nodes.items.head?, P n

theorem tops_bind (hf : ∀ b, Tops P (f b)) : Tops P (a >>= f) := by
  intro w c w' hok
  obtain ⟨b, middle, _, hlast⟩ := exists_of_bind hok
  exact hf b middle c w' hlast

theorem tops_replaceTop {n : Node} (hn : P n) : Tops P (replaceTop n) := by
  intro w _ w' hok top htop
  rw [replaceTop_ok hok] at htop
  cases htop
  exact hn

theorem tops_updateType {change : TypeDecl → TypeDecl} (hchange : ∀ t, P (.type (change t))) :
    Tops P (updateType change) := tops_bind fun t => tops_replaceTop (hchange t)

theorem tops_updateMethod {change : MethodDecl → MethodDecl}
    (hchange : ∀ m, P (.method (change m))) : Tops P (updateMethod change) :=
  tops_bind fun m => tops_replaceTop (hchange m)

end Work

/-! ### Factories and stages -/

namespace Factory

variable (f : Factory) (t : TypeDecl)

theorem isOpen_newAspect : f.newAspect.isOpen = true := by
  cases f <;> rfl

theorem isOpen_newMemberClass : f.newMemberClass.isOpen = true := by
  cases f <;> rfl

theorem isOpen_setPrivileged (privileged : Bool) :
    (f.setPrivileged privileged t).isOpen = t.isOpen := by
  unfold setPrivileged
  split <;> rfl

theorem isOpen_setMemberClassTarget (onType : TypeRef) :
    (f.setMemberClassTarget onType t).isOpen = t.isOpen := by
  unfold setMemberClassTarget
  split <;> rfl

theorem isOpen_setDominates (run : Fragment) (reporter : Reporter) :
    (f.setDominates run t reporter).1.isOpen = t.isOpen := by
  unfold setDominates
  split
  · rfl
  · dsimp only
    split
    · rfl
    · rfl
    · split <;> rfl

theorem isOpen_setPerClause (run : Fragment) (reporter : Reporter) :
    (f.setPerClause run t reporter).1.isOpen = t.isOpen := by
  unfold setPerClause
  split
  · rfl
  · dsimp only
    split
    · rfl
    · split <;> rfl

end Factory

/-! ### Actions -/

/-- Whether an action keeps every declaration at a stage that has come there. -/
def SemanticAction.keeps : Stage → SemanticAction → Bool
  | _, .none | _, .emptyNodes | _, .concatNodes => true
  | .opened, .typeHeaderName .. | .opened, .superclass | .opened, .interfaces
  | .opened, .aspect (.aspectHeaderName ..) | .opened, .aspect .headerRest
  | .opened, .aspect .interTypeClassHeaderName => true
  | .finished, .fieldDecl | .finished, .initializerBlock | .finished, .aspect .declareDecl
  | .finished, .aspect (.annotationDeclare _) => true
  | _, _ => false

/-- Whether an action ends the declaration on top. -/
def SemanticAction.finishes : SemanticAction → Bool
  | .classBody | .methodDecl | .aspect (.pointcutDecl _) | .aspect .interTypeFieldDecl => true
  | _ => false

namespace Work

variable (dialect : Dialect) (c : Handle) {action : SemanticAction} {stage : Stage}

instance {P : Node → Prop} (construct : String) (span : Span) :
    Keeps P (factoryFor dialect construct span) := by
  unfold factoryFor
  cases dialect with
  | enabled f => infer_instance
  | disabled =>
      refine keeps_of_subset fun w b w' hok => ?_
      obtain ⟨values, reporter, unit, reported⟩ := w
      cases reported <;> cases hok <;> exact List.Subset.refl _

theorem keeps_typeHeaderName (kind : TypeKind) (typeParameters : Bool) :
    Keeps Stage.opened.Has (typeHeaderName kind typeParameters) := by
  refine keeps_bind inferInstance fun parameters => keeps_bind inferInstance fun name => ?_
  exact keeps_bind inferInstance fun modifiers => keeps_pushNode rfl

theorem keeps_superclass : Keeps Stage.opened.Has superclass :=
  keeps_bind inferInstance fun _ => keeps_updateType fun _ ht => ht

theorem keeps_interfaces : Keeps Stage.opened.Has interfaces := by
  refine keeps_bind inferInstance fun types => keeps_updateType fun t ht => ?_
  dsimp only
  split <;> exact ht

theorem keeps_aspectHeaderName (f : Factory) (privileged typeParameters : Bool) :
    Keeps Stage.opened.Has (aspectHeaderName f privileged typeParameters c) := by
  refine keeps_bind inferInstance fun parameters => keeps_bind inferInstance fun name => ?_
  refine keeps_bind inferInstance fun _ => keeps_bind inferInstance fun modifiers => ?_
  refine keeps_pushNode ?_
  change (f.setPrivileged privileged f.newAspect).isOpen = true
  rw [f.isOpen_setPrivileged, f.isOpen_newAspect]

theorem keeps_headerRest (f : Factory) : Keeps Stage.opened.Has (headerRest f c) := by
  have hclauses : ∀ run : Fragment, Keeps Stage.opened.Has (do
      let aspect ← typeOnTop .aspect
      let aspect ← withReporter (f.setDominates run aspect)
      let aspect ← withReporter (f.setPerClause run aspect)
      replaceTop (.type (reachTo run.span.stop aspect))) := by
    intro run
    refine keeps_typeOnTop fun aspect haspect => keeps_withReporter fun r => ?_
    refine keeps_withReporter fun r' => keeps_replaceTop ?_
    change (f.setPerClause run (f.setDominates run aspect r).1 r').1.isOpen = true
    rw [f.isOpen_setPerClause, f.isOpen_setDominates]
    exact haspect
  unfold headerRest
  infer_instance

theorem keeps_interTypeClassHeaderName (f : Factory) :
    Keeps Stage.opened.Has (interTypeClassHeaderName f) := by
  refine keeps_bind inferInstance fun name => keeps_bind inferInstance fun onType => ?_
  refine keeps_bind inferInstance fun modifiers => keeps_pushNode ?_
  change (f.setMemberClassTarget _ f.newMemberClass).isOpen = true
  rw [f.isOpen_setMemberClassTarget, f.isOpen_newMemberClass]

theorem keeps_fieldDecl : Keeps Stage.finished.Has (fieldDecl c) := by
  refine keeps_bind inferInstance fun declarators => keeps_bind inferInstance fun type => ?_
  refine keeps_bind inferInstance fun modifiers => keeps_bind inferInstance fun _ => ?_
  refine keeps_pushNodes fun n hn => ?_
  obtain ⟨d, _, rfl⟩ := List.mem_map.mp hn
  rfl

theorem keeps_initializerBlock : Keeps Stage.finished.Has initializerBlock := by
  refine keeps_bind inferInstance fun block => keeps_bind inferInstance fun modifiers => ?_
  exact keeps_pushNode rfl

theorem keeps_declareDecl (f : Factory) : Keeps Stage.finished.Has (declareDecl f c) := by
  refine keeps_bind inferInstance fun body => keeps_bind inferInstance fun header => ?_
  generalize headerSpans header 1 c = spans
  refine ⟨fun w _ w' hok hw => ?_⟩
  dsimp only at hok
  rw [get_bind] at hok
  generalize f.newDeclare _ w.reporter = declared at hok
  cases declared with
  | error text => cases hok
  | ok declared =>
      cases hok
      exact List.forall_mem_cons.mpr ⟨rfl, hw⟩

theorem keeps_annotationDeclare (f : Factory) (sign : Char) :
    Keeps Stage.finished.Has (annotationDeclare f sign c) := by
  refine keeps_bind inferInstance fun _ => keeps_bind inferInstance fun annotationUse => ?_
  refine keeps_bind inferInstance fun pattern => keeps_bind inferInstance fun header => ?_
  exact keeps_bind inferInstance fun m => keeps_pushNode rfl

theorem keeps_act (h : action.keeps stage = true) : Keeps stage.Has (act dialect c action) := by
  unfold SemanticAction.keeps at h
  split at h
  · exact inferInstanceAs (Keeps stage.Has (pure ()))
  · exact inferInstanceAs (Keeps stage.Has pushNoNodes)
  · exact inferInstanceAs (Keeps stage.Has (onStacks (.onNodes SegmentStack.concat)))
  · exact keeps_typeHeaderName _ _
  · exact keeps_superclass
  · exact keeps_interfaces
  · exact keeps_bind inferInstance fun f => keeps_aspectHeaderName c f _ _
  · exact keeps_bind inferInstance fun f => keeps_headerRest c f
  · exact keeps_bind inferInstance fun f => keeps_interTypeClassHeaderName f
  · exact keeps_fieldDecl c
  · exact keeps_initializerBlock
  · exact keeps_bind inferInstance fun f => keeps_declareDecl c f
  · exact keeps_bind inferInstance fun f => keeps_annotationDeclare c f _
  · cases h

theorem tops_act (h : action.finishes = true) : Tops Stage.finished.Has (act dialect c action) := by
  unfold SemanticAction.finishes at h
  split at h
  · exact tops_bind fun _ => tops_bind fun _ => tops_updateType fun _ => rfl
  · exact tops_bind fun _ => tops_updateMethod fun _ => rfl
  · rename_i hasDesignator
    refine tops_bind fun f => ?_
    have hend : ∀ designator, Tops Stage.finished.Has (do
        let parameters ← popParameters
        updateMethod fun m =>
          let m := { m with parameters }
          let m := match designator with
            | some d => f.setDesignator d m
            | none => m
          { m with
            bodyEnd := some c.lastSpan.stop
            extent.declaration.stop := c.lastSpan.stop }) :=
      fun _ => tops_bind fun _ => tops_updateMethod fun _ => rfl
    cases hasDesignator with
    | true => exact tops_bind fun _ => tops_bind hend
    | false => exact hend none
  · exact tops_bind fun _ => tops_updateMethod fun _ => rfl
  · cases h

end Work

/-! ### Rules -/

/-- Whether the action of a rule brings what the left side leaves to its stage: there is nothing to
do, or every declaration is there and is kept, or the only one is ended. -/
def Rule.reachesStage (r : Rule) : Bool :=
  r.lhs.stage = .any || r.output.nodes.all (fun s => !s.role.mayBeOpen) ||
    (r.action.keeps r.lhs.stage && (r.kindsUpTo r.rhs.length).all fun s =>
      !s.role.role.mayBeOpen || s.role.stage = r.lhs.stage) ||
    (r.action.finishes && r.lhs.stage = .finished && r.output.nodes.map Shape.count = [.one])

theorem Language.rules_reachStages : ∀ r ∈ rules, r.reachesStage = true := by
  decide +kernel

/-- A nonterminal brings all that it leaves or changes to its stage. -/
theorem Nonterminal.put_kindContext (x : Nonterminal) :
    (RuleSymbol.n x).put x.kindContext =
      (x.profile.nodes ++ x.context).map (Shape.staged x.stage) := by
  simp only [RuleSymbol.put, kinds, kindContext, List.map_append]
  rcases x.context_cases with hcontext | ⟨_, k, hcontext⟩ <;> rw [hcontext] <;> rfl

namespace Rule

variable {r : Rule} {nodes nodes' : SegmentStack Node} {w w' : Workspace}

/-- Without their stages, the kinds in a rule are the nodes that its symbols leave. -/
theorem unstaged_kindsUpTo (r : Rule) :
    (r.kindsUpTo r.rhs.length).map Shape.unstaged =
      (r.base.followed (r.rhs.map RuleSymbol.profile)).nodes := by
  have hput : ∀ (symbols : List RuleSymbol) (ks : List (Shape NodeKind)) (base : Profile),
      ks.map Shape.unstaged = base.nodes →
        (symbols.foldl RuleSymbol.put ks).map Shape.unstaged =
          (base.followed (symbols.map RuleSymbol.profile)).nodes := by
    intro symbols
    induction symbols with
    | nil => exact fun _ _ h => h
    | cons s symbols ih =>
        intro ks base h
        refine ih (s.put ks) (s.profile.atop base) ?_
        rw [s.unstaged_put, h]
        rfl
  unfold kindsUpTo
  rw [List.take_length]
  refine hput r.rhs _ r.base ?_
  unfold Nonterminal.kindContext base
  rw [List.map_map]
  exact List.map_id _

/-- Declarations that a rule has in progress are at the stage of its left side. -/
theorem has_stage (h : nodes.Fits NodeKind.Has (r.kindsUpTo r.rhs.length))
    (hkinds : (r.kindsUpTo r.rhs.length).all fun s =>
      !s.role.role.mayBeOpen || s.role.stage = r.lhs.stage) :
    ∀ n ∈ nodes.items, r.lhs.stage.Has n := by
  intro n hn
  obtain ⟨shape, hshape, hhas⟩ := h.exists_shape hn
  rcases Bool.or_eq_true_iff.mp (List.all_eq_true.mp hkinds shape hshape) with hnever | hstage
  · exact Stage.has_of_role _ hhas.role (by simpa using hnever)
  · rw [← of_decide_eq_true hstage]
    exact hhas.stage

/-- The action of a rule brings declarations to the stage of the left side. -/
theorem act_reaches {dialect : Dialect} {c : Handle} (hr : r ∈ Language.rules)
    (h : w.values.nodes.Fits NodeKind.Has (r.kindsUpTo r.rhs.length))
    (hact : Work.act dialect c r.action w = .ok () w')
    (h' : w'.values.nodes.Fits (NodeRole.Has False) r.output.nodes) :
    ∀ n ∈ w'.values.nodes.items, r.lhs.stage.Has n := by
  have hreaches := Language.rules_reachStages r hr
  unfold reachesStage at hreaches
  simp only [Bool.or_eq_true, Bool.and_eq_true, decide_eq_true_eq] at hreaches
  rcases hreaches with ((hany | hnever) | ⟨hkeeps, hkinds⟩) | ⟨⟨hfinishes, hstage⟩, hone⟩
  · intro n _
    rw [hany]
    trivial
  · intro n hn
    obtain ⟨shape, hshape, hhas⟩ := h'.exists_shape hn
    exact Stage.has_of_role _ hhas (by simpa using List.all_eq_true.mp hnever shape hshape)
  · exact (Work.keeps_act dialect c hkeeps).kept w () w' hact (has_stage h hkinds)
  · intro n hn
    obtain ⟨⟨k, count⟩, hnodes, rfl⟩ := List.map_eq_singleton_iff.mp hone
    rw [hnodes] at h'
    obtain ⟨top, htop⟩ := h'.eq_singleton
    have htops := Work.tops_act dialect c hfinishes w () w' hact n
    rw [htop] at hn htops
    obtain rfl := List.mem_singleton.mp hn
    rw [hstage]
    exact htops rfl

/-- The action of a rule works on what its right side leaves, with the declaration that it changes;
the nodes below stay as they are. -/
theorem act_cut {Has : NodeKind → Node → Prop} {dialect : Dialect} {c : Handle} {frame : Profile}
    {rest : List (Shape NodeKind)} (hHas : ∀ k n, Has k n → k.Has n) (hr : r ∈ Language.rules)
    (harity : c.arity = r.rhs.length)
    (hfits : w.Fits False (frame.followed (r.rhs.map RuleSymbol.profile)))
    (hkinds : w.values.nodes.Fits Has (r.kindsUpTo r.rhs.length ++ rest))
    (hact : Work.act dialect c r.action w = .ok () w') :
    ∃ (lower upper : Workspace) (below : SegmentStack Node),
      w = lower.onto below ∧ w' = upper.onto below ∧
        lower.values.nodes.Fits Has (r.kindsUpTo r.rhs.length) ∧ below.Fits Has rest ∧
          Work.act dialect c r.action lower = .ok () upper ∧
            upper.values.nodes.Fits (NodeRole.Has False) r.output.nodes := by
  obtain ⟨top, below, hnodes, htop, hbelow⟩ := hkinds.cut
  have honto : w = Workspace.onto { w with values.nodes := top } below := by
    unfold Workspace.onto
    dsimp only
    rw [← hnodes]
  generalize hframe : ({ frame with nodes := r.lhs.context } : Profile) = lower
  have hlower : Workspace.Fits False { w with values.nodes := top }
      (lower.followed (r.rhs.map RuleSymbol.profile)) := by
    subst hframe
    rw [Profile.followed_eq_atop] at hfits ⊢
    refine ⟨?_, hfits.exprs, hfits.identifiers, hfits.types, hfits.ints, hfits.unit⟩
    have hroles := htop.recast (fun _ => rfl) (g := Shape.unstaged)
      fun _ _ _ hhas => (hHas _ _ hhas).role
    rw [r.unstaged_kindsUpTo, Profile.followed_eq_atop] at hroles
    exact hroles
  rw [honto] at hact
  obtain ⟨upper, hupper, rfl, hgives⟩ :=
    Work.act_onto dialect hr harity (by rw [← hframe]) hlower hact
  subst hframe
  exact ⟨_, upper, below, honto, rfl, htop, hbelow, hupper, hgives.nodes⟩

end Rule

/-! ### Machines -/

namespace Machine

variable {p : ParserSetup} {m m' : Machine}

/-- The nodes are of the kinds that the symbols leave that the states spell. -/
def Staged (m : Machine) : Prop :=
  ∃ symbols, Language.grammar.Spells m.states symbols ∧
    m.work.values.nodes.Fits NodeKind.Has (stackKinds symbols)

/-- Then the nodes are in order. -/
theorem Staged.exists_along (h : m.Staged) :
    ∃ φ, Phase.package.along m.work.values.nodes.toList = some φ := by
  obtain ⟨symbols, hspells, hfits⟩ := h
  obtain ⟨φ, hφ⟩ := exists_phase hspells
  obtain ⟨ψ, hψ, _⟩ := hfits.exists_along hφ
  exact ⟨ψ, hψ⟩

/-- The nodes are as `Has` says of the kinds that the symbols leave that the states spell. -/
def Stands (Has : NodeKind → Node → Prop) (m : Machine) : Prop :=
  ∃ symbols, Language.grammar.Spells m.states symbols ∧
    m.work.values.nodes.Fits Has (stackKinds symbols)

theorem nodes_afterShift (t : Token) (rest : List Token) (target : Nat) :
    (m.afterShift p t rest target).work.values.nodes = m.work.values.nodes := by
  change (pushValue t m.work.values).nodes = m.work.values.nodes
  unfold pushValue
  split
  · rfl
  · split <;> rfl

theorem stands_afterShift {Has : NodeKind → Node → Prop} {state target : Nat} {below : List Nat}
    {t : Token} {rest : List Token} (h : m.Stands Has) (hstates : m.states = state :: below)
    (haction : Language.tables.action state t.kind = .shift target) :
    (m.afterShift p t rest target).Stands Has := by
  obtain ⟨symbols, hspells, hfits⟩ := h
  rw [hstates] at hspells
  have hshift := hspells.shift Language.wellFormed_grammar Language.startIsolated_grammar haction
  rw [← hstates] at hshift
  refine ⟨.terminal t.kind :: symbols, hshift, ?_⟩
  rw [nodes_afterShift]
  exact hfits

/-- How a reduction by a rule changes the nodes: what its right side left, with the declaration that
it changes, is replaced, and the nodes below stay as they are. -/
structure Replaces (Has : NodeKind → Node → Prop) (dialect : Dialect) (m : Machine) (r : Rule)
    (m' : Machine) (lower upper : Workspace) (below : SegmentStack Node) : Prop where
  mem : r ∈ Language.rules
  before : m.work.values.nodes = lower.values.nodes.onto below
  after : m'.work.values.nodes = upper.values.nodes.onto below
  fits : lower.values.nodes.Fits Has (r.kindsUpTo r.rhs.length)
  acts : ∃ c, Work.act dialect c r.action lower = .ok () upper
  roles : upper.values.nodes.Fits (NodeRole.Has False) r.output.nodes
  spells : ∃ symbols rest, Language.grammar.Spells m'.states symbols ∧ below.Fits Has rest ∧
    stackKinds symbols = (RuleSymbol.n r.lhs).put r.lhs.kindContext ++ rest

theorem replaces_of_reduce {Has : NodeKind → Node → Prop} {dialect : Dialect} {lookahead : Span}
    {state production : Nat} {below : List Nat} {kind : TokenKind} {symbols : List Symbol}
    (hHas : ∀ k n, Has k n → k.Has n) (hspells : Language.grammar.Spells m.states symbols)
    (hkinds : m.work.values.nodes.Fits Has (stackKinds symbols)) (hbalanced : m.Balanced False)
    (hstates : m.states = state :: below)
    (haction : Language.tables.action state kind = .reduce production)
    (hreduce : reduce dialect production lookahead m = .ok () m') :
    ∃ r lower upper below, Language.ruleArray[production]? = some r ∧
      Replaces Has dialect m r m' lower upper below := by
  obtain ⟨symbols', hspells', hspans, hfits⟩ := hbalanced
  obtain rfl := hspells.unique Language.wellFormed_grammar hspells'
  obtain ⟨rule, origin, rest, before, target, hrule, hdrop, rfl, hgoto, hprogress, hafter⟩ :=
    exists_rule_of Language.traced_inProgress hspells hstates haction
  have hr := Language.mem_rules hrule
  obtain ⟨_, rfl, kinds, hbefore, φ, hφ, _⟩ := hprogress
  have hupTo := Rule.stackKinds_upTo hr hφ hbefore (Nat.le_refl _)
  rw [List.take_length] at hupTo
  rw [hupTo] at hkinds
  rw [reduce_eq hrule hdrop hgoto] at hreduce
  split at hreduce
  · cases hreduce
  · rename_i u w hact
    cases hreduce
    obtain ⟨lower, upper, kept, hlower, rfl, hfitsLower, hkept, hupper, hroles⟩ :=
      Rule.act_cut hHas hr (arity_handle lookahead hspans hdrop)
        (fits_popped _ production hfits) hkinds hact
    refine ⟨rule, lower, upper, kept, hrule, hr, ?_, rfl, hfitsLower, ⟨_, hupper⟩, hroles,
      _, kinds, hafter, hkept, ?_⟩
    · exact congrArg (fun w => w.values.nodes) hlower
    · have hnamed : (Symbol.nonterminal rule.lhs.index).named = .n rule.lhs :=
        (RuleSymbol.n rule.lhs).named_symbol
      rw [stackKinds, hnamed, hbefore]
      exact RuleSymbol.put_append
        (fun x hx => RuleSymbol.n.inj hx ▸ Nonterminal.kindContext_ne_nil) kinds

/-- A reduction turns nodes of the kinds of its right side into nodes of the kinds of its left
side. -/
theorem staged_reduce {dialect : Dialect} {lookahead : Span} {state production : Nat}
    {below : List Nat} {kind : TokenKind} (h : m.Staged) (hbalanced : m.Balanced False)
    (hstates : m.states = state :: below)
    (haction : Language.tables.action state kind = .reduce production)
    (hreduce : reduce dialect production lookahead m = .ok () m') : m'.Staged := by
  obtain ⟨symbols, hspells, hkinds⟩ := h
  obtain ⟨r, lower, upper, kept, _, hreplaces⟩ :=
    replaces_of_reduce (fun _ _ h => h) hspells hkinds hbalanced hstates haction hreduce
  obtain ⟨c, hact⟩ := hreplaces.acts
  obtain ⟨symbols', rest, hafter, hkept, hkinds'⟩ := hreplaces.spells
  refine ⟨symbols', hafter, ?_⟩
  rw [hkinds', hreplaces.after, r.lhs.put_kindContext]
  have hstage := Rule.act_reaches hreplaces.mem hreplaces.fits hact hreplaces.roles
  refine SegmentStack.Fits.onto ?_ hkept
  exact hreplaces.roles.recast (fun _ => rfl) fun _ n hn hhas => ⟨hhas, hstage n hn⟩

theorem stands_recover {Has : NodeKind → Node → Prop} {t : Token} (h : m.Stands Has) :
    (recover p t m).2.Stands Has := by
  obtain ⟨symbols, hspells, hfits⟩ := h
  have hkeeps := keeps_recover p t m
  rw [← hkeeps.states] at hspells
  rw [← hkeeps.values] at hfits
  exact ⟨symbols, hspells, hfits⟩

/-- What reductions keep of the nodes is kept by every step. -/
theorem stands_step {Has : NodeKind → Node → Prop} {progress : Progress}
    (hreduces : ∀ (m' : Machine) (lookahead : Span) (state production : Nat) (below : List Nat)
      (kind : TokenKind), m.states = state :: below →
        Language.tables.action state kind = .reduce production →
          reduce p.dialect production lookahead m = .ok () m' → m'.Stands Has)
    (h : m.Stands Has) (hstep : step p m = .ok progress m') : m'.Stands Has := by
  obtain ⟨symbols, hspells, hfits⟩ := id h
  obtain ⟨state, below, hstates⟩ := List.exists_cons_of_ne_nil hspells.ne_nil
  cases hrest : m.rest with
  | nil =>
      rw [step_of_no_tokens hstates hrest] at hstep
      cases hstep
  | cons t rest =>
      cases stepped_of_step hstates hrest hstep with
      | shift haction => exact stands_afterShift h hstates haction
      | reduce haction hreduce => exact hreduces _ _ _ _ _ _ hstates haction hreduce
      | accept => exact h
      | split => exact ⟨symbols, hspells, hfits⟩
      | repair => exact stands_recover h

/-- **A step keeps the nodes in step with the symbols.** -/
theorem staged_step {progress : Progress} (h : m.Staged) (hbalanced : m.Balanced False)
    (hstep : step p m = .ok progress m') : m'.Staged :=
  stands_step (fun _ _ _ _ _ _ hstates haction hreduce =>
    staged_reduce h hbalanced hstates haction hreduce) h hstep

/-- **A run keeps the nodes in step with the symbols.** -/
theorem staged_run {gas bound : Nat} {progress : Progress} (h : m.Staged)
    (hleads : Leads .nothing .running m) (hrun : run p bound gas m = .ok progress m') : m'.Staged :=
  run_keeps (fun _ _ _ h hbalanced hstep => staged_step h hbalanced hstep) h hleads hrun

/-- The reductions that only waited for a token keep it too. -/
theorem staged_settle {dialect : Dialect} {offset gas : Nat} (h : m.Staged)
    (hbalanced : m.Balanced False) (hsettle : settle dialect offset gas m = .ok () m') :
    m'.Staged :=
  settle_keeps (fun _ _ _ _ _ h hbalanced => staged_reduce h hbalanced) h hbalanced hsettle

end Machine

theorem Parser.staged_start (p : Parser) (stream : TokenStream) : (p.start stream).Staged :=
  ⟨[], .start, .empty⟩

end AspectLang
