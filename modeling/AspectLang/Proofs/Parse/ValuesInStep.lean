import AspectLang.Proofs.Parse.Lockstep
import AspectLang.Proofs.Parse.ProceedMarks

/-! # The values of two runs

One run builds without a dialect, the other with a factory `f`.  The values of the second are
those of the first with the calls of `proceed` marked as `f` marks them, and `f` lets every node
be repaired (`Workspace.Mirrors`).  Each way of adding and taking values keeps that, and gives
values that differ in their marks only.  What the runs have reported is related by a relation `L`
that has to be kept when both report the same error. -/

namespace AspectLang

/-! ### Stacks of segments -/

namespace SegmentStack

variable {α : Type}

/-- The stack with each item changed. -/
def map (g : α → α) (s : SegmentStack α) : SegmentStack α := ⟨s.items.map g, s.lengths⟩

/-- One stack is the other with each item changed, and the items are as `P` says. -/
structure Mapped (g : α → α) (P : α → Prop) (s t : SegmentStack α) : Prop where
  eq : t = s.map g
  holds : ∀ a ∈ s.items, P a

/-- One item is the other one changed, and it is as `P` says. -/
def Image (g : α → α) (P : α → Prop) (a b : α) : Prop := b = g a ∧ P a

/-- One segment is the other with each item changed. -/
def ImageList (g : α → α) (P : α → Prop) (as bs : List α) : Prop :=
  bs = as.map g ∧ ∀ a ∈ as, P a

variable {g : α → α} {P : α → Prop} {s t : SegmentStack α}

theorem Mapped.pushSegment {as : List α} (h : Mapped g P s t) (has : ∀ a ∈ as, P a) :
    Mapped g P (s.pushSegment as) (t.pushSegment (as.map g)) := by
  obtain ⟨rfl, hs⟩ := h
  refine ⟨?_, fun a ha => ?_⟩
  · simp [SegmentStack.pushSegment, map]
  · rcases List.mem_append.mp ha with ha | ha
    · exact has a (List.mem_reverse.mp ha)
    · exact hs a ha

theorem inStep_pop : InStep (Mapped g P) (Image g P) (pop : Op α α) pop := by
  rintro ⟨items, lengths⟩ _ ⟨rfl, hs⟩
  unfold pop map
  cases lengths with
  | nil => exact .error ⟨rfl, hs⟩
  | cons n lengths =>
      dsimp only
      split
      · cases items with
        | nil => exact .error ⟨rfl, hs⟩
        | cons a items =>
            obtain ⟨ha, hs⟩ := List.forall_mem_cons.mp hs
            exact .ok ⟨rfl, ha⟩ ⟨rfl, hs⟩
      · exact .error ⟨rfl, hs⟩

theorem inStep_popSegment :
    InStep (Mapped g P) (ImageList g P) (popSegment : Op α (List α)) popSegment := by
  rintro ⟨items, lengths⟩ _ ⟨rfl, hs⟩
  unfold popSegment map
  cases lengths with
  | nil => exact .error ⟨rfl, hs⟩
  | cons n lengths =>
      dsimp only
      rw [← List.map_take, List.length_map, ← List.map_drop, ← List.map_reverse]
      split
      · exact .error ⟨rfl, hs⟩
      · refine .ok ⟨rfl, fun a ha => ?_⟩ ⟨rfl, fun a ha => ?_⟩
        · exact hs a (List.mem_of_mem_take (List.mem_reverse.mp ha))
        · exact hs a (List.mem_of_mem_drop ha)

theorem inStep_popOptional :
    InStep (Mapped g P) (fun a b => b = a.map g ∧ ∀ x ∈ a, P x) (popOptional : Op α (Option α))
      popOptional := by
  refine .bind inStep_popSegment ?_
  rintro as _ ⟨rfl, has⟩
  match as, has with
  | [], _ => exact .pure ⟨rfl, by simp⟩
  | [a], has => exact .pure ⟨rfl, by simpa using has⟩
  | a :: b :: more, _ =>
      simp only [List.map_cons, List.length_cons, List.length_map]
      exact .throw _

theorem inStep_concat : InStep (Mapped g P) Eq (concat : Op α Unit) concat := by
  rintro ⟨items, lengths⟩ _ ⟨rfl, hs⟩
  unfold concat map
  match lengths with
  | [] => exact .error ⟨rfl, hs⟩
  | [_] => exact .error ⟨rfl, hs⟩
  | top :: below :: rest => exact .ok rfl ⟨rfl, hs⟩

theorem inStep_peek : InStep (Mapped g P) (Image g P) (peek : Op α α) peek := by
  rintro ⟨items, lengths⟩ _ ⟨rfl, hs⟩
  unfold peek map
  cases items with
  | nil => exact .error ⟨rfl, hs⟩
  | cons a items => exact .ok ⟨rfl, (List.forall_mem_cons.mp hs).1⟩ ⟨rfl, hs⟩

theorem inStep_replaceTop {b : α} (hb : P b) :
    InStep (Mapped g P) Eq (modifyTop fun _ => b) (modifyTop fun _ => g b) := by
  rintro ⟨items, lengths⟩ _ ⟨rfl, hs⟩
  unfold modifyTop map
  cases items with
  | nil => exact .error ⟨rfl, hs⟩
  | cons a items =>
      exact .ok rfl ⟨rfl, List.forall_mem_cons.mpr ⟨hb, (List.forall_mem_cons.mp hs).2⟩⟩

end SegmentStack

/-! ### Two workspaces -/

/-- What a run has reported, and whether the lack of a dialect is among it. -/
def Workspace.log (w : Workspace) : Reporter × Bool := (w.reporter, w.unavailableReported)

/-- A relation between two logs is kept when both get the same error. -/
def KeptByErrors (L : Reporter × Bool → Reporter × Bool → Prop) : Prop :=
  ∀ l l' id span arguments, L l l' →
    L (l.1.error id span arguments, l.2) (l'.1.error id span arguments, l'.2)

/-- The stacks with the calls of `proceed` on them marked. -/
def ValueStacks.markProceeds (f : Factory) (s : ValueStacks) : ValueStacks :=
  { s with
    nodes := s.nodes.map (Node.markProceeds f)
    exprs := s.exprs.map (Expr.markProceeds f) }

/-- The second workspace holds what the first does, with the calls of `proceed` marked; no node
forbids a repair, and the logs are related. -/
structure Workspace.Mirrors (f : Factory) (L : Reporter × Bool → Reporter × Bool → Prop)
    (w w' : Workspace) : Prop where
  values : w'.values = w.values.markProceeds f
  unit : w'.unit = w.unit.map (CompilationUnit.markProceeds f)
  repairable : ∀ n ∈ w.values.nodes.items, f.allowsRepair n = true
  log : L w.log w'.log

namespace Work

open SegmentStack Workspace

variable {f : Factory} {L : Reporter × Bool → Reporter × Bool → Prop} {α β γ : Type}
  {Q : α → β → Prop}

/-! ### Operations on the stacks -/

theorem inStep_onNodes {x : Op Node α} {y : Op Node β}
    (h : InStep (Mapped (Node.markProceeds f) (f.allowsRepair · = true)) Q x y) :
    InStep (Mirrors f L) Q (onStacks (.onNodes x)) (onStacks (.onNodes y)) := by
  rintro w w' ⟨hvalues, hunit, hrepairable, hlog⟩
  have hop := h w.values.nodes w'.values.nodes ⟨by rw [hvalues]; rfl, hrepairable⟩
  unfold onStacks StackM.onNodes
  generalize x w.values.nodes = r, y w'.values.nodes = r' at hop
  cases hop with
  | ok hQ hs => exact .ok hQ ⟨by rw [hvalues, hs.eq]; rfl, hunit, hs.holds, hlog⟩
  | error hs =>
      rw [show w'.values.production = w.values.production by rw [hvalues]; rfl]
      exact .error ⟨by rw [hvalues, hs.eq]; rfl, hunit, hs.holds, hlog⟩

theorem inStep_onExprs {x : Op Expr α} {y : Op Expr β}
    (h : InStep (Mapped (Expr.markProceeds f) fun _ => True) Q x y) :
    InStep (Mirrors f L) Q (onStacks (.onExprs x)) (onStacks (.onExprs y)) := by
  rintro w w' ⟨hvalues, hunit, hrepairable, hlog⟩
  have hop := h w.values.exprs w'.values.exprs ⟨by rw [hvalues]; rfl, fun _ _ => trivial⟩
  unfold onStacks StackM.onExprs
  generalize x w.values.exprs = r, y w'.values.exprs = r' at hop
  cases hop with
  | ok hQ hs => exact .ok hQ ⟨by rw [hvalues, hs.eq]; rfl, hunit, hrepairable, hlog⟩
  | error hs =>
      rw [show w'.values.production = w.values.production by rw [hvalues]; rfl]
      exact .error ⟨by rw [hvalues, hs.eq]; rfl, hunit, hrepairable, hlog⟩

theorem inStep_onIdentifiers (x : Op Identifier α) :
    InStep (Mirrors f L) Eq (onStacks (.onIdentifiers x)) (onStacks (.onIdentifiers x)) := by
  rintro w w' ⟨hvalues, hunit, hrepairable, hlog⟩
  have hsame : w'.values.identifiers = w.values.identifiers := by
    rw [hvalues]
    rfl
  unfold onStacks StackM.onIdentifiers
  rw [hsame]
  cases x w.values.identifiers with
  | ok a s => exact .ok rfl ⟨by rw [hvalues]; rfl, hunit, hrepairable, hlog⟩
  | error e s =>
      rw [show w'.values.production = w.values.production by rw [hvalues]; rfl]
      exact .error ⟨by rw [hvalues]; rfl, hunit, hrepairable, hlog⟩

theorem inStep_onTypes (x : Op TypeNode α) :
    InStep (Mirrors f L) Eq (onStacks (.onTypes x)) (onStacks (.onTypes x)) := by
  rintro w w' ⟨hvalues, hunit, hrepairable, hlog⟩
  have hsame : w'.values.types = w.values.types := by
    rw [hvalues]
    rfl
  unfold onStacks StackM.onTypes
  rw [hsame]
  cases x w.values.types with
  | ok a s => exact .ok rfl ⟨by rw [hvalues]; rfl, hunit, hrepairable, hlog⟩
  | error e s =>
      rw [show w'.values.production = w.values.production by rw [hvalues]; rfl]
      exact .error ⟨by rw [hvalues]; rfl, hunit, hrepairable, hlog⟩

/-! ### Adding -/

/-- Changes of the stacks that commute with marking, and add no node that forbids a repair. -/
theorem inStep_modifyValues {g k : ValueStacks → ValueStacks}
    (hmark : ∀ s, k (s.markProceeds f) = (g s).markProceeds f)
    (hnodes : ∀ s, (∀ n ∈ s.nodes.items, f.allowsRepair n = true) →
      ∀ n ∈ (g s).nodes.items, f.allowsRepair n = true) :
    InStep (Mirrors f L) Eq (modify fun w => { w with values := g w.values } : Work Unit)
      (modify fun w => { w with values := k w.values } : Work Unit) :=
  .modifies fun w _ h =>
    ⟨(congrArg k h.values).trans (hmark w.values), h.unit, hnodes w.values h.repairable, h.log⟩

/-- A change of the stacks that does not look at what is marked, and leaves the nodes alone. -/
theorem inStep_modifySame {g : ValueStacks → ValueStacks}
    (hmark : ∀ s, g (s.markProceeds f) = (g s).markProceeds f)
    (hnodes : ∀ s, (g s).nodes.items = s.nodes.items) :
    InStep (Mirrors f L) Eq (modify fun w => { w with values := g w.values } : Work Unit)
      (modify fun w => { w with values := g w.values } : Work Unit) :=
  inStep_modifyValues hmark fun s hs => by rwa [hnodes]

theorem inStep_pushNode {n : Node} (hn : f.allowsRepair n = true) :
    InStep (Mirrors f L) Eq (pushNode n) (pushNode (n.markProceeds f)) :=
  inStep_modifyValues (g := fun s => { s with nodes := s.nodes.push n })
    (k := fun s => { s with nodes := s.nodes.push (n.markProceeds f) }) (fun _ => rfl)
    fun _ hs => List.forall_mem_cons.mpr ⟨hn, hs⟩

theorem inStep_pushNodes {ns : List Node} (hns : ∀ n ∈ ns, f.allowsRepair n = true) :
    InStep (Mirrors f L) Eq (pushNodes ns) (pushNodes (ns.map (Node.markProceeds f))) := by
  have hpush : ∀ s : SegmentStack Node, (∀ n ∈ s.items, f.allowsRepair n = true) →
      Mapped (Node.markProceeds f) (f.allowsRepair · = true) (s.pushSegment ns)
        ((s.map (Node.markProceeds f)).pushSegment (ns.map (Node.markProceeds f))) :=
    fun s hs => Mapped.pushSegment ⟨rfl, hs⟩ hns
  refine .modifies fun w w' h => ⟨?_, h.unit, (hpush _ h.repairable).holds, h.log⟩
  dsimp only
  rw [h.values]
  exact congrArg (fun nodes => { w.values.markProceeds f with nodes }) (hpush _ h.repairable).eq

/-- Nodes that are made from the items of lists, of which one is the other changed. -/
theorem inStep_pushMapped {mark : α → α} {node node' : α → Node} (xs : List α)
    (hmark : ∀ x, node' (mark x) = (node x).markProceeds f)
    (hnode : ∀ x ∈ xs, f.allowsRepair (node x) = true) :
    InStep (Mirrors f L) Eq (pushNodes (xs.map node)) (pushNodes ((xs.map mark).map node')) := by
  have hmapped : (xs.map mark).map node' = (xs.map node).map (Node.markProceeds f) := by
    rw [List.map_map, List.map_map]
    exact List.map_congr_left fun x _ => hmark x
  rw [hmapped]
  exact inStep_pushNodes (List.forall_mem_map.mpr hnode)

theorem inStep_pushNoNodes : InStep (Mirrors f L) Eq pushNoNodes pushNoNodes :=
  inStep_modifySame (g := fun s => { s with nodes := s.nodes.pushLength 0 }) (fun _ => rfl) fun _ => rfl

theorem inStep_pushExpr (e : Expr) :
    InStep (Mirrors f L) Eq (pushExpr e) (pushExpr (e.markProceeds f)) :=
  inStep_modifyValues (g := fun s => { s with exprs := s.exprs.push e })
    (k := fun s => { s with exprs := s.exprs.push (e.markProceeds f) }) (fun _ => rfl)
    fun _ hs => hs

theorem inStep_pushNoExprs : InStep (Mirrors f L) Eq pushNoExprs pushNoExprs :=
  inStep_modifySame (g := fun s => { s with exprs := s.exprs.pushLength 0 }) (fun _ => rfl) fun _ => rfl

theorem inStep_pushTypeNode (n : TypeNode) :
    InStep (Mirrors f L) Eq (pushTypeNode n) (pushTypeNode n) :=
  inStep_modifySame (g := fun s => { s with types := s.types.push n }) (fun _ => rfl) fun _ => rfl

theorem inStep_pushType (t : TypeRef) : InStep (Mirrors f L) Eq (pushType t) (pushType t) :=
  inStep_pushTypeNode (.type t)

theorem inStep_pushNoTypes : InStep (Mirrors f L) Eq pushNoTypes pushNoTypes :=
  inStep_modifySame (g := fun s => { s with types := s.types.pushLength 0 }) (fun _ => rfl) fun _ => rfl

theorem inStep_pushInt (n : Nat) : InStep (Mirrors f L) Eq (pushInt n) (pushInt n) :=
  inStep_modifySame (g := fun s => { s with ints := n :: s.ints }) (fun _ => rfl) fun _ => rfl

theorem inStep_pushStatement (s : Statement) :
    InStep (Mirrors f L) Eq (pushStatement s) (pushStatement (s.markProceeds f)) :=
  inStep_pushNode (n := .statement s) (by cases f <;> rfl)

/-! ### Taking -/

theorem inStep_popNodes :
    InStep (Mirrors f L) (ImageList (Node.markProceeds f) (f.allowsRepair · = true)) popNodes
      popNodes :=
  inStep_onNodes inStep_popSegment

theorem inStep_popExpr :
    InStep (Mirrors f L) (fun a b => b = a.markProceeds f) popExpr popExpr :=
  (inStep_onExprs inStep_pop).mono fun _ _ => And.left

theorem inStep_popExprs :
    InStep (Mirrors f L) (fun a b => b = a.map (Expr.markProceeds f)) popExprs popExprs :=
  (inStep_onExprs inStep_popSegment).mono fun _ _ => And.left

theorem inStep_popOptionalExpr :
    InStep (Mirrors f L) (fun a b => b = a.map (Expr.markProceeds f)) popOptionalExpr
      popOptionalExpr :=
  (inStep_onExprs inStep_popOptional).mono fun _ _ => And.left

theorem inStep_popIdentifier : InStep (Mirrors f L) Eq popIdentifier popIdentifier :=
  inStep_onIdentifiers _

theorem inStep_noIdentifier :
    InStep (Mirrors f L) Q (noIdentifier : Work α) (noIdentifier : Work β) := by
  rintro w w' ⟨hvalues, hunit, hrepairable, hlog⟩
  unfold noIdentifier
  rw [show w'.values.production = w.values.production by rw [hvalues]; rfl]
  exact .error ⟨hvalues, hunit, hrepairable, hlog⟩

theorem inStep_popName : InStep (Mirrors f L) Eq popName popName := by
  refine .bind (inStep_onIdentifiers _) ?_
  rintro segments _ rfl
  cases segments with
  | nil => exact inStep_noIdentifier
  | cons word words => exact .pure rfl

theorem inStep_popInt : InStep (Mirrors f L) Eq popInt popInt := by
  rintro w w' ⟨hvalues, hunit, hrepairable, hlog⟩
  unfold popInt onStacks StackM.popInt
  rw [show w'.values.ints = w.values.ints by rw [hvalues]; rfl,
    show w'.values.production = w.values.production by rw [hvalues]; rfl]
  cases w.values.ints with
  | nil => exact .error ⟨hvalues, hunit, hrepairable, hlog⟩
  | cons n ints => exact .ok rfl ⟨by rw [hvalues]; rfl, hunit, hrepairable, hlog⟩

theorem inStep_addInt (k : Nat) :
    InStep (Mirrors f L) Eq (onStacks (StackM.addInt k)) (onStacks (StackM.addInt k)) := by
  rintro w w' ⟨hvalues, hunit, hrepairable, hlog⟩
  unfold onStacks StackM.addInt
  rw [show w'.values.ints = w.values.ints by rw [hvalues]; rfl,
    show w'.values.production = w.values.production by rw [hvalues]; rfl]
  cases w.values.ints with
  | nil => exact .error ⟨hvalues, hunit, hrepairable, hlog⟩
  | cons n ints => exact .ok rfl ⟨by rw [hvalues]; rfl, hunit, hrepairable, hlog⟩

/-! ### Taking what is expected -/

theorem inStep_wrongNode (stack : StackName) (expected : NodeSort) :
    InStep (Mirrors f L) Q (wrongNode stack expected : Work α)
      (wrongNode stack expected : Work β) := by
  rintro w w' ⟨hvalues, hunit, hrepairable, hlog⟩
  unfold wrongNode
  rw [show w'.values.production = w.values.production by rw [hvalues]; rfl]
  exact .error ⟨hvalues, hunit, hrepairable, hlog⟩

theorem inStep_expectNode {g : α → β} (stack : StackName) (expected : NodeSort)
    (x : Option α) :
    InStep (Mirrors f L) (fun a b => b = g a) (expectNode stack expected x)
      (expectNode stack expected (x.map g)) := by
  cases x with
  | some a => exact .pure rfl
  | none => exact inStep_wrongNode stack expected

/-- Reading the items of a list commutes with changing them. -/
theorem mapM_map_comm {as? : α → Option β} {h : α → α} {g : β → β}
    (has : ∀ a, as? (h a) = (as? a).map g) (xs : List α) :
    (xs.map h).mapM as? = (xs.mapM as?).map (List.map g) := by
  induction xs with
  | nil => rfl
  | cons x xs ih =>
      rw [List.map_cons, List.mapM_cons, List.mapM_cons, ih, has]
      cases as? x with
      | none => rfl
      | some y => cases xs.mapM as? <;> rfl

section

variable {as? : Node → Option β} {g : β → β} {stack : StackName} {expected : NodeSort}
  (has : ∀ n, as? (n.markProceeds f) = (as? n).map g)

include has

theorem inStep_popNodeAs :
    InStep (Mirrors f L) (fun a b => b = g a) (do expectNode stack expected (as? (← popNode)))
      (do expectNode stack expected (as? (← popNode))) := by
  refine .bind (inStep_onNodes inStep_pop) ?_
  rintro n _ ⟨rfl, _⟩
  rw [has]
  exact inStep_expectNode stack expected (as? n)

theorem inStep_popNodesAs :
    InStep (Mirrors f L) (fun a b => b = a.map g)
      (do expectNode stack expected ((← popNodes).mapM as?))
      (do expectNode stack expected ((← popNodes).mapM as?)) := by
  refine .bind inStep_popNodes ?_
  rintro ns _ ⟨rfl, _⟩
  rw [mapM_map_comm has]
  exact inStep_expectNode stack expected (ns.mapM as?)

end

theorem inStep_popTypesAs (as? : TypeNode → Option β) (stack : StackName)
    (expected : NodeSort) :
    InStep (Mirrors f L) Eq
      (do expectNode stack expected ((← onStacks (.onTypes SegmentStack.popSegment)).mapM as?))
      (do expectNode stack expected ((← onStacks (.onTypes SegmentStack.popSegment)).mapM as?)) := by
  refine .bind (inStep_onTypes _) ?_
  rintro ns _ rfl
  have h := inStep_expectNode (f := f) (L := L) (g := id) stack expected (ns.mapM as?)
  rw [Option.map_id_apply] at h
  exact h.mono fun _ _ => Eq.symm

theorem inStep_popType : InStep (Mirrors f L) Eq popType popType := by
  refine .bind (inStep_onTypes _) ?_
  rintro n _ rfl
  have h := inStep_expectNode (f := f) (L := L) (g := id) .generics .type (asType? n)
  rw [Option.map_id_apply] at h
  exact h.mono fun _ _ => Eq.symm

theorem inStep_popTypes : InStep (Mirrors f L) Eq popTypes popTypes :=
  inStep_popTypesAs asType? .generics .type

theorem inStep_popTypeArguments : InStep (Mirrors f L) Eq popTypeArguments popTypeArguments :=
  inStep_popTypesAs asTypeArgument? .generics .typeArgument

theorem inStep_popTypeParameters (present : Bool) :
    InStep (Mirrors f L) Eq (popTypeParameters present) (popTypeParameters present) := by
  cases present with
  | false => exact .pure rfl
  | true => exact inStep_popTypesAs asTypeParameter? .generics .typeParameter

/-- The modifiers with the calls in their annotations marked. -/
def WrittenModifiers.markProceeds (f : Factory) (m : WrittenModifiers) : WrittenModifiers :=
  { m with annotations := m.annotations.map (AnnotationUse.markProceeds f) }

theorem WrittenModifiers.isEmpty_markProceeds (m : WrittenModifiers) :
    (m.markProceeds f).isEmpty = m.isEmpty := by
  unfold isEmpty markProceeds
  cases m.annotations <;> rfl

theorem inStep_popModifiers :
    InStep (Mirrors f L) (fun a b => b = a.markProceeds f) popModifiers popModifiers := by
  refine .bind inStep_popInt ?_
  rintro start _ rfl
  refine .bind inStep_popInt ?_
  rintro flags _ rfl
  refine .bind inStep_popExprs ?_
  rintro exprs _ rfl
  rw [filterMap_annotationUse?_markProceeds]
  exact .pure rfl

theorem inStep_popModifiersIf (present : Bool) :
    InStep (Mirrors f L) (fun a b => b = a.markProceeds f) (popModifiersIf present)
      (popModifiersIf present) := by
  cases present with
  | false => exact .pure rfl
  | true => exact inStep_popModifiers

theorem inStep_popParameter :
    InStep (Mirrors f L) (fun a b => b = a.markProceeds f) popParameter popParameter :=
  inStep_popNodeAs Node.asParameter?_markProceeds

theorem inStep_popParameters :
    InStep (Mirrors f L) (fun a b => b = a.map (Parameter.markProceeds f)) popParameters
      popParameters :=
  inStep_popNodesAs Node.asParameter?_markProceeds

theorem inStep_popDeclarator :
    InStep (Mirrors f L) (fun a b => b = a.markProceeds f) popDeclarator popDeclarator :=
  inStep_popNodeAs Node.asDeclarator?_markProceeds

theorem inStep_popDeclarators :
    InStep (Mirrors f L) (fun a b => b = a.map (Declarator.markProceeds f)) popDeclarators
      popDeclarators :=
  inStep_popNodesAs Node.asDeclarator?_markProceeds

theorem inStep_popStatement :
    InStep (Mirrors f L) (fun a b => b = a.markProceeds f) popStatement popStatement :=
  inStep_popNodeAs Node.asStatement?_markProceeds

theorem inStep_popStatements :
    InStep (Mirrors f L) (fun a b => b = a.map (Statement.markProceeds f)) popStatements
      popStatements :=
  inStep_popNodesAs Node.asStatement?_markProceeds

theorem inStep_popBlock :
    InStep (Mirrors f L) (fun a b => b = a.markProceeds f) popBlock popBlock := by
  refine .bind inStep_popStatement ?_
  rintro s _ rfl
  rw [Statement.asBlock?_markProceeds]
  exact inStep_expectNode .ast .block (asBlock? s)

/-! ### Changing the topmost declaration -/

theorem inStep_replaceTop {n : Node} (hn : f.allowsRepair n = true) :
    InStep (Mirrors f L) Eq (replaceTop n) (replaceTop (n.markProceeds f)) :=
  inStep_onNodes (SegmentStack.inStep_replaceTop hn)

/-- The topmost node, read as something. -/
theorem inStep_topAs {as? : Node → Option β} {g : β → β} {wrap : β → Node} {stack : StackName}
    {expected : NodeSort} (has : ∀ n, as? (n.markProceeds f) = (as? n).map g)
    (hwrap : ∀ n b, as? n = some b → n = wrap b) :
    InStep (Mirrors f L) (fun a b => b = g a ∧ f.allowsRepair (wrap a) = true)
      (do expectNode stack expected (as? (← onStacks (.onNodes SegmentStack.peek))))
      (do expectNode stack expected (as? (← onStacks (.onNodes SegmentStack.peek)))) := by
  refine .bind (inStep_onNodes inStep_peek) ?_
  rintro n _ ⟨rfl, hn⟩
  rw [has]
  cases hb : as? n with
  | some b =>
      rw [hwrap n b hb] at hn
      exact .pure ⟨rfl, hn⟩
  | none => exact inStep_wrongNode stack expected

theorem inStep_updateType {change change' : TypeDecl → TypeDecl}
    (hmark : ∀ t, change' (t.markProceeds f) = (change t).markProceeds f)
    (hextension : ∀ t, (change t).extension = t.extension) :
    InStep (Mirrors f L) Eq (updateType change) (updateType change') := by
  have htop : InStep (Mirrors f L) (fun a b => b = a.markProceeds f ∧
      f.allowsRepair (.type a) = true) (typeOnTop .type) (typeOnTop .type) :=
    inStep_topAs Node.asTypeDecl?_markProceeds (fun n t h => by cases n <;> cases h; rfl)
  refine .bind htop ?_
  rintro t _ ⟨rfl, ht⟩
  rw [hmark]
  refine inStep_replaceTop (n := .type (change t)) ?_
  cases f with
  | placeholder => rfl
  | aspects =>
      change (!(change t).extension.isSome) = true
      rw [hextension]
      exact ht

theorem inStep_updateMethod {change change' : MethodDecl → MethodDecl}
    (hmark : ∀ m, change' (m.markProceeds f) = (change m).markProceeds f)
    (hextension : ∀ m, (change m).extension = m.extension) :
    InStep (Mirrors f L) Eq (updateMethod change) (updateMethod change') := by
  have htop : InStep (Mirrors f L) (fun a b => b = a.markProceeds f ∧
      f.allowsRepair (.method a) = true) (methodOnTop .method) (methodOnTop .method) :=
    inStep_topAs Node.asMethod?_markProceeds (fun n m h => by cases n <;> cases h; rfl)
  refine .bind htop ?_
  rintro m _ ⟨rfl, hm⟩
  rw [hmark]
  refine inStep_replaceTop (n := .method (change m)) ?_
  cases f with
  | placeholder => rfl
  | aspects =>
      change (!(change m).extension.isSome) = true
      rw [hextension]
      exact hm

/-! ### Reporting -/

theorem inStep_report (hL : KeptByErrors L) (id : ProblemKind) (span : Span)
    (arguments : List String) :
    InStep (Mirrors f L) Eq (report id span arguments) (report id span arguments) := by
  rintro w w' ⟨hvalues, hunit, hrepairable, hlog⟩
  exact .ok rfl ⟨hvalues, hunit, hrepairable, hL _ _ id span arguments hlog⟩

end Work

end AspectLang
