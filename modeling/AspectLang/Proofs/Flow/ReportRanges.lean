import AspectLang.Proofs.Flow.Reports
import AspectLang.Proofs.Parse.Seats

/-! # Where the analysis of flow reports

A use is reported at the first word of a name, an unreachable statement at its range, and an
exception that leaves a method at the range of the statement that throws it.  All these lie in the
text if the outermost statements of a unit do and their ranges nest
(`CompilationUnit.endsBy_flow`). -/

namespace AspectLang

variable {g : Spacing}

/-! ### Parts of what lies in the text -/

namespace Part.Lies

theorem part {p q : Part} (h : p.Lies g) (hq : q ∈ p.parts) : q.Lies g :=
  ⟨h.nested.endsBy h.ends hq, h.nested.part hq⟩

theorem expr {e e' : Expr} (h : (Part.expr e).Lies g) (he : e' ∈ e.parts) :
    (Part.expr e').Lies g := h.part (List.mem_map_of_mem he)

theorem word {e : Expr} {w : Identifier} (h : (Part.expr e).Lies g) (hw : w ∈ e.words) :
    w.span.EndsBy g.limit := (h.nested.holds_word hw).endsBy h.ends

end Part.Lies

/-! ### States -/

/-- What was reported, and the exceptions that leave the body, lie in the text. -/
structure BodyFlow.EndsBy (limit : Nat) (f : BodyFlow) : Prop where
  reporter : f.reporter.EndsBy limit
  escapes : ∀ e ∈ f.escapes, e.span.EndsBy limit

namespace BodyFlow

variable {limit : Nat} {f f' : BodyFlow} {name : String} {span : Span}

/-- Nothing changes where the reports and the exceptions are the same. -/
theorem EndsBy.of_same (h : f.EndsBy limit) (hreporter : f'.reporter = f.reporter)
    (hescapes : f'.escapes = f.escapes) : f'.EndsBy limit := by
  refine ⟨?_, ?_⟩
  · rw [hreporter]
    exact h.reporter
  · rw [hescapes]
    exact h.escapes

theorem EndsBy.setState (h : f.EndsBy limit) (state : PathState) :
    (f.setState state).EndsBy limit := h.of_same rfl rfl

theorem EndsBy.setAssigned (h : f.EndsBy limit) (assigned : List String) :
    (f.setAssigned assigned).EndsBy limit := h.of_same rfl rfl

theorem EndsBy.setAlive (h : f.EndsBy limit) (alive : Bool) :
    (f.setAlive alive).EndsBy limit := h.of_same rfl rfl

theorem EndsBy.declare (h : f.EndsBy limit) (name type : String) (assigned : Bool) :
    (f.declare name type assigned).EndsBy limit := h.of_same rfl rfl

theorem EndsBy.assign (h : f.EndsBy limit) (name : String) : (f.assign name).EndsBy limit := by
  unfold BodyFlow.assign
  split
  · exact h.of_same rfl rfl
  · exact h

theorem EndsBy.use (h : f.EndsBy limit) (hspan : span.EndsBy limit) :
    (f.use name span).EndsBy limit := by
  unfold BodyFlow.use
  split
  · exact h
  · exact ⟨h.reporter.report hspan, h.escapes⟩

theorem EndsBy.throws (h : f.EndsBy limit) (hspan : span.EndsBy limit) :
    (f.throws name span).EndsBy limit := by
  unfold BodyFlow.throws
  split
  · exact h
  · exact ⟨h.reporter, List.forall_mem_cons.mpr ⟨hspan, h.escapes⟩⟩

theorem EndsBy.reach (h : f.EndsBy limit) (hspan : span.EndsBy limit) :
    (f.reach span).EndsBy limit := by
  unfold BodyFlow.reach
  split
  · exact h
  · exact ⟨h.reporter.report hspan, h.escapes⟩

end BodyFlow

/-! ### Expressions -/

mutual

theorem Expr.endsBy_flow (e : Expr) (f : BodyFlow) (he : (Part.expr e).Lies g)
    (hf : f.EndsBy g.limit) : (e.flow f).EndsBy g.limit := by
  match e with
  | .literal _ _ _ | .this _ | .super _ | .annotationUse _ => rw [Expr.flow]; exact hf
  | .name n =>
    rw [Expr.flow]
    cases hsegments : n.segments with
    | nil => exact hf
    | cons word rest =>
      refine hf.use (he.word ?_)
      rw [Expr.words, hsegments]
      exact List.mem_cons_self
  | .fieldAccess receiver _ _ =>
    rw [Expr.flow]
    exact receiver.endsBy_flow f (he.expr (List.mem_singleton_self _)) hf
  | .send none _ arguments _ _ =>
    rw [Expr.flow]
    exact endsBy_flowExprs arguments f (fun _ => he.expr) hf
  | .send (some receiver) _ arguments _ _ =>
    rw [Expr.flow]
    exact endsBy_flowExprs arguments _ (fun _ ha => he.expr (List.mem_cons_of_mem _ ha))
      (receiver.endsBy_flow f (he.expr List.mem_cons_self) hf)
  | .new _ arguments _ => rw [Expr.flow]; exact endsBy_flowExprs arguments f (fun _ => he.expr) hf
  | .assign target operator value _ =>
    rw [Expr.flow]
    have htarget := target.endsBy_flow f (he.expr List.mem_cons_self) hf
    have hvalue : ∀ f' : BodyFlow, f'.EndsBy g.limit → (value.flow f').EndsBy g.limit :=
      fun f' => value.endsBy_flow f' (he.expr (List.mem_cons_of_mem _ List.mem_cons_self))
    cases target.word? with
    | none => exact hvalue _ htarget
    | some word =>
      refine (hvalue _ ?_).assign word
      split
      · exact htarget
      · exact hf
  | .binary left operator right _ =>
    rw [Expr.flow_binary]
    have hleft := left.endsBy_flow f (he.expr List.mem_cons_self) hf
    have hright := right.endsBy_flow _
      (he.expr (List.mem_cons_of_mem _ List.mem_cons_self)) hleft
    split
    · exact hright.setAssigned _
    · exact hright
  | .unary _ operand _ =>
    rw [Expr.flow]
    exact operand.endsBy_flow f (he.expr (List.mem_singleton_self _)) hf
  | .conditional condition whenTrue whenFalse _ =>
    rw [Expr.flow]
    have hcondition := condition.endsBy_flow f (he.expr List.mem_cons_self) hf
    have htrue := whenTrue.endsBy_flow _
      (he.expr (List.mem_cons_of_mem _ List.mem_cons_self)) hcondition
    refine BodyFlow.EndsBy.setAssigned (whenFalse.endsBy_flow _ ?_ (htrue.setAssigned _)) _
    exact he.expr (List.mem_cons_of_mem _ (List.mem_cons_of_mem _ List.mem_cons_self))
  | .instanceOf value _ _ =>
    rw [Expr.flow]
    exact value.endsBy_flow f (he.expr (List.mem_singleton_self _)) hf
  | .paren inner _ =>
    rw [Expr.flow]
    exact inner.endsBy_flow f (he.expr (List.mem_singleton_self _)) hf

theorem endsBy_flowExprs (es : List Expr) (f : BodyFlow) (hes : ∀ e ∈ es, (Part.expr e).Lies g)
    (hf : f.EndsBy g.limit) : (flowExprs es f).EndsBy g.limit := by
  match es with
  | [] => rw [flowExprs]; exact hf
  | e :: rest =>
    rw [flowExprs]
    obtain ⟨he, hrest⟩ := List.forall_mem_cons.mp hes
    exact endsBy_flowExprs rest _ hrest (e.endsBy_flow f he hf)

end

theorem endsBy_flowOptional {e : Option Expr} {f : BodyFlow}
    (he : ∀ p ∈ optionalPart e, p.Lies g) (hf : f.EndsBy g.limit) :
    (flowOptional e f).EndsBy g.limit := by
  cases e with
  | none => exact hf
  | some e => exact e.endsBy_flow f (he _ (List.mem_singleton_self _)) hf

theorem endsBy_flowThrow {value : Expr} {span : Span} {f : BodyFlow}
    (hvalue : (Part.expr value).Lies g) (hspan : span.EndsBy g.limit) (hf : f.EndsBy g.limit) :
    (flowThrow value span f).EndsBy g.limit := by
  have hafter := value.endsBy_flow f hvalue hf
  unfold flowThrow
  refine BodyFlow.EndsBy.setAlive ?_ false
  cases value.thrownType? (value.flow f) with
  | none => exact hafter
  | some name => exact hafter.throws hspan

/-! ### Statements -/

theorem endsBy_flowGuarded {statements : List Statement} {handlers : List CatchClause}
    {f : BodyFlow} (hf : f.EndsBy g.limit)
    (hblock : ∀ f : BodyFlow, f.EndsBy g.limit → (flowStatements statements f).EndsBy g.limit)
    (hcatches : ∀ before joined (f : BodyFlow), f.EndsBy g.limit →
      (flowCatches handlers before joined f).EndsBy g.limit) :
    (flowGuarded statements handlers f).EndsBy g.limit := by
  refine hcatches _ _ _ ?_
  have hinner := hblock (BodyFlow.enter { f with handlers :=
    (handlers.map fun c => c.parameter.type.simpleName) :: f.handlers }) (hf.of_same rfl rfl)
  exact hinner.of_same rfl rfl

mutual

/-- **The analysis of a statement in the text reports nothing outside of it.** -/
theorem Statement.endsBy_flow (s : Statement) (f : BodyFlow) (hs : s.Lies g)
    (hf : f.EndsBy g.limit) : (s.flow f).EndsBy g.limit := by
  match s with
  | .block ⟨statements, _⟩ =>
    rw [Statement.flow]
    have hinner := endsBy_flowStatements statements f.enter
      (fun _ ht => hs.part (List.mem_map_of_mem ht)) (hf.of_same rfl rfl)
    exact hinner.of_same rfl rfl
  | .localVariable v =>
    rw [Statement.flow]
    refine (endsBy_flowOptional (fun p hp => hs.part ?_) hf).declare ..
    exact List.mem_append_right _ hp
  | .expression value _ =>
    rw [Statement.flow]
    exact value.endsBy_flow f (hs.part (List.mem_singleton_self _)) hf
  | .ifThen condition thenBranch none _ =>
    rw [Statement.flow]
    have hcondition := condition.endsBy_flow f (hs.part List.mem_cons_self) hf
    have hthen := thenBranch.endsBy_flow _
      (hs.part (List.mem_cons_of_mem _ List.mem_cons_self)) hcondition
    exact hthen.setState _
  | .ifThen condition thenBranch (some elseBranch) _ =>
    rw [Statement.flow]
    have hcondition := condition.endsBy_flow f (hs.part List.mem_cons_self) hf
    have hthen := thenBranch.endsBy_flow _
      (hs.part (List.mem_cons_of_mem _ List.mem_cons_self)) hcondition
    refine BodyFlow.EndsBy.setState (elseBranch.endsBy_flow _ ?_ (hthen.setState _)) _
    exact hs.part (List.mem_cons_of_mem _ (List.mem_cons_of_mem _ List.mem_cons_self))
  | .whileLoop condition body _ =>
    rw [Statement.flow]
    have hcondition := condition.endsBy_flow f (hs.part List.mem_cons_self) hf
    have hbody := body.endsBy_flow _
      (hs.part (List.mem_cons_of_mem _ List.mem_cons_self)) hcondition
    exact (hbody.setState _).setAlive true
  | .doLoop body condition _ =>
    rw [Statement.flow]
    have hbody := body.endsBy_flow f (hs.part List.mem_cons_self) hf
    exact condition.endsBy_flow _ (hs.part (List.mem_cons_of_mem _ List.mem_cons_self))
      (hbody.setAlive true)
  | .forLoop init condition update body _ =>
    rw [Statement.flow]
    have hparts := fun p (hp : p ∈ init.map Part.statement ++ optionalPart condition ++
      update.map Part.expr ++ [.statement body]) => hs.part (q := p) hp
    simp only [List.forall_mem_append, List.forall_mem_singleton] at hparts
    obtain ⟨⟨⟨hinit, hcondition⟩, hupdate⟩, hbody⟩ := hparts
    have hhead := endsBy_flowOptional hcondition (endsBy_flowInit init f.enter
      (fun _ ht => hinit _ (List.mem_map_of_mem ht)) (hf.of_same rfl rfl))
    have hafter := endsBy_flowExprs update _ (fun _ he => hupdate _ (List.mem_map_of_mem he))
      ((body.endsBy_flow _ hbody hhead).setAlive true)
    exact hafter.of_same rfl rfl
  | .forEach element collection body _ =>
    rw [Statement.flow]
    have hcollection := collection.endsBy_flow f
      (hs.part (List.mem_append_right _ List.mem_cons_self)) hf
    have hbody := body.endsBy_flow ((collection.flow f).enter.declare element.name.name
      element.type.simpleName true)
      (hs.part (List.mem_append_right _ (List.mem_cons_of_mem _ List.mem_cons_self)))
      (hcollection.of_same rfl rfl)
    exact hbody.of_same rfl rfl
  | .returning value _ =>
    rw [Statement.flow]
    exact (endsBy_flowOptional (fun _ => hs.part) hf).setAlive false
  | .throwing value span =>
    rw [Statement.flow]
    exact endsBy_flowThrow (hs.part (List.mem_singleton_self _)) hs.ends hf
  | .breaking _ _ | .continuing _ _ => rw [Statement.flow]; exact hf.setAlive false
  | .labeled _ body _ =>
    rw [Statement.flow]
    exact (body.endsBy_flow f (hs.part (List.mem_singleton_self _)) hf).setAlive true
  | .trying ⟨statements, inner⟩ handlers final _ =>
    have hblock : Statement.Lies g (.block ⟨statements, inner⟩) := hs.part List.mem_cons_self
    have hguarded := endsBy_flowGuarded hf
      (fun f' => endsBy_flowStatements statements f' fun _ ht =>
        hblock.part (List.mem_map_of_mem ht))
      (fun before joined f' => endsBy_flowCatches handlers before joined f' fun _ hc =>
        hs.part (List.mem_cons_of_mem _ (List.mem_append_left _ (List.mem_map_of_mem hc))))
    match final with
    | none =>
      rw [Statement.flow_trying_none]
      exact hguarded
    | some ⟨last, span⟩ =>
      rw [Statement.flow_trying_some]
      have hlast : Statement.Lies g (.block ⟨last, span⟩) :=
        hs.part (List.mem_cons_of_mem _ (List.mem_append_right _ (List.mem_singleton_self _)))
      have hfinal := endsBy_flowStatements last
        ((flowGuarded statements handlers f).setState ⟨f.state.assigned, true⟩).enter
        (fun _ ht => hlast.part (List.mem_map_of_mem ht)) (hguarded.of_same rfl rfl)
      exact hfinal.of_same rfl rfl
  | .assertion condition message _ =>
    rw [Statement.flow]
    have hcondition := condition.endsBy_flow f (hs.part List.mem_cons_self) hf
    exact (endsBy_flowOptional (fun _ hp => hs.part (List.mem_cons_of_mem _ hp))
      hcondition).setState _
  | .constructorCall _ arguments _ =>
    rw [Statement.flow]
    exact endsBy_flowExprs arguments f (fun _ ha => hs.part (List.mem_map_of_mem ha)) hf
  | .empty _ => rw [Statement.flow]; exact hf

theorem endsBy_flowStatements (ss : List Statement) (f : BodyFlow) (hss : ∀ s ∈ ss, s.Lies g)
    (hf : f.EndsBy g.limit) : (flowStatements ss f).EndsBy g.limit := by
  match ss with
  | [] => rw [flowStatements]; exact hf
  | s :: rest =>
    rw [flowStatements]
    obtain ⟨hs, hrest⟩ := List.forall_mem_cons.mp hss
    exact endsBy_flowStatements rest _ hrest (s.endsBy_flow _ hs (hf.reach hs.ends))

theorem endsBy_flowInit (ss : List Statement) (f : BodyFlow) (hss : ∀ s ∈ ss, s.Lies g)
    (hf : f.EndsBy g.limit) : (flowInit ss f).EndsBy g.limit := by
  match ss with
  | [] => rw [flowInit]; exact hf
  | s :: rest =>
    rw [flowInit]
    obtain ⟨hs, hrest⟩ := List.forall_mem_cons.mp hss
    exact endsBy_flowInit rest _ hrest (s.endsBy_flow f hs hf)

theorem endsBy_flowCatches (handlers : List CatchClause) (before : List String)
    (joined : PathState) (f : BodyFlow) (hhandlers : ∀ c ∈ handlers, (Part.handler c).Lies g)
    (hf : f.EndsBy g.limit) : (flowCatches handlers before joined f).EndsBy g.limit := by
  match handlers with
  | [] => rw [flowCatches]; exact hf.setState joined
  | ⟨parameter, ⟨statements, inner⟩, span⟩ :: rest =>
    rw [flowCatches]
    obtain ⟨hfirst, hrest⟩ := List.forall_mem_cons.mp hhandlers
    have hblock : Statement.Lies g (.block ⟨statements, inner⟩) :=
      hfirst.part (List.mem_append_right _ (List.mem_singleton_self _))
    have hinner := endsBy_flowStatements statements
      (((f.setState ⟨before, true⟩).enter.declare parameter.name.name
        parameter.type.simpleName true).enter)
      (fun _ ht => hblock.part (List.mem_map_of_mem ht)) (hf.of_same rfl rfl)
    exact endsBy_flowCatches rest before _ _ hrest (hinner.of_same rfl rfl)

end

/-! ### Units -/

theorem MethodDecl.endsBy_bodyFlow (m : MethodDecl) {limit : Nat} {r : Reporter}
    (hr : r.EndsBy limit) : (m.bodyFlow r).EndsBy limit := by
  unfold MethodDecl.bodyFlow
  have hstart : BodyFlow.EndsBy limit { reporter := r } := ⟨hr, nofun⟩
  generalize ({ reporter := r } : BodyFlow) = f at hstart
  induction m.parameters generalizing f with
  | nil => exact hstart
  | cons p rest ih => exact ih _ (hstart.declare ..)

theorem UnitFlow.endsBy_foldr_undeclared {limit : Nat} {declared : List String}
    {escapes : List Escape} {u : UnitFlow} (hu : u.reporter.EndsBy limit)
    (hescapes : ∀ e ∈ escapes, e.span.EndsBy limit) :
    (escapes.foldr (UnitFlow.undeclared declared) u).reporter.EndsBy limit := by
  induction escapes with
  | nil => exact hu
  | cons e rest ih =>
    obtain ⟨he, hrest⟩ := List.forall_mem_cons.mp hescapes
    have hafter := ih hrest
    rw [List.foldr_cons]
    unfold UnitFlow.undeclared
    split
    · exact hafter
    · exact hafter.report he

theorem MethodDecl.endsBy_flow (m : MethodDecl) (u : UnitFlow) (hm : Member.Lies g (.method m))
    (hu : u.reporter.EndsBy g.limit) : (m.flow u).2.reporter.EndsBy g.limit := by
  unfold MethodDecl.flow
  cases hstatements : m.statements with
  | none => exact hu
  | some statements =>
    have hbody := endsBy_flowStatements statements _
      (fun s hs => hm s (by rw [Member.outermost, hstatements]; exact hs)) (m.endsBy_bodyFlow hu)
    dsimp only
    split
    · split
      · exact hbody.reporter
      · exact UnitFlow.endsBy_foldr_undeclared hbody.reporter hbody.escapes
    · exact UnitFlow.endsBy_foldr_undeclared hbody.reporter hbody.escapes

mutual

theorem TypeDecl.endsBy_flow (t : TypeDecl) (u : UnitFlow) (ht : ∀ s ∈ t.outermost, s.Lies g)
    (hu : u.reporter.EndsBy g.limit) : (t.flow u).2.reporter.EndsBy g.limit := by
  match t with
  | ⟨_, _, _, _, _, _, _, members, _, _, _, _⟩ =>
    rw [TypeDecl.flow]
    rw [TypeDecl.outermost] at ht
    exact endsBy_flowMembers members u ht hu

theorem endsBy_flowMembers (ms : List Member) (u : UnitFlow)
    (hms : ∀ s ∈ outermostOf ms, s.Lies g) (hu : u.reporter.EndsBy g.limit) :
    (flowMembers ms u).2.reporter.EndsBy g.limit := by
  match ms with
  | [] => rw [flowMembers]; exact hu
  | m :: rest =>
    rw [outermostOf] at hms
    obtain ⟨hm, hrest⟩ := List.forall_mem_append.mp hms
    rw [flowMembers]
    exact endsBy_flowMembers rest _ hrest (m.endsBy_flow u hm hu)

theorem Member.endsBy_flow (m : Member) (u : UnitFlow) (hm : m.Lies g)
    (hu : u.reporter.EndsBy g.limit) : (m.flow u).2.reporter.EndsBy g.limit := by
  match m with
  | .field _ => rw [Member.flow]; exact hu
  | .method m => rw [Member.flow]; exact m.endsBy_flow u hm hu
  | .type t =>
    rw [Member.flow]
    refine t.endsBy_flow u (fun s hs => hm s ?_) hu
    rw [Member.outermost]
    exact hs
  | .initializer i =>
    rw [Member.flow]
    have hblock : Statement.Lies g (.block i.block) :=
      hm _ (by rw [Member.outermost]; exact List.mem_singleton_self _)
    have hbody := endsBy_flowStatements i.block.statements (BodyFlow.enter { reporter := u.reporter })
      (fun _ hs => hblock.part (List.mem_map_of_mem hs)) ⟨hu, nofun⟩
    exact hbody.reporter

end

/-- **The analysis of a unit in the text reports nothing outside of it.** -/
theorem CompilationUnit.endsBy_flow {unit : CompilationUnit} {r : Reporter}
    (hunit : ∀ s ∈ unit.outermost, s.Lies g) (hr : r.EndsBy g.limit) :
    (unit.flow r).2.reporter.EndsBy g.limit := by
  have htypes : ∀ (ts : List TypeDecl) (u : UnitFlow),
      (∀ s ∈ ts.flatMap TypeDecl.outermost, s.Lies g) → u.reporter.EndsBy g.limit →
        (flowTypes ts u).2.reporter.EndsBy g.limit := by
    intro ts
    induction ts with
    | nil => exact fun _ _ hu => hu
    | cons t rest ih =>
      intro u hts hu
      rw [List.flatMap_cons] at hts
      obtain ⟨ht, hrest⟩ := List.forall_mem_append.mp hts
      rw [flowTypes]
      exact ih _ hrest (t.endsBy_flow u ht hu)
  exact htypes unit.types { reporter := r } hunit hr

end AspectLang
