import AspectLang.Proofs.Flow.Paths

/-! # Reports are kept

The analysis of a body goes on from state to state.  It never takes back a diagnostic or a
declaration of the scopes around it, and whenever it notes that a variable was reported, there
is a diagnostic with the name of the variable (`Statement.onward`).  So what one body of a unit
is found to do stands among the diagnostics of the unit, whatever follows
(`CompilationUnit.exists_flow_of_body`). -/

namespace AspectLang

/-! ### Later states -/

/-- From a state of the analysis to a later one: declarations are added to the innermost scope
only, diagnostics are added, and every variable reported since has one of these. -/
structure BodyFlow.Onward (f g : BodyFlow) : Prop where
  scopes : ∃ new, g.scopes = f.scopes.modifyHead (new ++ ·)
  reported : f.reported ⊆ g.reported
  diagnosed : ∃ more, g.reporter.diagnostics.toList = f.reporter.diagnostics.toList ++ more ∧
    ∀ name ∈ g.reported, name ∈ f.reported ∨
      ∃ d ∈ more, d.id = .uninitializedLocal ∧ d.arguments = [name]

/-- From a state of the analysis to a later one that has a path to it if the first one has. -/
structure BodyFlow.Steady (f g : BodyFlow) : Prop extends f.Onward g where
  alive : g.state.alive = f.state.alive

namespace BodyFlow

variable {f g h : BodyFlow} {name type : String} {span : Span} {state : PathState}

/-- Nothing is added where the scopes and the reports are the same. -/
theorem Onward.of_same (hscopes : g.scopes = f.scopes) (hreported : g.reported = f.reported)
    (hreporter : g.reporter = f.reporter) : f.Onward g where
  scopes := ⟨[], by rw [hscopes]; cases f.scopes <;> rfl⟩
  reported := by rw [hreported]; exact List.Subset.refl _
  diagnosed := ⟨[], by rw [hreporter, List.append_nil], fun name hn => .inl (hreported ▸ hn)⟩

theorem Onward.refl (f : BodyFlow) : f.Onward f := .of_same rfl rfl rfl

theorem Onward.trans (hf : f.Onward g) (hg : g.Onward h) : f.Onward h where
  scopes := by
    obtain ⟨new, hnew⟩ := hf.scopes
    obtain ⟨newer, hnewer⟩ := hg.scopes
    refine ⟨newer ++ new, ?_⟩
    rw [hnewer, hnew, List.modifyHead_modifyHead]
    congr 1
    funext scope
    exact (List.append_assoc newer new scope).symm
  reported := List.Subset.trans hf.reported hg.reported
  diagnosed := by
    obtain ⟨more, hmore, hfound⟩ := hf.diagnosed
    obtain ⟨later, hlater, hfound'⟩ := hg.diagnosed
    refine ⟨more ++ later, by rw [hlater, hmore, List.append_assoc], ?_⟩
    intro name hname
    rcases hfound' name hname with hname | ⟨d, hd, hnamed⟩
    · rcases hfound name hname with hname | ⟨d, hd, hnamed⟩
      · exact .inl hname
      · exact .inr ⟨d, List.mem_append_left _ hd, hnamed⟩
    · exact .inr ⟨d, List.mem_append_right _ hd, hnamed⟩

/-- What is a local variable stays one. -/
theorem Onward.known (hf : f.Onward g) (hknown : (f.localType? name).isSome) :
    (g.localType? name).isSome := by
  obtain ⟨new, hnew⟩ := hf.scopes
  rw [localType?, List.findSome?_isSome_iff] at hknown ⊢
  obtain ⟨scope, hscope, hname⟩ := hknown
  rw [hnew]
  cases hs : f.scopes with
  | nil => simp [hs] at hscope
  | cons inner outer =>
    rw [hs] at hscope
    rcases List.mem_cons.1 hscope with rfl | hscope
    · refine ⟨new ++ scope, List.mem_cons_self, ?_⟩
      rw [List.lookup_append, Option.isSome_or, hname, Bool.or_true]
    · exact ⟨scope, List.mem_cons_of_mem _ hscope, hname⟩

/-- There is an innermost scope if there was one. -/
theorem Onward.hasScope (hf : f.Onward g) (hscoped : f.scopes ≠ []) : g.scopes ≠ [] := by
  obtain ⟨new, hnew⟩ := hf.scopes
  rw [hnew]
  cases hs : f.scopes with
  | nil => exact absurd hs hscoped
  | cons inner outer => simp

theorem Onward.setState (hf : f.Onward g) (state : PathState) : f.Onward (g.setState state) :=
  hf.trans (.of_same rfl rfl rfl)

theorem Onward.setAlive (hf : f.Onward g) (alive : Bool) : f.Onward (g.setAlive alive) :=
  hf.trans (.of_same rfl rfl rfl)

theorem Onward.of_setState (hf : (f.setState state).Onward g) : f.Onward g :=
  ⟨hf.scopes, hf.reported, hf.diagnosed⟩

/-- What is declared in a scope of its own is gone behind it. -/
theorem Onward.leave (hf : f.enter.Onward g) : f.Onward g.leave where
  scopes := by
    obtain ⟨new, hnew⟩ := hf.scopes
    refine ⟨[], ?_⟩
    rw [BodyFlow.leave, hnew, enter]
    cases f.scopes <;> rfl
  reported := hf.reported
  diagnosed := hf.diagnosed

theorem onward_declare (f : BodyFlow) (name type : String) (assigned : Bool) :
    f.Onward (f.declare name type assigned) where
  scopes := ⟨[(name, type)], by rw [declare]; cases f.scopes <;> rfl⟩
  reported := List.Subset.refl _
  diagnosed := ⟨[], (List.append_nil _).symm, fun _ hn => .inl hn⟩

theorem known_declare (hscoped : f.scopes ≠ []) (assigned : Bool) :
    ((f.declare name type assigned).localType? name).isSome := by
  rw [localType?, List.findSome?_isSome_iff, declare]
  cases hs : f.scopes with
  | nil => exact absurd hs hscoped
  | cons inner outer =>
    exact ⟨(name, type) :: inner, List.mem_cons_self, by rw [List.lookup_cons_self]; rfl⟩

theorem alive_declare (f : BodyFlow) (name type : String) (assigned : Bool) :
    (f.declare name type assigned).state.alive = f.state.alive := by
  simp only [declare, PathState.assign, PathState.unassign]
  split
  · split <;> rfl
  · rfl

theorem mem_assigned_declare {other : String} {assigned : Bool} :
    other ∈ (f.declare name type assigned).state.assigned ↔
      if other = name then assigned = true else other ∈ f.state.assigned := by
  simp only [declare, PathState.assign, PathState.unassign]
  grind

theorem onward_throws (f : BodyFlow) (name : String) (span : Span) : f.Onward (f.throws name span) := by
  unfold throws
  split
  · exact .refl f
  · exact .of_same rfl rfl rfl

theorem onward_reach (f : BodyFlow) (span : Span) : f.Onward (f.reach span) := by
  unfold reach
  split
  · exact .refl f
  · exact ⟨⟨[], by cases f.scopes <;> rfl⟩, List.Subset.refl _,
      ⟨[_], Array.toList_push, fun _ hn => .inl hn⟩⟩

theorem onward_handled {inner : BodyFlow → BodyFlow} (f : BodyFlow) (caught : List String)
    (hinner : ∀ f : BodyFlow, f.Onward (inner f)) : f.Onward (f.handled caught inner) := by
  have hf := hinner { f with handlers := caught :: f.handlers }
  exact ⟨hf.scopes, hf.reported, hf.diagnosed⟩

/-! ### Expressions -/

theorem Steady.refl (f : BodyFlow) : f.Steady f := ⟨.refl f, rfl⟩

theorem Steady.trans (hf : f.Steady g) (hg : g.Steady h) : f.Steady h :=
  ⟨hf.toOnward.trans hg.toOnward, hg.alive.trans hf.alive⟩

theorem Steady.setAssigned (hf : f.Steady g) (assigned : List String) :
    f.Steady (g.setAssigned assigned) :=
  ⟨hf.toOnward.trans (.of_same rfl rfl rfl), hf.alive⟩

theorem steady_assign (f : BodyFlow) (name : String) : f.Steady (f.assign name) := by
  unfold BodyFlow.assign PathState.assign
  split
  · refine ⟨.of_same rfl rfl rfl, ?_⟩
    split <;> rfl
  · exact .refl f

theorem steady_use (f : BodyFlow) (name : String) (span : Span) : f.Steady (f.use name span) := by
  unfold use
  split
  · exact .refl f
  · refine ⟨⟨⟨[], by cases f.scopes <;> rfl⟩, List.subset_cons_self _ _, ?_⟩, rfl⟩
    refine ⟨[.of .uninitializedLocal span [name]], Array.toList_push, ?_⟩
    intro other hother
    rcases List.mem_cons.1 hother with rfl | hother
    · exact .inr ⟨_, List.mem_singleton_self _, rfl, rfl⟩
    · exact .inl hother

end BodyFlow

open BodyFlow

/-- Behind an operation that its left side may decide, only what the left side assigns counts. -/
theorem Expr.flow_binary (left right : Expr) (operator : BinaryOperator) (span : Span)
    (f : BodyFlow) : (Expr.binary left operator right span).flow f =
      if operator.isShortcut then (right.flow (left.flow f)).setAssigned (left.flow f).state.assigned
      else right.flow (left.flow f) := by
  cases operator <;> simp [Expr.flow, BinaryOperator.isShortcut]

mutual

theorem Expr.steady (e : Expr) (f : BodyFlow) : f.Steady (e.flow f) := by
  match e with
  | .literal _ _ _ | .this _ | .super _ | .annotationUse _ => rw [Expr.flow]; exact .refl f
  | .name n =>
    rw [Expr.flow]
    cases n.segments with
    | nil => exact .refl f
    | cons word _ => exact steady_use f word.name word.span
  | .fieldAccess receiver _ _ => rw [Expr.flow]; exact receiver.steady f
  | .send none _ arguments _ _ => rw [Expr.flow]; exact steady_flowExprs arguments f
  | .send (some receiver) _ arguments _ _ =>
    rw [Expr.flow]
    exact (receiver.steady f).trans (steady_flowExprs arguments _)
  | .new _ arguments _ => rw [Expr.flow]; exact steady_flowExprs arguments f
  | .assign target operator value _ =>
    rw [Expr.flow]
    cases target.word? with
    | none => exact (target.steady f).trans (value.steady _)
    | some word =>
      refine Steady.trans (Steady.trans ?_ (value.steady _)) (steady_assign _ word)
      split
      · exact target.steady f
      · exact .refl f
  | .binary left operator right _ =>
    rw [Expr.flow_binary]
    have hboth := (left.steady f).trans (right.steady _)
    split
    · exact hboth.setAssigned _
    · exact hboth
  | .unary _ operand _ => rw [Expr.flow]; exact operand.steady f
  | .conditional condition whenTrue whenFalse _ =>
    rw [Expr.flow]
    have htrue := (condition.steady f).trans (whenTrue.steady _)
    exact ((htrue.setAssigned _).trans (whenFalse.steady _)).setAssigned _
  | .instanceOf value _ _ => rw [Expr.flow]; exact value.steady f
  | .paren inner _ => rw [Expr.flow]; exact inner.steady f

theorem steady_flowExprs (es : List Expr) (f : BodyFlow) : f.Steady (flowExprs es f) := by
  match es with
  | [] => rw [flowExprs]; exact .refl f
  | e :: rest => rw [flowExprs]; exact (e.steady f).trans (steady_flowExprs rest _)

end

theorem steady_flowOptional (e : Option Expr) (f : BodyFlow) : f.Steady (flowOptional e f) := by
  cases e with
  | none => exact .refl f
  | some e => exact e.steady f

/-! ### Statements -/

theorem onward_flowThrow (value : Expr) (span : Span) (f : BodyFlow) :
    (value.flow f).Onward (flowThrow value span f) := by
  unfold flowThrow
  refine Onward.setAlive ?_ false
  cases value.thrownType? (value.flow f) with
  | none => exact .refl _
  | some name => exact onward_throws _ name span

/-- The state after a `try` block and its handlers. -/
def flowGuarded (statements : List Statement) (handlers : List CatchClause) (f : BodyFlow) :
    BodyFlow :=
  let caught := handlers.map fun c => c.parameter.type.simpleName
  let afterTry := f.handled caught fun f => f.inScope (flowStatements statements)
  flowCatches handlers f.state.assigned afterTry.state afterTry

/-- The state after a final block: what it assigns is assigned as well. -/
def flowFinal (final : List Statement) (before : List String) (after : BodyFlow) : BodyFlow :=
  let afterFinal := (after.setState ⟨before, true⟩).inScope (flowStatements final)
  afterFinal.setState
    ⟨afterFinal.state.assigned.foldl (fun assigned name =>
        if assigned.contains name then assigned else name :: assigned) after.state.assigned,
      after.state.alive && afterFinal.state.alive⟩

theorem onward_flowGuarded {statements : List Statement} {handlers : List CatchClause}
    (f : BodyFlow) (hblock : ∀ f : BodyFlow, f.Onward (flowStatements statements f))
    (hcatches : ∀ before joined (f : BodyFlow), f.Onward (flowCatches handlers before joined f)) :
    f.Onward (flowGuarded statements handlers f) :=
  (onward_handled f _ fun f => (hblock f.enter).leave).trans (hcatches _ _ _)

theorem Statement.flow_trying_none (statements : List Statement) (handlers : List CatchClause)
    (inner span : Span) (f : BodyFlow) :
    (Statement.trying ⟨statements, inner⟩ handlers none span).flow f =
      flowGuarded statements handlers f := by
  simp only [Statement.flow, flowGuarded]

theorem Statement.flow_trying_some (statements final : List Statement)
    (handlers : List CatchClause) (inner last span : Span) (f : BodyFlow) :
    (Statement.trying ⟨statements, inner⟩ handlers (some ⟨final, last⟩) span).flow f =
      flowFinal final f.state.assigned (flowGuarded statements handlers f) := by
  simp only [Statement.flow, flowGuarded, flowFinal]

mutual

/-- **The analysis of a statement takes nothing back, and reports what it notes.** -/
theorem Statement.onward (s : Statement) (f : BodyFlow) : f.Onward (s.flow f) := by
  match s with
  | .block ⟨statements, _⟩ => rw [Statement.flow]; exact (onward_flowStatements statements f.enter).leave
  | .localVariable v =>
    rw [Statement.flow]
    exact (steady_flowOptional v.initializer f).toOnward.trans (onward_declare ..)
  | .expression value _ => rw [Statement.flow]; exact (value.steady f).toOnward
  | .ifThen condition thenBranch none _ =>
    rw [Statement.flow]
    exact ((condition.steady f).toOnward.trans (thenBranch.onward _)).setState _
  | .ifThen condition thenBranch (some elseBranch) _ =>
    rw [Statement.flow]
    have hthen := (condition.steady f).toOnward.trans (thenBranch.onward _)
    exact ((hthen.setState _).trans (elseBranch.onward _)).setState _
  | .whileLoop condition body _ =>
    rw [Statement.flow]
    exact (((condition.steady f).toOnward.trans (body.onward _)).setState _).setAlive _
  | .doLoop body condition _ =>
    rw [Statement.flow]
    exact ((body.onward f).setAlive true).trans (condition.steady _).toOnward
  | .forLoop init condition update body _ =>
    rw [Statement.flow]
    have hhead := (onward_flowInit init f.enter).trans
      (steady_flowOptional condition _).toOnward
    have hbody := (hhead.trans (body.onward _)).setAlive true
    exact ((hbody.trans (steady_flowExprs update _).toOnward).setState _).leave
  | .forEach element collection body _ =>
    rw [Statement.flow]
    have hcollection := (collection.steady f).toOnward
    have hbody := (onward_declare (collection.flow f).enter element.name.name
      element.type.simpleName true).trans (body.onward _)
    exact hcollection.trans ((hbody.setState _).setAlive _).leave
  | .returning value _ =>
    rw [Statement.flow]
    exact (steady_flowOptional value f).toOnward.setAlive false
  | .throwing value span =>
    rw [Statement.flow]
    exact (value.steady f).toOnward.trans (onward_flowThrow value span f)
  | .breaking _ _ | .continuing _ _ => rw [Statement.flow]; exact (Onward.refl f).setAlive false
  | .labeled _ body _ => rw [Statement.flow]; exact (body.onward f).setAlive true
  | .trying ⟨statements, _⟩ handlers none _ =>
    rw [Statement.flow_trying_none]
    exact onward_flowGuarded f (onward_flowStatements statements ·)
      (onward_flowCatches handlers · · ·)
  | .trying ⟨statements, _⟩ handlers (some ⟨final, _⟩) _ =>
    rw [Statement.flow_trying_some]
    have hguarded := onward_flowGuarded f (onward_flowStatements statements ·)
      (onward_flowCatches handlers · · ·)
    exact ((hguarded.setState _).trans (onward_flowStatements final _).leave).setState _
  | .assertion condition message _ =>
    rw [Statement.flow]
    exact ((condition.steady f).toOnward.trans (steady_flowOptional message _).toOnward).setState _
  | .constructorCall _ arguments _ =>
    rw [Statement.flow]
    exact (steady_flowExprs arguments f).toOnward
  | .empty _ => rw [Statement.flow]; exact .refl f

theorem onward_flowStatements (ss : List Statement) (f : BodyFlow) :
    f.Onward (flowStatements ss f) := by
  match ss with
  | [] => rw [flowStatements]; exact .refl f
  | s :: rest =>
    rw [flowStatements]
    exact ((onward_reach f s.span).trans (s.onward _)).trans (onward_flowStatements rest _)

theorem onward_flowInit (ss : List Statement) (f : BodyFlow) : f.Onward (flowInit ss f) := by
  match ss with
  | [] => rw [flowInit]; exact .refl f
  | s :: rest => rw [flowInit]; exact (s.onward f).trans (onward_flowInit rest _)

theorem onward_flowCatches (handlers : List CatchClause) (before : List String)
    (joined : PathState) (f : BodyFlow) : f.Onward (flowCatches handlers before joined f) := by
  match handlers with
  | [] => rw [flowCatches]; exact (Onward.refl f).setState joined
  | ⟨parameter, ⟨statements, _⟩, _⟩ :: rest =>
    rw [flowCatches]
    have hblock := (onward_declare (f.setState ⟨before, true⟩).enter parameter.name.name
      parameter.type.simpleName true).trans (onward_flowStatements statements _).leave
    exact (Onward.of_setState hblock.leave).trans (onward_flowCatches rest _ _ _)

end

/-! ### Units -/

/-- A state in which the analysis of a body may start. -/
structure Body.Starts (b : Body) (f : BodyFlow) : Prop where
  alive : f.state.alive = true
  hasScope : f.scopes ≠ []
  reported : f.reported = []
  known : ∀ name ∈ b.parameters, (f.localType? name).isSome
  assigned : ∀ name ∈ f.state.assigned, name ∈ b.parameters

/-- Whether the diagnostics of a reporter come first among those of a later one. -/
def Reporter.Precedes (r later : Reporter) : Prop :=
  r.diagnostics.toList <+: later.diagnostics.toList

/-- Whether a body is analysed between one reporter and a later one. -/
def Body.Analysed (b : Body) (r later : Reporter) : Prop :=
  ∃ f, b.Starts f ∧ r.Precedes f.reporter ∧ (flowStatements b.statements f).reporter.Precedes later

theorem Reporter.Precedes.refl (r : Reporter) : r.Precedes r := List.prefix_rfl

theorem Reporter.Precedes.trans {r s t : Reporter} (hr : r.Precedes s) (hs : s.Precedes t) :
    r.Precedes t :=
  List.IsPrefix.trans hr hs

theorem BodyFlow.Onward.precedes {f g : BodyFlow} (hf : f.Onward g) :
    f.reporter.Precedes g.reporter := by
  obtain ⟨more, hmore, -⟩ := hf.diagnosed
  exact ⟨more, hmore.symm⟩

theorem Body.Analysed.mono {b : Body} {r s t u : Reporter} (hb : b.Analysed s t)
    (hr : r.Precedes s) (ht : t.Precedes u) : b.Analysed r u := by
  obtain ⟨f, hstarts, hbefore, hafter⟩ := hb
  exact ⟨f, hstarts, hr.trans hbefore, hafter.trans ht⟩

/-- Declaring parameters leads from a state where a body with the earlier ones may start to one
where a body with all of them may start. -/
theorem Body.Starts.foldl_declare {b : Body} {f : BodyFlow} (hf : b.Starts f)
    (parameters : List Parameter) :
    Body.Starts ⟨b.parameters ++ parameters.map (·.name.name), b.statements⟩
      (parameters.foldl (fun f p => f.declare p.name.name p.type.simpleName true) f) := by
  induction parameters generalizing b f with
  | nil => simpa using hf
  | cons p rest ih =>
    have hdeclared : Body.Starts ⟨b.parameters ++ [p.name.name], b.statements⟩
        (f.declare p.name.name p.type.simpleName true) := by
      have honward := onward_declare f p.name.name p.type.simpleName true
      refine ⟨(alive_declare ..).trans hf.alive, honward.hasScope hf.hasScope, hf.reported, ?_, ?_⟩
      · intro name hname
        rcases List.mem_append.1 hname with hname | hname
        · exact honward.known (hf.known name hname)
        · obtain rfl := List.mem_singleton.1 hname
          exact known_declare hf.hasScope true
      · intro name hname
        rw [mem_assigned_declare] at hname
        split at hname
        · simp [*]
        · exact List.mem_append_left _ (hf.assigned name hname)
    have hrest := ih hdeclared
    rwa [List.append_assoc] at hrest

theorem MethodDecl.reporter_bodyFlow (m : MethodDecl) (r : Reporter) :
    (m.bodyFlow r).reporter = r := by
  unfold MethodDecl.bodyFlow
  generalize hf : ({ reporter := r } : BodyFlow) = f
  have hr : f.reporter = r := by rw [← hf]
  clear hf
  induction m.parameters generalizing f with
  | nil => exact hr
  | cons p rest ih => exact ih _ hr

theorem MethodDecl.starts_bodyFlow (m : MethodDecl) (statements : List Statement) (r : Reporter) :
    Body.Starts ⟨m.parameters.map (·.name.name), statements⟩ (m.bodyFlow r) := by
  have hstart : Body.Starts ⟨[], statements⟩ { reporter := r } :=
    ⟨rfl, List.cons_ne_nil _ _, rfl, by simp, by simp⟩
  exact hstart.foldl_declare m.parameters

theorem UnitFlow.precedes_foldr_undeclared (declared : List String) (escapes : List Escape)
    (u : UnitFlow) :
    u.reporter.Precedes (escapes.foldr (UnitFlow.undeclared declared) u).reporter := by
  induction escapes with
  | nil => exact .refl _
  | cons e rest ih =>
    refine ih.trans ?_
    rw [List.foldr_cons]
    generalize rest.foldr (UnitFlow.undeclared declared) u = v
    unfold UnitFlow.undeclared
    split
    · exact .refl _
    · exact ⟨[_], Array.toList_push.symm⟩

/-- The reporter after a method: what its body reports, and then what leaves the body. -/
theorem MethodDecl.flow_reporter (m : MethodDecl) (u : UnitFlow) :
    u.reporter.Precedes (m.flow u).2.reporter ∧
      ∀ b ∈ m.bodies, b.Analysed u.reporter (m.flow u).2.reporter := by
  cases hs : m.statements with
  | none => simp [MethodDecl.flow, MethodDecl.bodies, hs, Reporter.Precedes.refl]
  | some statements =>
    have hafter : (flowStatements statements (m.bodyFlow u.reporter)).reporter.Precedes
        (m.flow u).2.reporter := by
      rw [MethodDecl.flow, hs]
      dsimp only
      split
      · split
        · exact .refl _
        · exact UnitFlow.precedes_foldr_undeclared _ _ (u.gather _)
      · exact UnitFlow.precedes_foldr_undeclared _ _ (u.gather _)
    have hbefore := (onward_flowStatements statements (m.bodyFlow u.reporter)).precedes
    rw [m.reporter_bodyFlow] at hbefore
    refine ⟨hbefore.trans hafter, fun b hb => ?_⟩
    simp only [MethodDecl.bodies, hs, List.mem_singleton] at hb
    subst hb
    refine ⟨_, m.starts_bodyFlow statements u.reporter, ?_, hafter⟩
    rw [m.reporter_bodyFlow]
    exact .refl _

mutual

theorem TypeDecl.flow_reporter (t : TypeDecl) (u : UnitFlow) :
    u.reporter.Precedes (t.flow u).2.reporter ∧
      ∀ b ∈ t.bodies, b.Analysed u.reporter (t.flow u).2.reporter := by
  match t with
  | ⟨_, _, _, _, _, _, _, members, _, _, _, _⟩ =>
    rw [TypeDecl.flow, TypeDecl.bodies]
    exact flowMembers_reporter members u

theorem flowMembers_reporter (ms : List Member) (u : UnitFlow) :
    u.reporter.Precedes (flowMembers ms u).2.reporter ∧
      ∀ b ∈ bodiesOf ms, b.Analysed u.reporter (flowMembers ms u).2.reporter := by
  match ms with
  | [] => simp [flowMembers, bodiesOf, Reporter.Precedes.refl]
  | m :: rest =>
    obtain ⟨hfirst, hbodies⟩ := m.flow_reporter u
    obtain ⟨hrest, hbodies'⟩ := flowMembers_reporter rest (m.flow u).2
    rw [flowMembers, bodiesOf]
    refine ⟨hfirst.trans hrest, fun b hb => ?_⟩
    rcases List.mem_append.1 hb with hb | hb
    · exact (hbodies b hb).mono (.refl _) hrest
    · exact (hbodies' b hb).mono hfirst (.refl _)

theorem Member.flow_reporter (m : Member) (u : UnitFlow) :
    u.reporter.Precedes (m.flow u).2.reporter ∧
      ∀ b ∈ m.bodies, b.Analysed u.reporter (m.flow u).2.reporter := by
  match m with
  | .field _ => simp [Member.flow, Member.bodies, Reporter.Precedes.refl]
  | .method m => rw [Member.flow, Member.bodies]; exact m.flow_reporter u
  | .type t => rw [Member.flow, Member.bodies]; exact t.flow_reporter u
  | .initializer i =>
    rw [Member.flow, Member.bodies]
    have hbody := onward_flowStatements i.block.statements (enter { reporter := u.reporter })
    refine ⟨hbody.precedes, fun b hb => ?_⟩
    obtain rfl := List.mem_singleton.1 hb
    exact ⟨_, ⟨rfl, List.cons_ne_nil _ _, rfl, by simp, by simp [enter]⟩, .refl _, .refl _⟩

end

/-- **Each body of a unit is analysed from a state of its own, and its diagnostics stay.** -/
theorem CompilationUnit.analysed_of_mem (unit : CompilationUnit) (r : Reporter) {b : Body}
    (hb : b ∈ unit.bodies) : b.Analysed r (unit.flow r).2.reporter := by
  have htypes : ∀ (ts : List TypeDecl) (u : UnitFlow),
      u.reporter.Precedes (flowTypes ts u).2.reporter ∧
        ∀ b ∈ ts.flatMap TypeDecl.bodies, b.Analysed u.reporter (flowTypes ts u).2.reporter := by
    intro ts
    induction ts with
    | nil => intro u; simp [flowTypes, Reporter.Precedes.refl]
    | cons t rest ih =>
      intro u
      obtain ⟨hfirst, hbodies⟩ := t.flow_reporter u
      obtain ⟨hrest, hbodies'⟩ := ih (t.flow u).2
      rw [flowTypes, List.flatMap_cons]
      refine ⟨hfirst.trans hrest, fun b hb => ?_⟩
      rcases List.mem_append.1 hb with hb | hb
      · exact (hbodies b hb).mono (.refl _) hrest
      · exact (hbodies' b hb).mono hfirst (.refl _)
  exact (htypes unit.types { reporter := r }).2 b hb

end AspectLang
