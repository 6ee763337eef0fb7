import AspectLang.Proofs.Flow.Occurrences

/-! # Covering

The analysis is compared with the paths through a body, one variable at a time.  A state of the
analysis covers a point of a path if what it counts as assigned is assigned on the path
(`Covers`), and the analysis follows a construct if covering is kept along every path through
it and every evaluation of the variable before its assignment is reported (`Follows`).  It
follows every expression (`Expr.follows`), and every declaration whose initial value does not
evaluate the variable that it is for (`LocalVariable.follows`). -/

namespace AspectLang

/-! ### Covering -/

/-- Whether a state of the analysis allows for the variables assigned on a path to its point, as
far as one variable goes. -/
structure Covers (name : String) (scope : List String) (f : BodyFlow) (path : List String) :
    Prop where
  alive : f.state.alive = true
  hasScope : f.scopes ≠ []
  known : name ∈ scope → (f.localType? name).isSome
  assigned : name ∈ scope → name ∈ f.state.assigned → name ∈ path

/-- Whether a variable in scope that is assigned stays so along given paths. -/
def Paths.Keeps (name : String) (scope : List String) (p : Paths) : Prop :=
  ∀ ⦃before x after⦄, p before x after → name ∈ scope → name ∈ before → name ∈ after

/-- Whether the analysis from `f` to `g` follows given paths, as far as one variable goes. -/
structure Follows (name : String) (scope scope' : List String) (f g : BodyFlow) (p : Paths) :
    Prop where
  keeps : p.Keeps name scope
  covers : ∀ ⦃before after⦄, Covers name scope f before → p before .normal after →
    Covers name scope' g after
  reports : ∀ ⦃before after⦄, Covers name scope f before → p before (.misread name) after →
    name ∈ g.reported

section Covering

variable {name other type : String} {scope scope' scope'' : List String} {f g h : BodyFlow}
  {path before after : List String} {p q : Paths} {span : Span}

theorem Covers.keep (hf : Covers name scope f before)
    (hkeep : name ∈ scope → name ∈ before → name ∈ after) : Covers name scope f after :=
  ⟨hf.alive, hf.hasScope, hf.known, fun hname hassigned => hkeep hname (hf.assigned hname hassigned)⟩

theorem Covers.onward (hf : Covers name scope f path) (hg : f.Onward g)
    (halive : g.state.alive = true)
    (hassigned : name ∈ scope → name ∈ g.state.assigned → name ∈ path) :
    Covers name scope g path :=
  ⟨halive, hg.hasScope hf.hasScope, fun hname => hg.known (hf.known hname), hassigned⟩

/-- A state in which the variables of another one are assigned covers what that one covers. -/
theorem Covers.restore (hf : Covers name scope f path) (hg : f.Onward g)
    (halive : g.state.alive = true)
    (hassigned : name ∈ scope → name ∈ g.state.assigned → name ∈ f.state.assigned) :
    Covers name scope g path :=
  hf.onward hg halive fun hname h => hf.assigned hname (hassigned hname h)

theorem Covers.inScope (hf : Covers name scope f path) (hscope : name ∈ scope' → name ∈ scope) :
    Covers name scope' f path :=
  ⟨hf.alive, hf.hasScope, fun hname => hf.known (hscope hname),
    fun hname => hf.assigned (hscope hname)⟩

theorem Covers.enter (hf : Covers name scope f path) : Covers name scope f.enter path :=
  ⟨hf.alive, List.cons_ne_nil _ _, hf.known, hf.assigned⟩

theorem Covers.leave (hf : Covers name scope f before) (hg : f.enter.Onward g)
    (hcovers : Covers name scope' g after) (hscope : name ∈ scope → name ∈ scope') :
    Covers name scope g.leave after :=
  ⟨hcovers.alive, hg.leave.hasScope hf.hasScope, fun hname => hg.leave.known (hf.known hname),
    fun hname => hcovers.assigned (hscope hname)⟩

/-! ### Following -/

theorem Paths.Keeps.seq (hp : p.Keeps name scope) (hq : q.Keeps name scope')
    (hscope : name ∈ scope → name ∈ scope') : (p.seq q).Keeps name scope := by
  rintro before x after (⟨between, hfirst, hsecond⟩ | ⟨-, hfirst⟩) hname hbefore
  · exact hq hsecond (hscope hname) (hp hfirst hname hbefore)
  · exact hp hfirst hname hbefore

theorem Paths.Keeps.landing (hp : p.Keeps name scope) (lands : Exit → Bool) :
    (p.landing lands).Keeps name scope := by
  rintro before x after ⟨y, hy, -⟩
  exact hp hy

theorem Paths.Keeps.rounds (hp : p.Keeps name scope) : (Paths.rounds p).Keeps name scope := by
  intro before x after h hname hbefore
  induction h with
  | none => exact hbefore
  | next hround _ ih => exact ih (hp hround hname hbefore)
  | last hround _ => exact hp hround hname hbefore

theorem Follows.seq (hp : Follows name scope scope' f g p) (hq : Follows name scope' scope'' g h q)
    (hscope : name ∈ scope → name ∈ scope') (hh : g.Onward h) :
    Follows name scope scope'' f h (p.seq q) where
  keeps := hp.keeps.seq hq.keeps hscope
  covers := by
    rintro before after hf (⟨between, hfirst, hsecond⟩ | ⟨hne, -⟩)
    · exact hq.covers (hp.covers hf hfirst) hsecond
    · exact absurd rfl hne
  reports := by
    rintro before after hf (⟨between, hfirst, hsecond⟩ | ⟨-, hfirst⟩)
    · exact hq.reports (hp.covers hf hfirst) hsecond
    · exact hh.reported (hp.reports hf hfirst)

theorem Follows.either (hp : Follows name scope scope' f g p) (hq : Follows name scope scope' f g q) :
    Follows name scope scope' f g (p.either q) where
  keeps := fun _ _ _ h => h.elim (hp.keeps ·) (hq.keeps ·)
  covers := fun _ _ hf h => h.elim (hp.covers hf) (hq.covers hf)
  reports := fun _ _ hf h => h.elim (hp.reports hf) (hq.reports hf)

theorem Follows.inScope (hp : Follows name scope scope' f g p)
    (hscope : name ∈ scope'' → name ∈ scope') : Follows name scope scope'' f g p :=
  ⟨hp.keeps, fun _ _ hf hpath => (hp.covers hf hpath).inScope hscope, hp.reports⟩

/-- The analysis may start from another state that covers as much. -/
theorem Follows.start (hp : Follows name scope scope' g h p)
    (hstart : ∀ {path}, Covers name scope f path → Covers name scope g path) :
    Follows name scope scope' f h p where
  keeps := hp.keeps
  covers := fun _ _ hf => hp.covers (hstart hf)
  reports := fun _ _ hf => hp.reports (hstart hf)

/-- The analysis may go on with fewer variables assigned. -/
theorem Follows.weaken (hp : Follows name scope scope' f g p) (hh : g.Onward h)
    (halive : g.state.alive = true → h.state.alive = true)
    (hassigned : g.state.alive = true → name ∈ scope' → name ∈ h.state.assigned →
      name ∈ g.state.assigned) :
    Follows name scope scope' f h p where
  keeps := hp.keeps
  covers := by
    intro before after hf hpath
    have hg := hp.covers hf hpath
    exact hg.restore hh (halive hg.alive) (hassigned hg.alive)
  reports := fun _ _ hf hpath => hh.reported (hp.reports hf hpath)

/-- The analysis may go on with the variables that were assigned before. -/
theorem Follows.restore (hp : Follows name scope scope' f g p) (hg : f.Onward g) (hh : g.Onward h)
    (halive : f.state.alive = true → h.state.alive = true)
    (hassigned : name ∈ h.state.assigned → name ∈ f.state.assigned) :
    Follows name scope scope f h p where
  keeps := hp.keeps
  covers := by
    intro before after hf hpath
    have hafter := hf.keep (hp.keeps hpath)
    exact hafter.restore (hg.trans hh) (halive hf.alive) fun _ => hassigned
  reports := fun _ _ hf hpath => hh.reported (hp.reports hf hpath)

/-- What is declared in a scope of its own does not matter behind it. -/
theorem Follows.leave (hp : Follows name scope scope' f.enter g p) (hg : f.enter.Onward g)
    (hscope : name ∈ scope → name ∈ scope') : Follows name scope scope f g.leave p where
  keeps := hp.keeps
  covers := fun _ _ hf hpath => hf.leave hg (hp.covers hf.enter hpath) hscope
  reports := fun _ _ hf hpath => hp.reports hf.enter hpath

theorem follows_halt_normal : Follows name scope scope f f (.halt .normal) where
  keeps := by rintro _ _ _ ⟨-, rfl⟩ - h; exact h
  covers := by rintro _ _ hf ⟨-, rfl⟩; exact hf
  reports := by rintro _ _ - ⟨h, -⟩; cases h

/-- A path that ends by a jump, by an exception or by returning puts no demand on the state. -/
theorem follows_halt {exit : Exit} (hnormal : exit ≠ .normal)
    (hmisread : exit ≠ .misread name) : Follows name scope scope' f g (.halt exit) where
  keeps := by rintro _ _ _ ⟨-, rfl⟩ - h; exact h
  covers := by rintro _ _ - ⟨h, -⟩; exact absurd h.symm hnormal
  reports := by rintro _ _ - ⟨h, -⟩; exact absurd h.symm hmisread

theorem follows_pass : Follows name scope scope f f .pass :=
  follows_halt_normal.either (follows_halt nofun nofun)

theorem follows_assign : Follows name scope scope f (f.assign other) (.assign other) where
  keeps := by rintro _ _ _ ⟨-, rfl⟩ - h; exact List.mem_cons_of_mem _ h
  covers := by
    rintro before _ hf ⟨-, rfl⟩
    have hsteady := BodyFlow.steady_assign f other
    refine (hf.keep fun _ => List.mem_cons_of_mem _).onward hsteady.toOnward
      (hsteady.alive.trans hf.alive) fun hname h => ?_
    rcases BodyFlow.mem_assign h with rfl | h
    · exact List.mem_cons_self
    · exact List.mem_cons_of_mem _ (hf.assigned hname h)
  reports := by rintro _ _ - ⟨h, -⟩; cases h

/-- A local variable that is evaluated while it may be unassigned is reported. -/
theorem reported_use (hknown : (f.localType? name).isSome) (hassigned : name ∉ f.state.assigned) :
    name ∈ (f.use name span).reported := by
  unfold BodyFlow.use
  split
  · rename_i h
    simp only [Bool.or_eq_true, Option.isNone_iff_eq_none, List.contains_iff_mem] at h
    rcases h with (h | h) | h
    · simp [h] at hknown
    · exact absurd h hassigned
    · exact h
  · exact List.mem_cons_self

theorem follows_read : Follows name scope scope f (f.use other span) (.read scope other) where
  keeps := by
    rintro _ _ _ (h | ⟨-, -, rfl⟩) hname hbefore
    · exact (follows_pass (f := f)).keeps h hname hbefore
    · exact hbefore
  covers := by
    rintro before after hf (h | ⟨-, h, -⟩)
    · have hsteady := BodyFlow.steady_use f other span
      refine (follows_pass.covers hf h).restore hsteady.toOnward (hsteady.alive.trans hf.alive) ?_
      rw [BodyFlow.state_use]
      exact fun _ h => h
    · cases h
  reports := by
    rintro before after hf (h | ⟨⟨hscope, hbefore⟩, h, -⟩)
    · rcases h with ⟨h, -⟩ | ⟨h, -⟩ <;> cases h
    · obtain rfl := Exit.misread.inj h
      exact reported_use (hf.known hscope) fun h => hbefore (hf.assigned hscope h)

/-! ### Expressions -/

/-- The analysis does not count what an increment stores. -/
theorem follows_storePaths (e : Expr) : Follows name scope scope f f e.storePaths := by
  unfold Expr.storePaths
  cases e.word? with
  | none => exact follows_pass
  | some word =>
    have hkeeps := (follows_assign : Follows name scope scope f (f.assign word) _).keeps
    exact ⟨hkeeps, fun _ _ hf h => hf.keep (hkeeps h), fun _ _ _ h => nomatch h.1⟩

mutual

theorem Expr.follows (scope : List String) (e : Expr) (f : BodyFlow) :
    Follows name scope scope f (e.flow f) (e.paths scope) := by
  match e with
  | .literal _ _ _ | .this _ | .super _ | .annotationUse _ =>
    rw [Expr.flow, Expr.paths]
    exact follows_pass
  | .name n =>
    rw [Expr.flow, Expr.paths]
    cases n.segments with
    | nil => exact follows_pass
    | cons word _ => exact follows_read
  | .fieldAccess receiver _ _ =>
    rw [Expr.flow, Expr.paths]
    exact (receiver.follows scope f).seq follows_pass id (.refl _)
  | .send none _ arguments _ _ =>
    rw [Expr.flow, Expr.paths]
    exact (follows_flowExprs scope arguments f).seq follows_pass id (.refl _)
  | .send (some receiver) _ arguments _ _ =>
    rw [Expr.flow, Expr.paths]
    exact ((receiver.follows scope f).seq (follows_flowExprs scope arguments _) id
      (steady_flowExprs arguments _).toOnward).seq follows_pass id (.refl _)
  | .new _ arguments _ =>
    rw [Expr.flow, Expr.paths]
    exact (follows_flowExprs scope arguments f).seq follows_pass id (.refl _)
  | .assign target operator value _ =>
    rw [Expr.flow, Expr.paths]
    cases target.word? with
    | none =>
      exact ((target.follows scope f).seq (value.follows scope _) id
        (value.steady _).toOnward).seq follows_pass id (.refl _)
    | some word =>
      refine Follows.seq (Follows.seq ?_ (value.follows scope _) id (value.steady _).toOnward)
        follows_assign id (BodyFlow.steady_assign _ word).toOnward
      split
      · exact target.follows scope f
      · exact follows_pass
  | .binary left operator right _ =>
    rw [Expr.flow_binary, Expr.paths]
    have hright := right.follows scope (left.flow f)
    have hsteady := right.steady (left.flow f)
    split
    · have hshort := hsteady.setAssigned (left.flow f).state.assigned
      refine (left.follows scope f).seq (.either ?_ ?_) id hshort.toOnward
      · exact follows_halt_normal.weaken hshort.toOnward (hshort.alive.trans ·) fun _ _ h => h
      · exact hright.restore hsteady.toOnward (.of_same rfl rfl rfl) (hshort.alive.trans ·)
          fun h => h
    · exact (left.follows scope f).seq (hright.seq follows_pass id (.refl _)) id hsteady.toOnward
  | .unary operator operand _ =>
    rw [Expr.flow, Expr.paths]
    refine (operand.follows scope f).seq ?_ id (.refl _)
    split
    · exact follows_storePaths operand
    · exact follows_pass
  | .conditional condition whenTrue whenFalse _ =>
    rw [Expr.flow, Expr.paths]
    -- `g` is where both values start, and `again` is where the analysis of the second one does.
    have hcondition := condition.follows scope f
    generalize condition.flow f = g at hcondition ⊢
    have hagain := (whenTrue.steady g).setAssigned g.state.assigned
    generalize hstart : (whenTrue.flow g).setAssigned g.state.assigned = again at hagain ⊢
    have hboth := (whenFalse.steady again).setAssigned
      (PathState.meet (whenFalse.flow again).state.assigned (whenTrue.flow g).state.assigned)
    refine hcondition.seq (.either ?_ ?_) id (hagain.trans hboth).toOnward
    · have htrue : (whenTrue.flow g).Onward again := hstart ▸ .of_same rfl rfl rfl
      refine (whenTrue.follows scope g).weaken (htrue.trans hboth.toOnward)
        (fun h => hboth.alive.trans (hstart ▸ h)) fun _ _ h => ?_
      exact List.contains_iff_mem.1 (List.mem_filter.1 h).2
    · have hassigned : again.state.assigned = g.state.assigned := by rw [← hstart]; rfl
      have hfalse := (whenFalse.follows scope again).start (f := g) fun hpath =>
        hpath.restore hagain.toOnward (hagain.alive.trans hpath.alive) fun _ h => hassigned ▸ h
      exact hfalse.weaken (.of_same rfl rfl rfl) (fun h => h) fun _ _ h => (List.mem_filter.1 h).1
  | .instanceOf value _ _ => rw [Expr.flow, Expr.paths]; exact value.follows scope f
  | .paren inner _ => rw [Expr.flow, Expr.paths]; exact inner.follows scope f

theorem follows_flowExprs (scope : List String) (es : List Expr) (f : BodyFlow) :
    Follows name scope scope f (flowExprs es f) (pathsExprs scope es) := by
  match es with
  | [] => rw [flowExprs, pathsExprs]; exact follows_pass
  | e :: rest =>
    rw [flowExprs, pathsExprs]
    exact (e.follows scope f).seq (follows_flowExprs scope rest _) id
      (steady_flowExprs rest _).toOnward

end

theorem follows_flowOptional (scope : List String) (e : Option Expr) (f : BodyFlow) :
    Follows name scope scope f (flowOptional e f) (pathsOptional scope e) := by
  cases e with
  | none => exact follows_pass
  | some e => exact e.follows scope f

theorem follows_exitPaths (scope : List String) (condition : Option Expr) (f : BodyFlow) :
    Follows name scope scope f (flowOptional condition f) (exitPaths scope condition) := by
  cases condition with
  | none => exact ⟨fun _ _ _ h => h.elim, fun _ _ _ h => h.elim, fun _ _ _ h => h.elim⟩
  | some condition => exact condition.follows scope f

/-! ### Declarations -/

/-- Whether no initial value evaluates the variable it is for. -/
def LocalVariable.followed (name : String) (v : LocalVariable) : Bool :=
  match v.initializer with
  | some value => v.name.name != name || !value.reads name
  | none => true

theorem Covers.declare {assigned : Bool} (hf : Covers name scope f before)
    (hscope : name ∈ scope' → name = other ∨ name ∈ scope)
    (hnew : name = other → assigned = true → name ∈ after)
    (hkeep : name ≠ other → name ∈ before → name ∈ after) :
    Covers name scope' (f.declare other type assigned) after where
  alive := (BodyFlow.alive_declare ..).trans hf.alive
  hasScope := (BodyFlow.onward_declare ..).hasScope hf.hasScope
  known := by
    intro hname
    rcases hscope hname with rfl | hname
    · exact BodyFlow.known_declare hf.hasScope _
    · exact (BodyFlow.onward_declare ..).known (hf.known hname)
  assigned := by
    intro hname h
    rw [BodyFlow.mem_assigned_declare] at h
    split at h
    · exact hnew ‹_› h
    · rename_i hne
      exact hkeep hne (hf.assigned ((hscope hname).resolve_left hne) h)

/-- A variable that is declared with a value. -/
theorem follows_declare (hscope : name ∈ scope' → name = other ∨ name ∈ scope) :
    Follows name scope scope' f (f.declare other type true) (.assign other) where
  keeps := by rintro _ _ _ ⟨-, rfl⟩ - h; exact List.mem_cons_of_mem _ h
  covers := by
    rintro before _ hf ⟨-, rfl⟩
    exact hf.declare hscope (fun h _ => h ▸ List.mem_cons_self) fun _ => List.mem_cons_of_mem _
  reports := by rintro _ _ - ⟨h, -⟩; cases h

theorem keeps_create (hne : name ∈ scope → name ≠ other) :
    (Paths.create other).Keeps name scope := by
  rintro before _ _ ⟨-, rfl⟩ hname hbefore
  exact List.mem_filter.2 ⟨hbefore, by simpa using hne hname⟩

theorem LocalVariable.follows (v : LocalVariable) (f : BodyFlow) (hfresh : v.name.name ∉ scope)
    (hfollowed : v.followed name = true) :
    Follows name scope (v.name.name :: scope) f
      ((flowOptional v.initializer f).declare v.name.name v.type.simpleName v.initializer.isSome)
      (v.paths scope) := by
  have hkeeps : (Paths.create v.name.name).Keeps name scope :=
    keeps_create fun hname h => hfresh (h ▸ hname)
  unfold LocalVariable.followed at hfollowed
  unfold LocalVariable.paths
  cases hinit : v.initializer with
  | none =>
    refine ⟨hkeeps, ?_, by rintro _ _ - ⟨h, -⟩; cases h⟩
    rintro before _ hf ⟨-, rfl⟩
    refine hf.declare List.mem_cons.1 (fun _ h => nomatch h) fun hne hbefore => ?_
    exact List.mem_filter.2 ⟨hbefore, by simpa using hne⟩
  | some value =>
    by_cases hown : name = v.name.name
    · -- The analysis does not know the variable yet, so the initial value must not evaluate it.
      subst hown
      refine ⟨fun _ _ _ _ hname => absurd hname hfresh, ?_, ?_⟩
      · rintro before after hf (⟨between, -, -, rfl⟩ | ⟨h, -⟩)
        · have hvalue := hf.onward (value.steady f).toOnward
            ((value.steady f).alive.trans hf.alive) fun hname => absurd hname hfresh
          exact hvalue.declare List.mem_cons.1 (fun _ _ => List.mem_cons_self)
            fun hne => absurd rfl hne
        · exact absurd rfl h
      · rintro before after - (⟨between, -, h, -⟩ | ⟨-, ⟨between, -, h⟩ | ⟨-, h, -⟩⟩)
        · cases h
        · have hreads : value.reads v.name.name = true := value.ends _ h
          simp [hinit, hreads] at hfollowed
        · cases h
    · have hcreate : Follows name scope (v.name.name :: scope) f f (.create v.name.name) := by
        refine ⟨hkeeps, ?_, by rintro _ _ - ⟨h, -⟩; cases h⟩
        rintro before after hf ⟨hnormal, hafter⟩
        refine (hf.keep (hkeeps ⟨hnormal, hafter⟩)).inScope fun hname => ?_
        exact (List.mem_cons.1 hname).resolve_left hown
      exact ((hcreate.seq (value.follows _ f) (List.mem_cons_of_mem _)
        (value.steady f).toOnward).seq (follows_declare .inr) (List.mem_cons_of_mem _)
          (BodyFlow.onward_declare ..))

end Covering

end AspectLang
