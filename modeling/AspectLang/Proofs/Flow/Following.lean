import AspectLang.Proofs.Flow.Covering

/-! # Following loops and handlers

What the analysis has to do with a loop, with jumps that land behind a statement and with a
`try` block to follow the paths through them, given that it follows their parts.  Behind a loop
that tests first it goes on from the state at the head of the loop, which covers every way out
of the loop (`Rejoins`).  Behind other statements it goes on from their normal end, which covers
a jump that lands there only if the jump skips no assignment (`covers_landing`). -/

namespace AspectLang

section Following

variable {name other type : String} {scope scope' scope'' : List String} {f g h : BodyFlow}
  {path before after : List String} {p q : Paths} {span : Span}

/-! ### Loops -/

/-- Whether the analysis from `f` to `g` follows given paths, and goes on from a state that
covers the ends of those that leave by a jump as well. -/
structure Rejoins (name : String) (scope scope' : List String) (f g : BodyFlow) (p : Paths) : Prop
    extends Follows name scope scope' f g p where
  jumps : ∀ ⦃before x after⦄, Covers name scope f before → p before x after → x.isJump = true →
    Covers name scope' g after

theorem Rejoins.seq (hp : Follows name scope scope' f g p) (hends : p.Ends (Exit.Among []))
    (hq : Rejoins name scope' scope'' g h q) (hscope : name ∈ scope → name ∈ scope')
    (hh : g.Onward h) : Rejoins name scope scope'' f h (p.seq q) where
  toFollows := hp.seq hq.toFollows hscope hh
  jumps := by
    rintro before x after hf (⟨between, hfirst, hsecond⟩ | ⟨-, hfirst⟩) hjump
    · exact hq.jumps (hp.covers hf hfirst) hsecond hjump
    · exact absurd (hends hfirst hjump) List.not_mem_nil

theorem Rejoins.leave (hp : Rejoins name scope scope' f.enter g p) (hg : f.enter.Onward g)
    (hscope : name ∈ scope → name ∈ scope') : Rejoins name scope scope f g.leave p where
  toFollows := hp.toFollows.leave hg hscope
  jumps := fun _ _ _ hf hpath hjump => hf.leave hg (hp.jumps hf.enter hpath hjump) hscope

/-- However rounds end, there was none, or the last one started covered by what covered the first
start. -/
theorem exists_round {x : Exit} (hp : p.Keeps name scope)
    (hrounds : Paths.rounds p before x after) (hf : Covers name scope f before) :
    (x = .normal ∧ after = before) ∨ ∃ between, Covers name scope f between ∧ p between x after := by
  induction hrounds with
  | none => exact .inl ⟨rfl, rfl⟩
  | next hround _ ih =>
    rcases ih (hf.keep (hp hround)) with ⟨rfl, rfl⟩ | hlast
    · exact .inr ⟨_, hf, hround⟩
    · exact .inr hlast
  | last hround _ => exact .inr ⟨_, hf, hround⟩

theorem Exit.isJump_of_endsRound {labels : List String} {x : Exit}
    (hx : x.endsRound labels = true) : x.isJump = true := by
  cases x <;> first | rfl | cases hx

theorem Exit.isJump_of_endsLoop {x : Exit} (hx : x.endsLoop = true) : x.isJump = true := by
  cases x <;> first | rfl | cases hx

theorem Exit.isJump_of_endsLabeled {label : String} {x : Exit}
    (hx : x.endsLabeled label = true) : x.isJump = true := by
  cases x <;> first | rfl | cases hx

/-- An exit that landed was normal before, or it is one of those that land. -/
theorem landed_cases {lands : Exit → Bool} (h : p.landing lands before .normal after) :
    p before .normal after ∨ ∃ x, p before x after ∧ lands x = true := by
  obtain ⟨x, hx, hnormal⟩ := h
  cases hlands : lands x with
  | true => exact .inr ⟨x, hx, hlands⟩
  | false => simp only [hlands] at hnormal; exact .inl (hnormal ▸ hx)

/-- Whether the analysis, from `f` before a loop to `g` behind it, follows the rounds of the loop:
a jump out of a round finds itself covered behind the loop. -/
structure FollowsRounds (name : String) (scope : List String) (f g : BodyFlow) (round : Paths) :
    Prop where
  keeps : round.Keeps name scope
  jumps : ∀ ⦃before x after⦄, Covers name scope f before → round before x after →
    x.isJump = true → Covers name scope g after
  reports : ∀ ⦃before after⦄, Covers name scope f before → round before (.misread name) after →
    name ∈ g.reported

/-- Rounds that go through `head`, `body` and `tail`.  The analysis goes on behind the loop from
the state `h` between the first two, and it looks at the tail from a state `t` that covers the
ends of the body. -/
theorem followsRounds_of_parts {b t u : BodyFlow} {inner labels : List String}
    {head body tail : Paths} (hhead : Follows name scope inner f h head)
    (hbody : Follows name inner scope' h b body) (htail : Follows name inner scope'' t u tail)
    (hends : head.Ends (Exit.Among []) ∧ tail.Ends (Exit.Among []))
    (hscope : name ∈ scope → name ∈ inner)
    (hland : ∀ ⦃before x after⦄, Covers name inner h before → body before x after →
      x = .normal ∨ x.endsRound labels = true → Covers name inner t after)
    (hcovers : ∀ ⦃path⦄, Covers name inner h path → Covers name scope g path)
    (hreported : h.reported ⊆ g.reported ∧ b.reported ⊆ g.reported ∧ u.reported ⊆ g.reported) :
    FollowsRounds name scope f g
      (head.seq ((body.landing (Exit.endsRound labels)).seq tail)) where
  keeps := hhead.keeps.seq ((hbody.keeps.landing _).seq htail.keeps id) hscope
  jumps := by
    rintro before x after hf (⟨start, hfirst, hrest⟩ | ⟨-, hfirst⟩) hjump
    · rcases hrest with ⟨between, -, hlast⟩ | ⟨hx, hlanding⟩
      · exact absurd (hends.2 hlast hjump) List.not_mem_nil
      · have hpath := (Paths.landing_of_ne hlanding hx).1
        exact hcovers ((hhead.covers hf hfirst).keep (hbody.keeps hpath))
    · exact absurd (hends.1 hfirst hjump) List.not_mem_nil
  reports := by
    rintro before after hf (⟨start, hfirst, hrest⟩ | ⟨-, hfirst⟩)
    · have hstart := hhead.covers hf hfirst
      rcases hrest with ⟨between, hlanding, hlast⟩ | ⟨hx, hlanding⟩
      · rcases landed_cases hlanding with hpath | ⟨x, hpath, hlands⟩
        · exact hreported.2.2 (htail.reports (hland hstart hpath (.inl rfl)) hlast)
        · exact hreported.2.2 (htail.reports (hland hstart hpath (.inr hlands)) hlast)
      · exact hreported.2.1 (hbody.reports hstart (Paths.landing_of_ne hlanding hx).1)
    · exact hreported.1 (hhead.reports hf hfirst)

/-- A loop is followed if its rounds and its exit are, and so are the jumps out of it. -/
theorem FollowsRounds.rejoins {round exit : Paths} (hround : FollowsRounds name scope f g round)
    (hexit : Follows name scope scope f g exit) (hends : exit.Ends (Exit.Among [])) :
    Rejoins name scope scope f g (((Paths.rounds round).seq exit).landing Exit.endsLoop) := by
  have hwhole : ∀ ⦃before x after⦄, Covers name scope f before →
      ((Paths.rounds round).seq exit) before x after → x = .normal ∨ x.isJump = true →
      Covers name scope g after := by
    rintro before x after hf (⟨between, hrounds, hlast⟩ | ⟨hx, hrounds⟩) hend
    · rcases hend with rfl | hjump
      · exact hexit.covers (hf.keep (hround.keeps.rounds hrounds)) hlast
      · exact absurd (hends hlast hjump) List.not_mem_nil
    · rcases exists_round hround.keeps hrounds hf with ⟨h, -⟩ | ⟨between, hbetween, hlast⟩
      · exact absurd h hx
      · exact hround.jumps hbetween hlast (hend.resolve_left hx)
  refine ⟨⟨(hround.keeps.rounds.seq hexit.keeps id).landing _, ?_, ?_⟩, ?_⟩
  · intro before after hf hpath
    rcases landed_cases hpath with hpath | ⟨x, hpath, hlands⟩
    · exact hwhole hf hpath (.inl rfl)
    · exact hwhole hf hpath (.inr (Exit.isJump_of_endsLoop hlands))
  · intro before after hf hpath
    rcases (Paths.landing_of_ne hpath nofun).1 with ⟨between, hrounds, hlast⟩ | ⟨-, hrounds⟩
    · exact hexit.reports (hf.keep (hround.keeps.rounds hrounds)) hlast
    · rcases exists_round hround.keeps hrounds hf with ⟨h, -⟩ | ⟨between, hbetween, hlast⟩
      · cases h
      · exact hround.reports hbetween hlast
  · intro before x after hf hpath hjump
    have hx : x ≠ .normal := by rintro rfl; cases hjump
    exact hwhole hf (Paths.landing_of_ne hpath hx).1 (.inr hjump)

/-- What a loop that tests first leads to: what is assigned at its head. -/
theorem rejoins_whileLoop {labels : List String} {condition : Expr} {body : Statement}
    (hbody : Follows name scope scope' (condition.flow f) (body.flow (condition.flow f))
      (body.paths scope [])) :
    Rejoins name scope scope f ((Statement.whileLoop condition body span).flow f)
      ((Statement.whileLoop condition body span).paths scope labels) := by
  rw [Statement.flow, Statement.paths, Paths.loop]
  have hhead : Follows name scope scope f (condition.flow f) (condition.paths scope) :=
    condition.follows scope f
  generalize condition.flow f = h at *
  have hafter := ((body.onward h).setState h.state).setAlive true
  refine (followsRounds_of_parts hhead hbody follows_pass ⟨(condition.ends scope).among,
    ends_pass_among⟩ id ?_ ?_ ⟨hafter.reported, fun _ h => h, hafter.reported⟩).rejoins ?_
      (condition.ends scope).among
  · exact fun before x after hf hpath _ => hf.keep (hbody.keeps hpath)
  · exact fun path hpath => hpath.restore hafter rfl fun _ h => h
  · exact hhead.weaken hafter (fun _ => rfl) fun _ _ h => h

theorem rejoins_forEach {labels : List String} {element : LocalVariable} {collection : Expr}
    {body : Statement} (hfresh : element.name.name ∉ scope)
    (hbody : ∀ f, Follows name (element.name.name :: scope) scope' f (body.flow f)
      (body.paths (element.name.name :: scope) [])) :
    Rejoins name scope scope f ((Statement.forEach element collection body span).flow f)
      ((Statement.forEach element collection body span).paths scope labels) := by
  rw [Statement.flow, Statement.paths, Paths.loop]
  have hcollection : Follows name scope scope f (collection.flow f) (collection.paths scope) :=
    collection.follows scope f
  generalize collection.flow f = g at *
  have hdeclare := BodyFlow.onward_declare g.enter element.name.name element.type.simpleName true
  generalize hh : g.enter.declare element.name.name element.type.simpleName true = h at *
  have hhead : Follows name scope (element.name.name :: scope) g.enter h
      (.assign element.name.name) := hh ▸ follows_declare List.mem_cons.1
  have hafter := ((body.onward h).setState h.state).setAlive true
  have hexit : Follows name scope scope g.enter (((body.flow h).setState h.state).setAlive true)
      .pass := by
    refine follows_pass.weaken (hdeclare.trans hafter) (fun _ => rfl) fun _ hname h' => ?_
    change name ∈ h.state.assigned at h'
    have hne : name ≠ element.name.name := by rintro rfl; exact hfresh hname
    rwa [← hh, BodyFlow.mem_assigned_declare, if_neg hne] at h'
  refine .seq hcollection (collection.ends scope).among
    ((FollowsRounds.rejoins ?_ hexit ends_pass_among).leave (hdeclare.trans hafter) id) id
    (hdeclare.trans hafter).leave
  refine followsRounds_of_parts hhead (hbody h) follows_pass ⟨ends_assign_among, ends_pass_among⟩
    (List.mem_cons_of_mem _) ?_ ?_ ⟨hafter.reported, fun _ h => h, hafter.reported⟩
  · exact fun before x after hf hpath _ => hf.keep ((hbody h).keeps hpath)
  · exact fun path hpath =>
      (hpath.restore hafter rfl fun _ h => h).inScope (List.mem_cons_of_mem _)

/-- The end of a statement is covered whether it is reached normally or by a jump that lands there,
unless the jump skips an assignment. -/
theorem covers_landing {x : Exit} {lands : Exit → Bool} {labels : List String} {body : Statement}
    (hjump : lands x = true → x.isJump = true) (hfresh : body.fresh scope = true)
    (hskip : (∀ x ∈ body.jumps labels, lands x = false) ∨ body.assigns name = false)
    (hbody : Follows name scope scope' f (body.flow f) (body.paths scope labels))
    (hscope : name ∈ scope → name ∈ scope') (hf : Covers name scope f before)
    (hpath : body.paths scope labels before x after) (hx : x = .normal ∨ lands x = true) :
    Covers name scope ((body.flow f).setAlive true) after := by
  rcases hx with rfl | hlands
  · exact ((hbody.covers hf hpath).inScope hscope).restore (.of_same rfl rfl rfl) rfl fun _ h => h
  · rcases hskip with hnone | hassigns
    · rw [hnone x (body.ends scope labels hpath (hjump hlands))] at hlands
      cases hlands
    · refine (hf.keep (hbody.keeps hpath)).restore ((body.onward f).setAlive true) rfl ?_
      exact fun hname h => body.mem_assigned_of_flow hname f hfresh hassigns h

/-- A loop with a tail.  What `continue` skips must not matter to the tail: either there is no
tail, or no such jump, or the body does not assign the variable. -/
theorem rejoins_forLoop {labels : List String} (condition : Option Expr) {update : List Expr}
    {body : Statement} (hfresh : body.fresh scope = true)
    (hskip : update = [] ∨ (∀ x ∈ body.jumps [], x.endsRound labels = false) ∨
      body.assigns name = false)
    (hbody : ∀ f, Follows name scope scope' f (body.flow f) (body.paths scope []))
    (hscope : name ∈ scope → name ∈ scope') (f : BodyFlow) :
    Rejoins name scope scope f
      ((flowExprs update ((body.flow (flowOptional condition f)).setAlive true)).setState
        (flowOptional condition f).state)
      (.loop labels (pathsOptional scope condition) (body.paths scope []) (pathsExprs scope update)
        (exitPaths scope condition)) := by
  have hhead : Follows name scope scope f (flowOptional condition f)
      (pathsOptional scope condition) := follows_flowOptional scope condition f
  have hheadEnds : (pathsOptional scope condition).Ends (Exit.Among []) :=
    ends_pathsOptional scope condition
  have hexit : Follows name scope scope f (flowOptional condition f)
      (exitPaths scope condition) := follows_exitPaths scope condition f
  generalize flowOptional condition f = h at *
  have hupdate := (steady_flowExprs update ((body.flow h).setAlive true)).toOnward
  have hend : (body.flow h).Onward
      ((flowExprs update ((body.flow h).setAlive true)).setState h.state) :=
    ((BodyFlow.Onward.refl _).setAlive true).trans (hupdate.setState h.state)
  have hafter := (body.onward h).trans hend
  have hcovers : ∀ ⦃path⦄, Covers name scope h path → Covers name scope
      ((flowExprs update ((body.flow h).setAlive true)).setState h.state) path :=
    fun path hpath => hpath.restore hafter hpath.alive fun _ h => h
  rw [Paths.loop]
  refine FollowsRounds.rejoins ?_ (hexit.weaken hafter (fun h => h) fun _ _ h => h)
    (ends_exitPaths scope condition)
  rcases hskip with rfl | hskip
  · rw [pathsExprs]
    exact followsRounds_of_parts hhead (hbody h) follows_pass ⟨hheadEnds, ends_pass_among⟩ id
      (fun _ _ _ hf hpath _ => hf.keep ((hbody h).keeps hpath)) hcovers
      ⟨hafter.reported, hend.reported, hafter.reported⟩
  · exact followsRounds_of_parts hhead (hbody h) (follows_flowExprs scope update _)
      ⟨hheadEnds, (ends_pathsExprs scope update).among⟩ id
      (fun _ _ _ hf hpath hx => covers_landing Exit.isJump_of_endsRound hfresh hskip (hbody h)
        hscope hf hpath hx) hcovers ⟨hafter.reported, hend.reported, fun _ h => h⟩

/-- A loop with a tail, in the scope of the variables it declares. -/
theorem follows_forLoop {labels : List String} {init : List Statement} {condition : Option Expr}
    {update : List Expr} {body : Statement}
    (hinit : Follows name scope (init.foldl Statement.scopeAfter scope) f.enter
      (flowInit init f.enter) (pathsStatements scope init))
    (hfresh : body.fresh (init.foldl Statement.scopeAfter scope) = true)
    (hskip : update = [] ∨ (∀ x ∈ body.jumps [], x.endsRound labels = false) ∨
      body.assigns name = false)
    (hbody : ∀ f, Follows name (init.foldl Statement.scopeAfter scope) scope' f (body.flow f)
      (body.paths (init.foldl Statement.scopeAfter scope) []))
    (hscope : name ∈ init.foldl Statement.scopeAfter scope → name ∈ scope') :
    Follows name scope scope f ((Statement.forLoop init condition update body span).flow f)
        ((Statement.forLoop init condition update body span).paths scope labels) ∧
      (jumpsOf init = [] →
        Rejoins name scope scope f ((Statement.forLoop init condition update body span).flow f)
          ((Statement.forLoop init condition update body span).paths scope labels)) := by
  rw [Statement.flow, Statement.paths]
  have hends := ends_pathsStatements scope init
  have honward := onward_flowInit init f.enter
  generalize flowInit init f.enter = g at *
  have hloop := rejoins_forLoop condition hfresh hskip hbody hscope g
  have honward' := (steady_flowOptional condition g).toOnward.trans
    ((((body.onward (flowOptional condition g)).setAlive true).trans
      (steady_flowExprs update _).toOnward).setState (flowOptional condition g).state)
  constructor
  · exact (hinit.seq hloop.toFollows (mem_foldl_scopeAfter · init) honward').leave
      (honward.trans honward') (mem_foldl_scopeAfter · init)
  · intro hnone
    rw [hnone] at hends
    exact (Rejoins.seq hinit hends hloop (mem_foldl_scopeAfter · init) honward').leave
      (honward.trans honward') (mem_foldl_scopeAfter · init)

/-- However a loop of at least one round ends, its last round started covered by what covered the
first start. -/
theorem exists_last_round {x : Exit} (hp : p.Keeps name scope)
    (hpath : (p.seq (.rounds p)) before x after) (hf : Covers name scope f before) :
    ∃ between, Covers name scope f between ∧ p between x after := by
  rcases hpath with ⟨between, hfirst, hrounds⟩ | ⟨-, hfirst⟩
  · rcases exists_round hp hrounds (hf.keep (hp hfirst)) with ⟨rfl, rfl⟩ | hlast
    · exact ⟨before, hf, hfirst⟩
    · exact hlast
  · exact ⟨before, hf, hfirst⟩

section DoLoop

variable {labels : List String} {condition : Expr} {body : Statement}

/-- A round of a loop that tests last. -/
theorem follows_doRound (hfresh : body.fresh scope = true)
    (hskip : (∀ x ∈ body.jumps [], x.endsRound labels = false) ∨ body.assigns name = false)
    (hbody : Follows name scope scope' f (body.flow f) (body.paths scope []))
    (hscope : name ∈ scope → name ∈ scope') :
    Follows name scope scope f (condition.flow ((body.flow f).setAlive true))
      (((body.paths scope []).landing (Exit.endsRound labels)).seq (condition.paths scope)) := by
  have hland : Follows name scope scope f ((body.flow f).setAlive true)
      ((body.paths scope []).landing (Exit.endsRound labels)) := by
    refine ⟨hbody.keeps.landing _, fun before after hf hpath => ?_, fun before after hf hpath => ?_⟩
    · rcases landed_cases hpath with hpath | ⟨x, hpath, hlands⟩
      · exact covers_landing Exit.isJump_of_endsRound hfresh hskip hbody hscope hf hpath (.inl rfl)
      · exact covers_landing Exit.isJump_of_endsRound hfresh hskip hbody hscope hf hpath
          (.inr hlands)
    · exact hbody.reports hf (Paths.landing_of_ne hpath nofun).1
  exact hland.seq (condition.follows scope _) id (condition.steady _).toOnward

/-- A jump behind a loop that tests last is covered if the loop does not assign the variable. -/
theorem covers_doBreak {x : Exit} (hfresh : body.fresh scope = true)
    (hskip : (∀ x ∈ body.jumps [], x.endsLoop = false) ∨
      (body.assigns name = false ∧ condition.assigns name = false))
    (hbody : Follows name scope scope' f (body.flow f) (body.paths scope []))
    (hf : Covers name scope f before)
    (hpath : (((body.paths scope []).landing (Exit.endsRound labels)).seq (condition.paths scope))
      before x after) (hends : x.endsLoop = true) :
    Covers name scope (condition.flow ((body.flow f).setAlive true)) after := by
  have hjump := Exit.isJump_of_endsLoop hends
  rcases hpath with ⟨between, -, hlast⟩ | ⟨hx, hlanding⟩
  · have hnone : x ∈ [] := (condition.ends scope).among hlast hjump
    exact absurd hnone List.not_mem_nil
  · have hpath := (Paths.landing_of_ne hlanding hx).1
    rcases hskip with hnone | ⟨hassigns, hassigns'⟩
    · rw [hnone x (body.ends scope [] hpath hjump)] at hends
      cases hends
    · have htest := condition.steady ((body.flow f).setAlive true)
      refine (hf.keep (hbody.keeps hpath)).restore
        (((body.onward f).setAlive true).trans htest.toOnward) htest.alive fun hname h => ?_
      have h := condition.mem_assigned_of_flow _ hassigns' h
      exact body.mem_assigned_of_flow hname f hfresh hassigns h

/-- A loop that tests last.  What a jump to its end skips must not matter: either there is no
such jump, or the loop does not assign the variable. -/
theorem follows_doLoop (hfresh : body.fresh scope = true)
    (hskip : (∀ x ∈ body.jumps [], x.endsRound labels = false ∧ x.endsLoop = false) ∨
      (body.assigns name = false ∧ condition.assigns name = false))
    (hbody : Follows name scope scope' f (body.flow f) (body.paths scope []))
    (hscope : name ∈ scope → name ∈ scope') :
    Follows name scope scope f ((Statement.doLoop body condition span).flow f)
      ((Statement.doLoop body condition span).paths scope labels) := by
  rw [Statement.flow, Statement.paths]
  have hround : Follows name scope scope f (condition.flow ((body.flow f).setAlive true))
      (((body.paths scope []).landing (Exit.endsRound labels)).seq (condition.paths scope)) :=
    follows_doRound hfresh (hskip.imp (fun h x hx => (h x hx).1) And.left) hbody hscope
  refine ⟨(hround.keeps.seq hround.keeps.rounds id).landing _, fun before after hf hpath => ?_,
    fun before after hf hpath => ?_⟩
  · rcases landed_cases hpath with hpath | ⟨x, hpath, hends⟩
    · obtain ⟨between, hbetween, hlast⟩ := exists_last_round hround.keeps hpath hf
      exact hround.covers hbetween hlast
    · obtain ⟨between, hbetween, hlast⟩ := exists_last_round hround.keeps hpath hf
      exact covers_doBreak hfresh (hskip.imp_left fun h x hx => (h x hx).2) hbody hbetween hlast
        hends
  · have hpath := (Paths.landing_of_ne hpath nofun).1
    obtain ⟨between, hbetween, hlast⟩ := exists_last_round hround.keeps hpath hf
    exact hround.reports hbetween hlast

end DoLoop

/-! ### Exceptions -/

theorem PathState.alive_join_left {a b : PathState} (ha : a.alive = true) :
    (a.join b).alive = true := by
  unfold PathState.join
  grind

theorem PathState.alive_join_right {a b : PathState} (hb : b.alive = true) :
    (a.join b).alive = true := by
  unfold PathState.join
  grind

theorem PathState.mem_join_left {a b : PathState} (ha : a.alive = true)
    (h : name ∈ (a.join b).assigned) : name ∈ a.assigned := by
  unfold PathState.join PathState.meet at h
  grind

theorem PathState.mem_join_right {a b : PathState} (hb : b.alive = true)
    (h : name ∈ (a.join b).assigned) : name ∈ b.assigned := by
  unfold PathState.join PathState.meet at h
  grind

/-- Behind the handlers there is a path if there was one before. -/
theorem alive_flowCatches {handlers : List CatchClause} {joined : PathState}
    (hjoined : joined.alive = true) :
    (flowCatches handlers before joined f).state.alive = true := by
  induction handlers generalizing joined f with
  | nil => rw [flowCatches]; exact hjoined
  | cons c rest ih =>
    obtain ⟨parameter, ⟨statements, inner⟩, span⟩ := c
    rw [flowCatches]
    exact ih (PathState.alive_join_left hjoined)

/-- Behind the handlers no more is assigned than before, if there was a path. -/
theorem mem_flowCatches {handlers : List CatchClause} {joined : PathState}
    (hjoined : joined.alive = true)
    (hname : name ∈ (flowCatches handlers before joined f).state.assigned) :
    name ∈ joined.assigned := by
  induction handlers generalizing joined f with
  | nil => rwa [flowCatches] at hname
  | cons c rest ih =>
    obtain ⟨parameter, ⟨statements, inner⟩, span⟩ := c
    rw [flowCatches] at hname
    exact PathState.mem_join_left hjoined (ih (PathState.alive_join_left hjoined) hname)

theorem Follows.catching (hp : Follows name scope scope' f g p)
    (hq : Follows name scope scope' f g q) : Follows name scope scope' f g (p.catching q) := by
  refine hp.either ⟨?_, ?_, ?_⟩
  · rintro before x after ⟨between, hthrown, hcaught⟩ hname hbefore
    exact hq.keeps hcaught hname (hp.keeps hthrown hname hbefore)
  · rintro before after hf ⟨between, hthrown, hcaught⟩
    exact hq.covers (hf.keep (hp.keeps hthrown)) hcaught
  · rintro before after hf ⟨between, hthrown, hcaught⟩
    exact hq.reports (hf.keep (hp.keeps hthrown)) hcaught

/-- A final block starts from what was assigned before the whole statement, and what it assigns
is assigned as well. -/
theorem Follows.finishing {final : List Statement} (hp : Follows name scope scope f g p)
    (hg : f.Onward g)
    (hfinal : ∀ f, Follows name scope scope f (f.inScope (flowStatements final)) q) :
    Follows name scope scope f (flowFinal final f.state.assigned g) (p.finishing q) := by
  have hq : Follows name scope scope f
      ((g.setState ⟨f.state.assigned, true⟩).inScope (flowStatements final)) q :=
    (hfinal _).start fun hpath => hpath.restore (hg.setState _) rfl fun _ h => h
  have honward : g.Onward ((g.setState ⟨f.state.assigned, true⟩).inScope (flowStatements final)) :=
    .of_setState (onward_flowStatements final _).leave
  unfold flowFinal
  generalize (g.setState ⟨f.state.assigned, true⟩).inScope (flowStatements final) = h at *
  refine ⟨?_, ?_, ?_⟩
  · rintro before x after (⟨y, between, z, ⟨hy, -⟩, hz, -⟩ | ⟨_, -, hpath⟩) hname hbefore
    · exact hq.keeps hz hname (hp.keeps hy hname hbefore)
    · exact hp.keeps hpath hname hbefore
  · rintro before after hf (⟨y, between, z, ⟨hy, -⟩, hz, hx⟩ | ⟨_, hx, -⟩)
    · split at hx
      · subst hx
        rename_i hnormal
        subst hnormal
        have hbetween := hp.covers hf hy
        have hafter := hq.covers (hf.keep (hp.keeps hy)) hz
        refine hafter.onward (.of_same rfl rfl rfl) ?_ fun hname h => ?_
        · exact Bool.and_eq_true_iff.2 ⟨hbetween.alive, hafter.alive⟩
        · rcases mem_foldl_insert.1 h with h | h
          · exact hq.keeps hz hname (hbetween.assigned hname h)
          · exact hafter.assigned hname h
      · exact absurd hx.symm ‹_›
    · cases hx
  · rintro before after hf (⟨y, between, z, ⟨hy, hread⟩, hz, hx⟩ | ⟨_, -, hpath⟩)
    · split at hx
      · exact absurd hx.symm (hread name)
      · subst hx
        exact hq.reports (hf.keep (hp.keeps hy)) hz
    · exact honward.reported (hp.reports hf hpath)

theorem Follows.handled {caught : List String} {inner : BodyFlow → BodyFlow}
    (hinner : ∀ f, Follows name scope scope' f (inner f) p) :
    Follows name scope scope' f (f.handled caught inner) p := by
  have hp := hinner { f with handlers := caught :: f.handlers }
  refine ⟨hp.keeps, fun before after hf hpath => ?_, fun before after hf hpath => ?_⟩
  · have hafter := hp.covers ⟨hf.alive, hf.hasScope, hf.known, hf.assigned⟩ hpath
    exact ⟨hafter.alive, hafter.hasScope, hafter.known, hafter.assigned⟩
  · exact hp.reports ⟨hf.alive, hf.hasScope, hf.known, hf.assigned⟩ hpath

theorem Follows.block {ss : List Statement}
    (hss : Follows name scope (ss.foldl Statement.scopeAfter scope) f.enter
      (flowStatements ss f.enter) (pathsStatements scope ss)) :
    Follows name scope scope f (f.inScope (flowStatements ss)) (pathsStatements scope ss) :=
  hss.leave (onward_flowStatements ss f.enter) (mem_foldl_scopeAfter · ss)

/-- A handler, in a scope of its parameter. -/
theorem follows_handler {parameter : Parameter} {statements : List Statement}
    (hblock : ∀ f, Follows name (parameter.name.name :: scope) (parameter.name.name :: scope) f
      (f.inScope (flowStatements statements))
      (pathsStatements (parameter.name.name :: scope) statements)) :
    Follows name scope scope f
      (f.inScope fun f => (f.declare parameter.name.name parameter.type.simpleName true).inScope
        (flowStatements statements))
      ((Paths.assign parameter.name.name).seq
        (pathsStatements (parameter.name.name :: scope) statements)) := by
  have hparameter := BodyFlow.onward_declare f.enter parameter.name.name
    parameter.type.simpleName true
  have honward := (onward_flowStatements statements
    (f.enter.declare parameter.name.name parameter.type.simpleName true).enter).leave
  have hdeclare : Follows name scope (parameter.name.name :: scope) f.enter
      (f.enter.declare parameter.name.name parameter.type.simpleName true)
      (.assign parameter.name.name) := follows_declare List.mem_cons.1
  exact (hdeclare.seq (hblock _) (List.mem_cons_of_mem _) honward).leave
    (hparameter.trans honward) (List.mem_cons_of_mem _)

/-- A `try` block and its handlers, each of which starts from what was assigned before. -/
theorem follows_flowGuarded {statements : List Statement} {handlers : List CatchClause}
    (hblock : ∀ f, Follows name scope scope f (f.inScope (flowStatements statements))
      (pathsStatements scope statements))
    (hcatches : ∀ before joined f, Follows name scope scope (f.setState ⟨before, true⟩)
      (flowCatches handlers before joined f) (pathsCatches scope handlers)) :
    Follows name scope scope f (flowGuarded statements handlers f)
      ((pathsStatements scope statements).catching (pathsCatches scope handlers)) := by
  have htry : Follows name scope scope f (f.handled
      (handlers.map fun c => c.parameter.type.simpleName)
      fun f => f.inScope (flowStatements statements)) (pathsStatements scope statements) :=
    .handled hblock
  have honward : f.Onward (f.handled (handlers.map fun c => c.parameter.type.simpleName)
      fun f => f.inScope (flowStatements statements)) :=
    BodyFlow.onward_handled f _ fun f => (onward_flowStatements statements f.enter).leave
  unfold flowGuarded
  dsimp only
  generalize f.handled (handlers.map fun c => c.parameter.type.simpleName)
    (fun f => f.inScope (flowStatements statements)) = g at *
  refine .catching ?_ ?_
  · exact htry.weaken (onward_flowCatches handlers _ _ g) alive_flowCatches
      fun h _ => mem_flowCatches h
  · exact (hcatches f.state.assigned g.state g).start fun hpath =>
      hpath.restore (honward.setState _) rfl fun _ h => h

end Following

end AspectLang
