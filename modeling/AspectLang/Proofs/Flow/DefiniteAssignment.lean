import AspectLang.Proofs.Flow.Following

/-! # Definite assignment

The analysis does not join the paths that come by a jump with the ones that come normally
where the two meet behind a statement, and it looks at an initial value before it knows the
variable.  `Statement.followed` says that a variable does not depend on these places.  For such
variables the analysis is sound (`CompilationUnit.reports_misread`). -/

namespace AspectLang

/-- Whether the analysis goes on behind a loop from the state at its head, so that it covers the
jumps out of the loop. -/
def Statement.rejoins : Statement → Bool
  | .whileLoop _ _ _ | .forEach _ _ _ _ => true
  | .forLoop init _ _ _ _ => (jumpsOf init).isEmpty
  | .labeled _ body _ => body.rejoins
  | _ => false

mutual

/-- Whether the analysis follows a variable through a statement with given labels: where a jump
lands behind a statement, or before the update of a loop, the variable is not assigned in what
the jump may skip, loops apart that go on from the state at their head; and no initial value of
the variable evaluates it. -/
def Statement.followed (name : String) (labels : List String) (s : Statement) : Bool :=
  match s with
  | .block ⟨statements, _⟩ => followedStatements name statements
  | .localVariable v => v.followed name
  | .ifThen _ thenBranch none _ => thenBranch.followed name []
  | .ifThen _ thenBranch (some elseBranch) _ =>
    thenBranch.followed name [] && elseBranch.followed name []
  | .whileLoop _ body _ | .forEach _ _ body _ => body.followed name []
  | .doLoop body condition _ =>
    body.followed name [] &&
      ((body.jumps []).all (fun x => !x.endsRound labels && !x.endsLoop) ||
        (!body.assigns name && !condition.assigns name))
  | .forLoop init _ update body _ =>
    (followedStatements name init && body.followed name []) &&
      (update.isEmpty || ((body.jumps []).all (!·.endsRound labels) || !body.assigns name))
  | .labeled label body _ =>
    body.followed name (label :: labels) &&
      (body.rejoins ||
        ((body.jumps (label :: labels)).all (!·.endsLabeled label) || !body.assigns name))
  | .trying ⟨statements, _⟩ handlers none _ =>
    followedStatements name statements && followedCatches name handlers
  | .trying ⟨statements, _⟩ handlers (some ⟨final, _⟩) _ =>
    (followedStatements name statements && followedCatches name handlers) &&
      followedStatements name final
  | _ => true

/-- Whether the analysis follows a variable through statements. -/
def followedStatements (name : String) (ss : List Statement) : Bool :=
  match ss with
  | [] => true
  | s :: rest => s.followed name [] && followedStatements name rest

/-- Whether the analysis follows a variable through handlers. -/
def followedCatches (name : String) (handlers : List CatchClause) : Bool :=
  match handlers with
  | [] => true
  | ⟨_, ⟨statements, _⟩, _⟩ :: rest =>
    followedStatements name statements && followedCatches name rest

end

section Statements

variable {name : String}

theorem follows_assertion (scope : List String) (condition : Expr) (message : Option Expr)
    (f : BodyFlow) :
    Follows name scope scope f ((flowOptional message (condition.flow f)).setState f.state)
      (.either (.halt .normal) ((condition.paths scope).seq
        (.either (.halt .normal) ((pathsOptional scope message).seq (.halt .thrown))))) := by
  have hcondition := (condition.steady f).toOnward
  have hmessage := (steady_flowOptional message (condition.flow f)).toOnward
  refine .either ?_ ?_
  · exact follows_halt_normal.weaken ((hcondition.trans hmessage).setState _) (fun h => h)
      fun _ _ h => h
  · -- The message is seen only on the way to an exception, so the state before it goes on.
    have hrest : Follows name scope scope (condition.flow f)
        ((flowOptional message (condition.flow f)).setState (condition.flow f).state)
        (.either (.halt .normal) ((pathsOptional scope message).seq (.halt .thrown))) := by
      refine .either ?_ ?_
      · exact follows_halt_normal.weaken (hmessage.setState _) (fun h => h) fun _ _ h => h
      · exact (follows_flowOptional scope message _).seq (follows_halt nofun nofun) id
          (.of_same rfl rfl rfl)
    exact ((condition.follows scope f).seq hrest id (hmessage.setState _)).restore
      (hcondition.trans (hmessage.setState _)) (.of_same rfl rfl rfl) (fun h => h) fun h => h

theorem follows_labeled {scope scope' labels : List String} {label : String} {body : Statement}
    {f : BodyFlow}
    (hbody : Follows name scope scope' f (body.flow f) (body.paths scope (label :: labels)))
    (hscope : name ∈ scope → name ∈ scope')
    (hland : ∀ ⦃before x after⦄, Covers name scope f before →
      body.paths scope (label :: labels) before x after → x.endsLabeled label = true →
      Covers name scope ((body.flow f).setAlive true) after) :
    Follows name scope scope f ((body.flow f).setAlive true)
      ((body.paths scope (label :: labels)).landing (Exit.endsLabeled label)) := by
  refine ⟨hbody.keeps.landing _, fun before after hf hpath => ?_, fun before after hf hpath => ?_⟩
  · rcases landed_cases hpath with hpath | ⟨x, hpath, hlands⟩
    · exact ((hbody.covers hf hpath).inScope hscope).restore (.of_same rfl rfl rfl) rfl
        fun _ h => h
    · exact hland hf hpath hlands
  · exact hbody.reports hf (Paths.landing_of_ne hpath nofun).1

mutual

/-- The analysis follows a statement. -/
theorem Statement.follows (scope labels : List String) (s : Statement) (f : BodyFlow)
    (hfresh : s.fresh scope = true) (hfollowed : s.followed name labels = true) :
    Follows name scope (s.scopeAfter scope) f (s.flow f) (s.paths scope labels) := by
  match s with
  | .block ⟨statements, _⟩ =>
    rw [Statement.fresh] at hfresh
    rw [Statement.followed] at hfollowed
    rw [Statement.flow, Statement.paths]
    exact (follows_flowStatements scope statements f.enter hfresh hfollowed).block
  | .localVariable v =>
    rw [Statement.fresh] at hfresh
    rw [Statement.followed] at hfollowed
    rw [Statement.flow, Statement.paths]
    exact v.follows f (by simpa using hfresh) hfollowed
  | .expression value _ =>
    rw [Statement.flow, Statement.paths]
    exact value.follows scope f
  | .ifThen condition thenBranch none _ =>
    rw [Statement.fresh] at hfresh
    rw [Statement.followed] at hfollowed
    rw [Statement.flow, Statement.paths]
    have hthen := thenBranch.follows scope [] (condition.flow f) hfresh hfollowed
    have honward := thenBranch.onward (condition.flow f)
    refine (condition.follows scope f).seq (.either ?_ ?_) id (honward.setState _)
    · exact (hthen.inScope (thenBranch.mem_scopeAfter ·)).weaken (.of_same rfl rfl rfl)
        PathState.alive_join_left fun h _ => PathState.mem_join_left h
    · exact follows_halt_normal.weaken (honward.setState _) PathState.alive_join_right
        fun h _ => PathState.mem_join_right h
  | .ifThen condition thenBranch (some elseBranch) _ =>
    rw [Statement.fresh, Bool.and_eq_true] at hfresh
    rw [Statement.followed, Bool.and_eq_true] at hfollowed
    rw [Statement.flow, Statement.paths]
    have hcondition : Follows name scope scope f (condition.flow f) (condition.paths scope) :=
      condition.follows scope f
    generalize condition.flow f = g at hcondition ⊢
    have hthen := thenBranch.follows scope [] g hfresh.1 hfollowed.1
    have honward := thenBranch.onward g
    have helse := elseBranch.follows scope [] ((thenBranch.flow g).setState g.state) hfresh.2
      hfollowed.2
    have honward' := elseBranch.onward ((thenBranch.flow g).setState g.state)
    refine hcondition.seq (.either ?_ ?_) id
      (((honward.setState g.state).trans honward').setState _)
    · exact (hthen.inScope (thenBranch.mem_scopeAfter ·)).weaken
        ((BodyFlow.Onward.of_setState honward').setState _) PathState.alive_join_left
        fun h _ => PathState.mem_join_left h
    · have helse := (helse.inScope (elseBranch.mem_scopeAfter ·)).start (f := g) fun hpath =>
        hpath.restore (honward.setState g.state) hpath.alive fun _ h => h
      exact helse.weaken (.of_same rfl rfl rfl) PathState.alive_join_right
        fun h _ => PathState.mem_join_right h
  | .whileLoop condition body _ =>
    rw [Statement.fresh] at hfresh
    rw [Statement.followed] at hfollowed
    exact (rejoins_whileLoop (body.follows scope [] _ hfresh hfollowed)).toFollows
  | .doLoop body condition _ =>
    rw [Statement.fresh] at hfresh
    rw [Statement.followed, Bool.and_eq_true] at hfollowed
    refine follows_doLoop hfresh ?_ (body.follows scope [] f hfresh hfollowed.1)
      (body.mem_scopeAfter ·)
    simpa using hfollowed.2
  | .forLoop init condition update body _ =>
    rw [Statement.fresh, Bool.and_eq_true] at hfresh
    rw [Statement.followed, Bool.and_eq_true, Bool.and_eq_true] at hfollowed
    exact (follows_forLoop (follows_flowInit scope init f.enter hfresh.1 hfollowed.1.1) hfresh.2
      (by simpa using hfollowed.2) (body.follows _ [] · hfresh.2 hfollowed.1.2)
      (body.mem_scopeAfter ·)).1
  | .forEach element collection body _ =>
    rw [Statement.fresh, Bool.and_eq_true] at hfresh
    rw [Statement.followed] at hfollowed
    exact (rejoins_forEach (by simpa using hfresh.1)
      (body.follows _ [] · hfresh.2 hfollowed)).toFollows
  | .returning value _ =>
    rw [Statement.flow, Statement.paths]
    exact (follows_flowOptional scope value f).seq (follows_halt nofun nofun) id
      (.of_same rfl rfl rfl)
  | .throwing value span =>
    rw [Statement.flow, Statement.paths]
    exact (value.follows scope f).seq (follows_halt nofun nofun) id (onward_flowThrow value span f)
  | .breaking _ _ | .continuing _ _ => rw [Statement.paths]; exact follows_halt nofun nofun
  | .labeled label body _ =>
    rw [Statement.fresh] at hfresh
    rw [Statement.followed, Bool.and_eq_true, Bool.or_eq_true] at hfollowed
    rw [Statement.flow, Statement.paths]
    have hbody := body.follows scope (label :: labels) f hfresh hfollowed.1
    refine follows_labeled hbody (body.mem_scopeAfter ·) fun before x after hf hpath hlands => ?_
    rcases hfollowed.2 with hrejoins | hskip
    · have hjump := (body.rejoins_of_rejoins scope (label :: labels) f hfresh hfollowed.1
        hrejoins) hf hpath (Exit.isJump_of_endsLabeled hlands)
      exact hjump.restore (.of_same rfl rfl rfl) rfl fun _ h => h
    · exact covers_landing Exit.isJump_of_endsLabeled hfresh (by simpa using hskip) hbody
        (body.mem_scopeAfter ·) hf hpath (.inr hlands)
  | .trying ⟨statements, _⟩ handlers none _ =>
    rw [Statement.fresh, Bool.and_eq_true] at hfresh
    rw [Statement.followed, Bool.and_eq_true] at hfollowed
    rw [Statement.flow_trying_none, Statement.paths]
    exact follows_flowGuarded
      (fun f => (follows_flowStatements scope statements f.enter hfresh.1 hfollowed.1).block)
      (follows_flowCatches scope handlers · · · hfresh.2 hfollowed.2)
  | .trying ⟨statements, _⟩ handlers (some ⟨final, _⟩) _ =>
    rw [Statement.fresh, Bool.and_eq_true, Bool.and_eq_true] at hfresh
    rw [Statement.followed, Bool.and_eq_true, Bool.and_eq_true] at hfollowed
    rw [Statement.flow_trying_some, Statement.paths]
    have hguarded := follows_flowGuarded (f := f)
      (fun f => (follows_flowStatements scope statements f.enter hfresh.1.1 hfollowed.1.1).block)
      (follows_flowCatches scope handlers · · · hfresh.1.2 hfollowed.1.2)
    exact hguarded.finishing
      (onward_flowGuarded f (onward_flowStatements statements) (onward_flowCatches handlers))
      (fun f => (follows_flowStatements scope final f.enter hfresh.2 hfollowed.2).block)
  | .assertion condition message _ =>
    rw [Statement.flow, Statement.paths]
    exact follows_assertion scope condition message f
  | .constructorCall _ arguments _ =>
    rw [Statement.flow, Statement.paths]
    exact (follows_flowExprs scope arguments f).seq follows_pass id (.refl _)
  | .empty _ => rw [Statement.flow, Statement.paths]; exact follows_pass

/-- Behind a loop that tests first, what leaves it by a jump is covered. -/
theorem Statement.rejoins_of_rejoins (scope labels : List String) (s : Statement) (f : BodyFlow)
    (hfresh : s.fresh scope = true) (hfollowed : s.followed name labels = true)
    (hrejoins : s.rejoins = true) ⦃before : List String⦄ ⦃x : Exit⦄ ⦃after : List String⦄
    (hf : Covers name scope f before) (hpath : s.paths scope labels before x after)
    (hjump : x.isJump = true) : Covers name scope (s.flow f) after := by
  match s with
  | .whileLoop condition body _ =>
    rw [Statement.fresh] at hfresh
    rw [Statement.followed] at hfollowed
    exact (rejoins_whileLoop (body.follows scope [] _ hfresh hfollowed)).jumps hf hpath hjump
  | .forLoop init condition update body _ =>
    rw [Statement.fresh, Bool.and_eq_true] at hfresh
    rw [Statement.followed, Bool.and_eq_true, Bool.and_eq_true] at hfollowed
    rw [Statement.rejoins, List.isEmpty_iff] at hrejoins
    exact ((follows_forLoop (follows_flowInit scope init f.enter hfresh.1 hfollowed.1.1) hfresh.2
      (by simpa using hfollowed.2) (body.follows _ [] · hfresh.2 hfollowed.1.2)
      (body.mem_scopeAfter ·)).2 hrejoins).jumps hf hpath hjump
  | .forEach element collection body _ =>
    rw [Statement.fresh, Bool.and_eq_true] at hfresh
    rw [Statement.followed] at hfollowed
    exact (rejoins_forEach (by simpa using hfresh.1)
      (body.follows _ [] · hfresh.2 hfollowed)).jumps hf hpath hjump
  | .labeled label body _ =>
    rw [Statement.fresh] at hfresh
    rw [Statement.followed, Bool.and_eq_true] at hfollowed
    rw [Statement.rejoins] at hrejoins
    rw [Statement.paths] at hpath
    rw [Statement.flow]
    have hx : x ≠ .normal := by rintro rfl; cases hjump
    have hbody := body.rejoins_of_rejoins scope (label :: labels) f hfresh hfollowed.1 hrejoins hf
      (Paths.landing_of_ne hpath hx).1 hjump
    exact hbody.restore (.of_same rfl rfl rfl) rfl fun _ h => h
  | .block _ | .localVariable _ | .expression _ _ | .ifThen _ _ _ _ | .doLoop _ _ _
  | .returning _ _ | .throwing _ _ | .breaking _ _ | .continuing _ _ | .trying _ _ _ _
  | .assertion _ _ _ | .constructorCall _ _ _ | .empty _ => cases hrejoins

theorem follows_flowStatements (scope : List String) (ss : List Statement) (f : BodyFlow)
    (hfresh : freshStatements scope ss = true) (hfollowed : followedStatements name ss = true) :
    Follows name scope (ss.foldl Statement.scopeAfter scope) f (flowStatements ss f)
      (pathsStatements scope ss) := by
  match ss with
  | [] => rw [flowStatements, pathsStatements]; exact follows_pass
  | s :: rest =>
    rw [freshStatements, Bool.and_eq_true] at hfresh
    rw [followedStatements, Bool.and_eq_true] at hfollowed
    rw [flowStatements, pathsStatements]
    have hstatement := (s.follows scope [] (f.reach s.span) hfresh.1 hfollowed.1).start
      (f := f) fun hpath => by rwa [BodyFlow.reach, if_pos hpath.alive]
    exact hstatement.seq (follows_flowStatements _ rest _ hfresh.2 hfollowed.2)
      (s.mem_scopeAfter ·) (onward_flowStatements rest _)

theorem follows_flowInit (scope : List String) (ss : List Statement) (f : BodyFlow)
    (hfresh : freshStatements scope ss = true) (hfollowed : followedStatements name ss = true) :
    Follows name scope (ss.foldl Statement.scopeAfter scope) f (flowInit ss f)
      (pathsStatements scope ss) := by
  match ss with
  | [] => rw [flowInit, pathsStatements]; exact follows_pass
  | s :: rest =>
    rw [freshStatements, Bool.and_eq_true] at hfresh
    rw [followedStatements, Bool.and_eq_true] at hfollowed
    rw [flowInit, pathsStatements]
    exact (s.follows scope [] f hfresh.1 hfollowed.1).seq
      (follows_flowInit _ rest _ hfresh.2 hfollowed.2) (s.mem_scopeAfter ·) (onward_flowInit rest _)

theorem follows_flowCatches (scope : List String) (handlers : List CatchClause)
    (before : List String) (joined : PathState) (f : BodyFlow)
    (hfresh : freshCatches scope handlers = true)
    (hfollowed : followedCatches name handlers = true) :
    Follows name scope scope (f.setState ⟨before, true⟩) (flowCatches handlers before joined f)
      (pathsCatches scope handlers) := by
  match handlers with
  | [] =>
    rw [pathsCatches]
    exact ⟨fun _ _ _ h => h.elim, fun _ _ _ h => h.elim, fun _ _ _ h => h.elim⟩
  | ⟨parameter, ⟨statements, _⟩, _⟩ :: rest =>
    rw [freshCatches, Bool.and_eq_true, Bool.and_eq_true] at hfresh
    rw [followedCatches, Bool.and_eq_true] at hfollowed
    rw [flowCatches, pathsCatches]
    have hhandler := follows_handler (f := f.setState ⟨before, true⟩) fun f =>
      (follows_flowStatements _ statements f.enter hfresh.1.2 hfollowed.1).block
    have honward := (BodyFlow.onward_declare (f.setState ⟨before, true⟩).enter parameter.name.name
      parameter.type.simpleName true).trans (onward_flowStatements statements _).leave
    refine .either ?_ ?_
    · exact hhandler.weaken (onward_flowCatches rest _ _ _)
        (fun h => alive_flowCatches (PathState.alive_join_right h))
        fun h _ hname => PathState.mem_join_right h
          (mem_flowCatches (PathState.alive_join_right h) hname)
    · exact (follows_flowCatches scope rest before _ _ hfresh.2 hfollowed.2).start fun hpath =>
        hpath.restore (honward.leave.setState _) rfl fun _ h => h

end

end Statements

/-! ### Units -/

/-- Whether no local variable in a body has the name of one that is in scope there. -/
def Body.fresh (b : Body) : Bool := freshStatements b.parameters b.statements

/-- Whether the analysis follows a variable through a body. -/
def Body.followed (name : String) (b : Body) : Bool := followedStatements name b.statements

theorem Body.Starts.covers {b : Body} {f : BodyFlow} (hf : b.Starts f) (name : String) :
    Covers name b.parameters f b.parameters :=
  ⟨hf.alive, hf.hasScope, hf.known name, fun _ => hf.assigned name⟩

/-- **Definite assignment is sound for the variables that the analysis follows.**  If no local
variable in a body of a unit has the name of one in scope, and some path through the body
evaluates a local variable that the path did not assign before, then the analysis of the unit
adds a diagnostic that names the variable. -/
theorem CompilationUnit.reports_misread (unit : CompilationUnit) (r : Reporter) {b : Body}
    {name : String} (hb : b ∈ unit.bodies) (hfresh : b.fresh = true)
    (hfollowed : b.followed name = true) (hmisread : b.Misreads name) :
    ∃ more, (unit.flow r).2.reporter.diagnostics.toList = r.diagnostics.toList ++ more ∧
      ∃ d ∈ more, d.id = .uninitializedLocal ∧ d.arguments = [name] := by
  obtain ⟨f, hstarts, ⟨first, hfirst⟩, ⟨last, hlast⟩⟩ := unit.analysed_of_mem r hb
  obtain ⟨after, hpath⟩ := hmisread
  have hreported := (follows_flowStatements b.parameters b.statements f hfresh hfollowed).reports
    (hstarts.covers name) hpath
  obtain ⟨found, hfound, hnamed⟩ := (onward_flowStatements b.statements f).diagnosed
  refine ⟨first ++ (found ++ last), ?_, ?_⟩
  · rw [← hlast, hfound, ← hfirst, List.append_assoc, List.append_assoc]
  · rcases hnamed name hreported with h | ⟨d, hd, hd'⟩
    · rw [hstarts.reported] at h
      exact absurd h List.not_mem_nil
    · exact ⟨d, List.mem_append_right _ (List.mem_append_left _ hd), hd'⟩

/-! ### A loop that is left early -/

/-- A word as an expression. -/
def Expr.ofWord (word : String) : Expr := .name ⟨[⟨word, {}⟩]⟩

/-- A unit with one method `int m(boolean b, boolean c)` that has given statements. -/
def CompilationUnit.ofStatements (statements : List Statement) : CompilationUnit :=
  let parameter (name : String) : Parameter :=
    ⟨⟨name, {}⟩, .ofPrimitive "boolean" {}, 0, [], false, {}⟩
  let method : MethodDecl :=
    { kind := .method, selector := "m", returnType := some (.ofPrimitive "int" {}),
      parameters := [parameter "b", parameter "c"], statements := some statements }
  { types := [{ TypeDecl.new .classType with name := "A", members := [.method method] }] }

/-- A local variable `x`, a loop around `if (b) break; x = 1;`, and `return x;`. -/
def breakingLoop (loop : Statement → Statement) : List Statement :=
  [.localVariable ⟨⟨"x", {}⟩, 0, [], .ofPrimitive "int" {}, none, {}⟩,
    loop (.block ⟨[.ifThen (.ofWord "b") (.breaking none {}) none {},
      .expression (.assign (.ofWord "x") none (.literal .int "1" {}) {}) {}], {}⟩),
    .returning (some (.ofWord "x")) {}]

/-- If a jump from the body of the loop lands behind the loop, `x` is evaluated unassigned. -/
theorem misreads_breakingLoop {loop : Statement → Statement}
    (hloop : ∀ body : Statement,
      body.paths ["x", "b", "c"] [] ["b", "c"] (.broke none) ["b", "c"] →
      (loop body).paths ["x", "b", "c"] [] ["b", "c"] .normal ["b", "c"])
    (hscope : ∀ body, (loop body).scopeAfter ["x", "b", "c"] = ["x", "b", "c"]) :
    Body.Misreads ⟨["b", "c"], breakingLoop loop⟩ "x" := by
  refine ⟨["b", "c"], ?_⟩
  have hcreate : (Statement.localVariable
      ⟨⟨"x", {}⟩, 0, [], .ofPrimitive "int" {}, none, {}⟩).paths
      ["b", "c"] [] ["b", "c"] .normal ["b", "c"] := by
    rw [Statement.paths]
    exact ⟨rfl, by decide⟩
  have hbreak : (Statement.block ⟨[.ifThen (.ofWord "b") (.breaking none {}) none {},
      .expression (.assign (.ofWord "x") none (.literal .int "1" {}) {}) {}], {}⟩).paths
      ["x", "b", "c"] [] ["b", "c"] (.broke none) ["b", "c"] := by
    rw [Statement.paths, pathsStatements, Statement.paths, Expr.ofWord, Expr.paths,
      Statement.paths]
    exact .inr ⟨nofun, .inl ⟨_, .inl (.inl ⟨rfl, rfl⟩), .inl ⟨rfl, rfl⟩⟩⟩
  have hreturn : (Statement.returning (some (.ofWord "x")) {}).paths
      ["x", "b", "c"] [] ["b", "c"] (.misread "x") ["b", "c"] := by
    rw [Statement.paths, pathsOptional, Expr.ofWord, Expr.paths]
    exact .inr ⟨nofun, .inr ⟨by decide, rfl, rfl⟩⟩
  rw [breakingLoop, pathsStatements, pathsStatements, pathsStatements]
  refine .inl ⟨_, hcreate, .inl ⟨_, hloop _ hbreak, ?_⟩⟩
  rw [Statement.scopeAfter, hscope]
  exact .inr ⟨nofun, hreturn⟩

/-- With `while (c)` around the body, the evaluation is reported. -/
theorem misread_behind_whileLoop :
    ∃ b ∈ (CompilationUnit.ofStatements
        (breakingLoop (.whileLoop (.ofWord "c") · {}))).bodies,
      (b.fresh = true ∧ b.followed "x" = true ∧ b.Misreads "x") ∧
      ∃ more, ((CompilationUnit.ofStatements (breakingLoop (.whileLoop (.ofWord "c") · {}))).flow
          (.new 100)).2.reporter.diagnostics.toList = (Reporter.new 100).diagnostics.toList ++ more ∧
        ∃ d ∈ more, d.id = .uninitializedLocal ∧ d.arguments = ["x"] := by
  have hmisreads : Body.Misreads
      ⟨["b", "c"], breakingLoop (.whileLoop (.ofWord "c") · {})⟩ "x" := by
    refine misreads_breakingLoop (fun body hbreak => ?_) fun _ => rfl
    rw [Statement.paths, Expr.ofWord, Expr.paths]
    refine ⟨.broke none, .inr ⟨nofun, .last ?_ nofun⟩, rfl⟩
    exact .inl ⟨_, .inl (.inl ⟨rfl, rfl⟩), .inr ⟨nofun, .broke none, hbreak, rfl⟩⟩
  exact ⟨⟨["b", "c"], _⟩, List.mem_singleton_self _, ⟨by decide, by decide, hmisreads⟩,
    CompilationUnit.reports_misread _ (.new 100) (List.mem_singleton_self _) (by decide)
      (by decide) hmisreads⟩

/-- With `do` and `while (c)` around the same body, it is not: the analysis goes on from the normal
end of the loop, where `x` is assigned. -/
theorem unreported_misread_behind_doLoop :
    ∃ b ∈ (CompilationUnit.ofStatements (breakingLoop (.doLoop · (.ofWord "c") {}))).bodies,
      b.fresh = true ∧ b.Misreads "x" ∧
      ((CompilationUnit.ofStatements (breakingLoop (.doLoop · (.ofWord "c") {}))).flow
        (.new 100)).2.reporter.diagnostics = #[] := by
  refine ⟨⟨["b", "c"], _⟩, List.mem_singleton_self _, by decide,
    misreads_breakingLoop (fun body hbreak => ?_) fun _ => rfl, by decide⟩
  rw [Statement.paths]
  exact ⟨.broke none, .inr ⟨nofun, .inr ⟨nofun, .broke none, hbreak, rfl⟩⟩, rfl⟩

end AspectLang
