import AspectLang.Proofs.Flow.Reports

/-! # What occurs in a body

Which names an expression evaluates and which it assigns, which jumps leave a statement, and
whether a statement declares a name anew that is in scope already.  Each of these is computed
from the text alone.  A path through a construct ends only in ways that occur in it
(`Expr.ends`, `Statement.ends`), and the analysis counts a variable that was in scope before
as assigned only where an assignment to it occurs (`Statement.mem_assigned_of_flow`). -/

namespace AspectLang

/-! ### Occurrences -/

mutual

/-- Whether an expression evaluates a name. -/
def Expr.reads (name : String) (e : Expr) : Bool :=
  match e with
  | .literal _ _ _ | .this _ | .super _ | .annotationUse _ => false
  | .name n =>
    match n.segments with
    | word :: _ => word.name == name
    | [] => false
  | .fieldAccess receiver _ _ => receiver.reads name
  | .send none _ arguments _ _ => exprsRead name arguments
  | .send (some receiver) _ arguments _ _ => receiver.reads name || exprsRead name arguments
  | .new _ arguments _ => exprsRead name arguments
  | .assign target operator value _ =>
    ((target.word?.isNone || operator.isSome) && target.reads name) || value.reads name
  | .binary left _ right _ => left.reads name || right.reads name
  | .unary _ operand _ => operand.reads name
  | .conditional condition whenTrue whenFalse _ =>
    condition.reads name || (whenTrue.reads name || whenFalse.reads name)
  | .instanceOf value _ _ => value.reads name
  | .paren inner _ => inner.reads name

/-- Whether one of some expressions evaluates a name. -/
def exprsRead (name : String) (es : List Expr) : Bool :=
  match es with
  | [] => false
  | e :: rest => e.reads name || exprsRead name rest

end

mutual

/-- Whether an expression assigns a name. -/
def Expr.assigns (name : String) (e : Expr) : Bool :=
  match e with
  | .literal _ _ _ | .name _ | .this _ | .super _ | .annotationUse _ => false
  | .fieldAccess receiver _ _ => receiver.assigns name
  | .send none _ arguments _ _ => exprsAssign name arguments
  | .send (some receiver) _ arguments _ _ => receiver.assigns name || exprsAssign name arguments
  | .new _ arguments _ => exprsAssign name arguments
  | .assign target _ value _ =>
    target.word? == some name || (target.assigns name || value.assigns name)
  | .binary left _ right _ => left.assigns name || right.assigns name
  | .unary _ operand _ => operand.assigns name
  | .conditional condition whenTrue whenFalse _ =>
    condition.assigns name || (whenTrue.assigns name || whenFalse.assigns name)
  | .instanceOf value _ _ => value.assigns name
  | .paren inner _ => inner.assigns name

/-- Whether one of some expressions assigns a name. -/
def exprsAssign (name : String) (es : List Expr) : Bool :=
  match es with
  | [] => false
  | e :: rest => e.assigns name || exprsAssign name rest

end

/-- Whether an expression assigns a name, if there is one. -/
def optionalAssigns (name : String) : Option Expr → Bool
  | some e => e.assigns name
  | none => false

mutual

/-- Whether a name is assigned in a statement. -/
def Statement.assigns (name : String) (s : Statement) : Bool :=
  match s with
  | .block ⟨statements, _⟩ => statementsAssign name statements
  | .localVariable v => optionalAssigns name v.initializer
  | .expression value _ | .throwing value _ => value.assigns name
  | .ifThen condition thenBranch none _ => condition.assigns name || thenBranch.assigns name
  | .ifThen condition thenBranch (some elseBranch) _ =>
    condition.assigns name || (thenBranch.assigns name || elseBranch.assigns name)
  | .whileLoop condition body _ => condition.assigns name || body.assigns name
  | .doLoop body condition _ => body.assigns name || condition.assigns name
  | .forLoop init condition update body _ =>
    (statementsAssign name init || optionalAssigns name condition) ||
      (exprsAssign name update || body.assigns name)
  | .forEach _ collection body _ => collection.assigns name || body.assigns name
  | .returning value _ => optionalAssigns name value
  | .breaking _ _ | .continuing _ _ | .empty _ => false
  | .labeled _ body _ => body.assigns name
  | .trying ⟨statements, _⟩ handlers none _ =>
    statementsAssign name statements || catchesAssign name handlers
  | .trying ⟨statements, _⟩ handlers (some ⟨final, _⟩) _ =>
    (statementsAssign name statements || catchesAssign name handlers) ||
      statementsAssign name final
  | .assertion condition message _ => condition.assigns name || optionalAssigns name message
  | .constructorCall _ arguments _ => exprsAssign name arguments

/-- Whether a name is assigned in statements. -/
def statementsAssign (name : String) (ss : List Statement) : Bool :=
  match ss with
  | [] => false
  | s :: rest => s.assigns name || statementsAssign name rest

/-- Whether a name is assigned in handlers. -/
def catchesAssign (name : String) (handlers : List CatchClause) : Bool :=
  match handlers with
  | [] => false
  | ⟨_, ⟨statements, _⟩, _⟩ :: rest => statementsAssign name statements || catchesAssign name rest

end

/-- The jumps in the body of a loop that leave the loop for another place than behind it. -/
def jumpsFromLoop (labels : List String) (jumps : List Exit) : List Exit :=
  (jumps.filter (!·.endsRound labels)).filter (!·.endsLoop)

mutual

/-- The jumps that leave a statement with given labels. -/
def Statement.jumps (labels : List String) (s : Statement) : List Exit :=
  match s with
  | .block ⟨statements, _⟩ => jumpsOf statements
  | .ifThen _ thenBranch none _ => thenBranch.jumps []
  | .ifThen _ thenBranch (some elseBranch) _ => thenBranch.jumps [] ++ elseBranch.jumps []
  | .whileLoop _ body _ | .doLoop body _ _ | .forEach _ _ body _ =>
    jumpsFromLoop labels (body.jumps [])
  | .forLoop init _ _ body _ => jumpsOf init ++ jumpsFromLoop labels (body.jumps [])
  | .breaking label _ => [.broke label]
  | .continuing label _ => [.continued label]
  | .labeled label body _ => (body.jumps (label :: labels)).filter (!·.endsLabeled label)
  | .trying ⟨statements, _⟩ handlers none _ => jumpsOf statements ++ jumpsOfCatches handlers
  | .trying ⟨statements, _⟩ handlers (some ⟨final, _⟩) _ =>
    (jumpsOf statements ++ jumpsOfCatches handlers) ++ jumpsOf final
  | _ => []

/-- The jumps that leave statements. -/
def jumpsOf (ss : List Statement) : List Exit :=
  match ss with
  | [] => []
  | s :: rest => s.jumps [] ++ jumpsOf rest

/-- The jumps that leave handlers. -/
def jumpsOfCatches (handlers : List CatchClause) : List Exit :=
  match handlers with
  | [] => []
  | ⟨_, ⟨statements, _⟩, _⟩ :: rest => jumpsOf statements ++ jumpsOfCatches rest

end

mutual

/-- Whether no local variable in a statement has the name of one that is in scope there. -/
def Statement.fresh (scope : List String) (s : Statement) : Bool :=
  match s with
  | .block ⟨statements, _⟩ => freshStatements scope statements
  | .localVariable v => !scope.contains v.name.name
  | .ifThen _ thenBranch none _ => thenBranch.fresh scope
  | .ifThen _ thenBranch (some elseBranch) _ => thenBranch.fresh scope && elseBranch.fresh scope
  | .whileLoop _ body _ | .doLoop body _ _ | .labeled _ body _ => body.fresh scope
  | .forLoop init _ _ body _ =>
    freshStatements scope init && body.fresh (init.foldl Statement.scopeAfter scope)
  | .forEach element _ body _ =>
    !scope.contains element.name.name && body.fresh (element.name.name :: scope)
  | .trying ⟨statements, _⟩ handlers none _ =>
    freshStatements scope statements && freshCatches scope handlers
  | .trying ⟨statements, _⟩ handlers (some ⟨final, _⟩) _ =>
    (freshStatements scope statements && freshCatches scope handlers) &&
      freshStatements scope final
  | _ => true

/-- Whether no local variable in the statements of a block has the name of one in scope. -/
def freshStatements (scope : List String) (ss : List Statement) : Bool :=
  match ss with
  | [] => true
  | s :: rest => s.fresh scope && freshStatements (s.scopeAfter scope) rest

/-- Whether no local variable in handlers has the name of one in scope. -/
def freshCatches (scope : List String) (handlers : List CatchClause) : Bool :=
  match handlers with
  | [] => true
  | ⟨parameter, ⟨statements, _⟩, _⟩ :: rest =>
    (!scope.contains parameter.name.name &&
      freshStatements (parameter.name.name :: scope) statements) && freshCatches scope rest

end

/-! ### Ends of paths -/

/-- Whether all paths end in given ways. -/
def Paths.Ends (p : Paths) (ways : Exit → Prop) : Prop :=
  ∀ ⦃before x after⦄, p before x after → ways x

namespace Paths

variable {p q : Paths} {ways ways' : Exit → Prop} {lands : Exit → Bool}

theorem Ends.mono (hp : p.Ends ways) (hways : ∀ x, ways x → ways' x) : p.Ends ways' :=
  fun _ _ _ h => hways _ (hp h)

theorem ends_halt {exit : Exit} (hways : ways exit) : (halt exit).Ends ways := by
  rintro _ _ _ ⟨rfl, -⟩
  exact hways

theorem Ends.either (hp : p.Ends ways) (hq : q.Ends ways) : (p.either q).Ends ways :=
  fun _ _ _ h => h.elim (hp ·) (hq ·)

theorem Ends.seq (hp : p.Ends ways) (hq : q.Ends ways) : (p.seq q).Ends ways := by
  rintro before x after (⟨between, -, h⟩ | ⟨-, h⟩)
  · exact hq h
  · exact hp h

theorem Ends.rounds (hp : p.Ends ways) (hnormal : ways .normal) : (Paths.rounds p).Ends ways := by
  intro before x after h
  induction h with
  | none => exact hnormal
  | next _ _ ih => exact ih
  | last h _ => exact hp h

theorem Ends.catching (hp : p.Ends ways) (hq : q.Ends ways) : (p.catching q).Ends ways :=
  hp.either fun _ _ _ ⟨_, _, h⟩ => hq h

theorem Ends.finishing (hp : p.Ends ways) (hq : q.Ends ways) : (p.finishing q).Ends ways := by
  rintro before x after (⟨y, between, z, ⟨hy, -⟩, hz, rfl⟩ | ⟨name, rfl, h⟩)
  · split
    · exact hp hy
    · exact hq hz
  · exact hp h

/-- An exit that does not land is one of the paths themselves. -/
theorem landing_of_ne {before after : List String} {x : Exit} (h : p.landing lands before x after)
    (hx : x ≠ .normal) : p before x after ∧ lands x = false := by
  obtain ⟨y, hy, rfl⟩ := h
  cases hlands : lands y with
  | true => simp [hlands] at hx
  | false => simpa [hlands] using hy

end Paths

/-- Whether an exit can be that of an expression which evaluates given names. -/
def Exit.OfExpr (reads : String → Bool) : Exit → Prop
  | normal | thrown => True
  | misread name => reads name = true
  | _ => False

open Paths

theorem ends_pass {reads : String → Bool} : pass.Ends (Exit.OfExpr reads) :=
  (ends_halt trivial).either (ends_halt trivial)

theorem ends_assign {reads : String → Bool} (name : String) :
    (Paths.assign name).Ends (Exit.OfExpr reads) := by
  rintro _ _ _ ⟨rfl, -⟩
  trivial

theorem Paths.Ends.left {p : Paths} {reads reads' : String → Bool}
    (hp : p.Ends (Exit.OfExpr reads)) :
    p.Ends (Exit.OfExpr fun name => reads name || reads' name) :=
  hp.mono fun x hx => by cases x <;> simp_all [Exit.OfExpr]

theorem Paths.Ends.right {p : Paths} {reads reads' : String → Bool}
    (hp : p.Ends (Exit.OfExpr reads)) :
    p.Ends (Exit.OfExpr fun name => reads' name || reads name) :=
  hp.mono fun x hx => by cases x <;> simp_all [Exit.OfExpr]

mutual

/-- A path through an expression ends normally, by an exception, or where the expression
evaluates a name. -/
theorem Expr.ends (scope : List String) (e : Expr) :
    (e.paths scope).Ends (Exit.OfExpr (e.reads ·)) := by
  match e with
  | .literal _ _ _ | .this _ | .super _ | .annotationUse _ => rw [Expr.paths]; exact ends_pass
  | .name n =>
    simp only [Expr.paths, Expr.reads]
    cases n.segments with
    | nil => exact ends_pass
    | cons word _ =>
      refine ends_pass.either ?_
      rintro _ _ _ ⟨-, rfl, -⟩
      exact beq_self_eq_true word.name
  | .fieldAccess receiver _ _ =>
    simp only [Expr.paths, Expr.reads]
    exact (receiver.ends scope).seq ends_pass
  | .send none _ arguments _ _ =>
    simp only [Expr.paths, Expr.reads]
    exact (ends_pathsExprs scope arguments).seq ends_pass
  | .send (some receiver) _ arguments _ _ =>
    simp only [Expr.paths, Expr.reads]
    exact ((receiver.ends scope).left.seq (ends_pathsExprs scope arguments).right).seq ends_pass
  | .new _ arguments _ =>
    simp only [Expr.paths, Expr.reads]
    exact (ends_pathsExprs scope arguments).seq ends_pass
  | .assign target operator value _ =>
    simp only [Expr.paths, Expr.reads]
    cases target.word? with
    | none =>
      simp only [Option.isNone_none, Bool.true_or, Bool.true_and]
      exact ((target.ends scope).left.seq (value.ends scope).right).seq ends_pass
    | some word =>
      refine Ends.seq (Ends.seq ?_ (value.ends scope).right) (ends_assign word)
      cases operator with
      | none => exact ends_pass
      | some _ =>
        simp only [Option.isSome_some, Bool.or_true, Bool.true_and, if_true]
        exact (target.ends scope).left
  | .binary left operator right _ =>
    simp only [Expr.paths, Expr.reads]
    refine (left.ends scope).left.seq ?_
    split
    · exact (ends_halt trivial).either (right.ends scope).right
    · exact (right.ends scope).right.seq ends_pass
  | .unary operator operand _ =>
    simp only [Expr.paths, Expr.reads]
    refine (operand.ends scope).seq ?_
    split
    · unfold Expr.storePaths
      split
      · exact ends_assign _
      · exact ends_pass
    · exact ends_pass
  | .conditional condition whenTrue whenFalse _ =>
    simp only [Expr.paths, Expr.reads]
    exact (condition.ends scope).left.seq
      ((whenTrue.ends scope).left.right.either (whenFalse.ends scope).right.right)
  | .instanceOf value _ _ => simp only [Expr.paths, Expr.reads]; exact value.ends scope
  | .paren inner _ => simp only [Expr.paths, Expr.reads]; exact inner.ends scope

theorem ends_pathsExprs (scope : List String) (es : List Expr) :
    (pathsExprs scope es).Ends (Exit.OfExpr (exprsRead · es)) := by
  match es with
  | [] => rw [pathsExprs]; exact ends_pass
  | e :: rest =>
    simp only [pathsExprs, exprsRead]
    exact (e.ends scope).left.seq (ends_pathsExprs scope rest).right

end

/-! ### Jumps -/

/-- Whether an exit is one of given jumps, if it is a jump. -/
def Exit.Among (jumps : List Exit) (x : Exit) : Prop := x.isJump = true → x ∈ jumps

section Jumps

variable {p : Paths} {jumps jumps' : List Exit}

/-- A path through an expression ends by no jump. -/
theorem Paths.Ends.among {reads : String → Bool} (hp : p.Ends (Exit.OfExpr reads)) :
    p.Ends (Exit.Among jumps) :=
  hp.mono fun x hx hjump => by cases x <;> simp_all [Exit.OfExpr, Exit.isJump]

theorem Paths.Ends.among_left (hp : p.Ends (Exit.Among jumps)) :
    p.Ends (Exit.Among (jumps ++ jumps')) :=
  hp.mono fun _ hx hjump => List.mem_append_left _ (hx hjump)

theorem Paths.Ends.among_right (hp : p.Ends (Exit.Among jumps)) :
    p.Ends (Exit.Among (jumps' ++ jumps)) :=
  hp.mono fun _ hx hjump => List.mem_append_right _ (hx hjump)

theorem Exit.among_of_not_isJump {x : Exit} (hx : x.isJump = false) : x.Among jumps :=
  fun hjump => absurd hjump (by simp [hx])

theorem Paths.Ends.among_landing (hp : p.Ends (Exit.Among jumps)) (lands : Exit → Bool) :
    (p.landing lands).Ends (Exit.Among (jumps.filter (!lands ·))) := by
  intro before x after h hjump
  have hx : x ≠ .normal := by rintro rfl; cases hjump
  obtain ⟨hp', hlands⟩ := landing_of_ne h hx
  exact List.mem_filter.2 ⟨hp hp' hjump, by simp [hlands]⟩

theorem ends_halt_among {exit : Exit} (hexit : exit.isJump = false) :
    (halt exit).Ends (Exit.Among jumps) :=
  ends_halt (Exit.among_of_not_isJump hexit)

theorem ends_pass_among : pass.Ends (Exit.Among jumps) :=
  (ends_halt_among rfl).either (ends_halt_among rfl)

theorem ends_assign_among {name : String} : (Paths.assign name).Ends (Exit.Among jumps) := by
  rintro _ _ _ ⟨rfl, -⟩
  exact Exit.among_of_not_isJump rfl

theorem ends_pathsOptional (scope : List String) (e : Option Expr) :
    (pathsOptional scope e).Ends (Exit.Among jumps) := by
  cases e with
  | none => exact ends_pass_among
  | some e => exact (e.ends scope).among

theorem ends_exitPaths (scope : List String) (condition : Option Expr) :
    (exitPaths scope condition).Ends (Exit.Among jumps) := by
  cases condition with
  | none => exact fun _ _ _ h => h.elim
  | some condition => exact (condition.ends scope).among

theorem LocalVariable.ends (scope : List String) (v : LocalVariable) :
    (v.paths scope).Ends (Exit.Among jumps) := by
  have hcreate : (create v.name.name).Ends (Exit.Among jumps) := by
    rintro _ _ _ ⟨rfl, -⟩
    exact Exit.among_of_not_isJump rfl
  unfold LocalVariable.paths
  cases v.initializer with
  | none => exact hcreate
  | some value => exact (hcreate.seq (value.ends _).among).seq ends_assign_among

/-- The jumps from the body of a loop that do not land at the loop leave it. -/
theorem Paths.Ends.among_loop {labels : List String} {head tail exit : Paths}
    (hhead : head.Ends (Exit.Among (jumps.filter (!·.endsRound labels))))
    (hp : p.Ends (Exit.Among jumps))
    (htail : tail.Ends (Exit.Among (jumps.filter (!·.endsRound labels))))
    (hexit : exit.Ends (Exit.Among (jumps.filter (!·.endsRound labels)))) :
    (loop labels head p tail exit).Ends (Exit.Among (jumpsFromLoop labels jumps)) := by
  have hround := hhead.seq ((hp.among_landing (Exit.endsRound labels)).seq htail)
  exact ((hround.rounds (Exit.among_of_not_isJump rfl)).seq hexit).among_landing _

end Jumps

mutual

/-- A path through a statement ends by a jump only if the jump occurs in the statement. -/
theorem Statement.ends (scope labels : List String) (s : Statement) :
    (s.paths scope labels).Ends (Exit.Among (s.jumps labels)) := by
  match s with
  | .block ⟨statements, _⟩ =>
    simp only [Statement.paths, Statement.jumps]
    exact ends_pathsStatements scope statements
  | .localVariable v => rw [Statement.paths]; exact v.ends scope
  | .expression value _ => rw [Statement.paths]; exact (value.ends scope).among
  | .ifThen condition thenBranch none _ =>
    simp only [Statement.paths, Statement.jumps]
    exact (condition.ends scope).among.seq
      ((thenBranch.ends scope []).either (ends_halt_among rfl))
  | .ifThen condition thenBranch (some elseBranch) _ =>
    simp only [Statement.paths, Statement.jumps]
    exact (condition.ends scope).among.seq
      ((thenBranch.ends scope []).among_left.either (elseBranch.ends scope []).among_right)
  | .whileLoop condition body _ =>
    simp only [Statement.paths, Statement.jumps]
    exact .among_loop (condition.ends scope).among (body.ends scope []) ends_pass_among
      (condition.ends scope).among
  | .doLoop body condition _ =>
    simp only [Statement.paths, Statement.jumps]
    have hround :=
      ((body.ends scope []).among_landing (Exit.endsRound labels)).seq (condition.ends scope).among
    exact (hround.seq (hround.rounds (Exit.among_of_not_isJump rfl))).among_landing _
  | .forLoop init condition update body _ =>
    simp only [Statement.paths, Statement.jumps]
    refine (ends_pathsStatements scope init).among_left.seq (Ends.among_right ?_)
    exact .among_loop (ends_pathsOptional _ condition) (body.ends _ [])
      (ends_pathsExprs _ update).among (ends_exitPaths _ condition)
  | .forEach element collection body _ =>
    simp only [Statement.paths, Statement.jumps]
    exact (collection.ends scope).among.seq
      (.among_loop ends_assign_among (body.ends _ []) ends_pass_among ends_pass_among)
  | .returning value _ =>
    rw [Statement.paths]
    exact (ends_pathsOptional scope value).seq (ends_halt_among rfl)
  | .throwing value _ =>
    rw [Statement.paths]
    exact (value.ends scope).among.seq (ends_halt_among rfl)
  | .breaking label _ =>
    simp only [Statement.paths, Statement.jumps]
    exact ends_halt fun _ => List.mem_singleton_self _
  | .continuing label _ =>
    simp only [Statement.paths, Statement.jumps]
    exact ends_halt fun _ => List.mem_singleton_self _
  | .labeled label body _ =>
    simp only [Statement.paths, Statement.jumps]
    exact (body.ends scope _).among_landing _
  | .trying ⟨statements, _⟩ handlers none _ =>
    simp only [Statement.paths, Statement.jumps]
    exact (ends_pathsStatements scope statements).among_left.catching
      (ends_pathsCatches scope handlers).among_right
  | .trying ⟨statements, _⟩ handlers (some ⟨final, _⟩) _ =>
    simp only [Statement.paths, Statement.jumps]
    exact ((ends_pathsStatements scope statements).among_left.catching
      (ends_pathsCatches scope handlers).among_right).among_left.finishing
        (ends_pathsStatements scope final).among_right
  | .assertion condition message _ =>
    rw [Statement.paths]
    exact (ends_halt_among rfl).either ((condition.ends scope).among.seq
      ((ends_halt_among rfl).either
        ((ends_pathsOptional scope message).seq (ends_halt_among rfl))))
  | .constructorCall _ arguments _ =>
    rw [Statement.paths]
    exact (ends_pathsExprs scope arguments).among.seq ends_pass_among
  | .empty _ => rw [Statement.paths]; exact ends_pass_among

theorem ends_pathsStatements (scope : List String) (ss : List Statement) :
    (pathsStatements scope ss).Ends (Exit.Among (jumpsOf ss)) := by
  match ss with
  | [] => rw [pathsStatements]; exact ends_pass_among
  | s :: rest =>
    simp only [pathsStatements, jumpsOf]
    exact (s.ends scope []).among_left.seq (ends_pathsStatements _ rest).among_right

theorem ends_pathsCatches (scope : List String) (handlers : List CatchClause) :
    (pathsCatches scope handlers).Ends (Exit.Among (jumpsOfCatches handlers)) := by
  match handlers with
  | [] => rw [pathsCatches]; exact fun _ _ _ h => h.elim
  | ⟨parameter, ⟨statements, _⟩, _⟩ :: rest =>
    simp only [pathsCatches, jumpsOfCatches]
    exact (ends_assign_among.seq (ends_pathsStatements _ statements).among_left).either
      (ends_pathsCatches scope rest).among_right

end

/-! ### Assigned variables -/

section Assigned

variable {name : String} {f : BodyFlow}

theorem PathState.mem_assign {other : String} {s : PathState} :
    name ∈ (s.assign other).assigned ↔ name = other ∨ name ∈ s.assigned := by
  unfold PathState.assign
  split <;> grind

theorem PathState.mem_join {a b : PathState} (h : name ∈ (a.join b).assigned) :
    name ∈ a.assigned ∨ name ∈ b.assigned := by
  unfold PathState.join PathState.meet at h
  grind

theorem BodyFlow.mem_assign {other : String} (h : name ∈ (f.assign other).state.assigned) :
    name = other ∨ name ∈ f.state.assigned := by
  unfold BodyFlow.assign at h
  split at h
  · exact PathState.mem_assign.1 h
  · exact .inr h

theorem BodyFlow.state_use (f : BodyFlow) (other : String) (span : Span) :
    (f.use other span).state = f.state := by
  unfold BodyFlow.use
  split <;> rfl

theorem BodyFlow.assigned_reach (f : BodyFlow) (span : Span) :
    (f.reach span).state.assigned = f.state.assigned := by
  unfold BodyFlow.reach
  split <;> rfl

mutual

/-- What the analysis counts as assigned behind an expression that does not assign it was
assigned before. -/
theorem Expr.mem_assigned_of_flow (e : Expr) (f : BodyFlow) (he : e.assigns name = false)
    (h : name ∈ (e.flow f).state.assigned) : name ∈ f.state.assigned := by
  match e with
  | .literal _ _ _ | .this _ | .super _ | .annotationUse _ => rwa [Expr.flow] at h
  | .name n =>
    rw [Expr.flow] at h
    cases hn : n.segments with
    | nil => rwa [hn] at h
    | cons word _ => rwa [hn, BodyFlow.state_use] at h
  | .fieldAccess receiver _ _ =>
    rw [Expr.flow] at h
    rw [Expr.assigns] at he
    exact receiver.mem_assigned_of_flow f he h
  | .send none _ arguments _ _ =>
    rw [Expr.flow] at h
    rw [Expr.assigns] at he
    exact mem_assigned_of_flowExprs arguments f he h
  | .send (some receiver) _ arguments _ _ =>
    rw [Expr.flow] at h
    rw [Expr.assigns, Bool.or_eq_false_iff] at he
    exact receiver.mem_assigned_of_flow f he.1 (mem_assigned_of_flowExprs arguments _ he.2 h)
  | .new _ arguments _ =>
    rw [Expr.flow] at h
    rw [Expr.assigns] at he
    exact mem_assigned_of_flowExprs arguments f he h
  | .assign target operator value _ =>
    rw [Expr.flow] at h
    rw [Expr.assigns, Bool.or_eq_false_iff, Bool.or_eq_false_iff, beq_eq_false_iff_ne] at he
    obtain ⟨hword, htarget, hvalue⟩ := he
    cases ht : target.word? with
    | none =>
      rw [ht] at h
      exact target.mem_assigned_of_flow f htarget (value.mem_assigned_of_flow _ hvalue h)
    | some word =>
      rw [ht] at h hword
      rcases BodyFlow.mem_assign h with rfl | h
      · exact absurd rfl hword
      · have h := value.mem_assigned_of_flow _ hvalue h
        split at h
        · exact target.mem_assigned_of_flow f htarget h
        · exact h
  | .binary left operator right _ =>
    rw [Expr.flow_binary] at h
    rw [Expr.assigns, Bool.or_eq_false_iff] at he
    split at h
    · exact left.mem_assigned_of_flow f he.1 h
    · exact left.mem_assigned_of_flow f he.1 (right.mem_assigned_of_flow _ he.2 h)
  | .unary _ operand _ =>
    rw [Expr.flow] at h
    rw [Expr.assigns] at he
    exact operand.mem_assigned_of_flow f he h
  | .conditional condition whenTrue whenFalse _ =>
    rw [Expr.flow] at h
    rw [Expr.assigns, Bool.or_eq_false_iff, Bool.or_eq_false_iff] at he
    have hfalse := whenFalse.mem_assigned_of_flow _ he.2.2 (List.mem_filter.1 h).1
    exact condition.mem_assigned_of_flow f he.1 hfalse
  | .instanceOf value _ _ =>
    rw [Expr.flow] at h
    rw [Expr.assigns] at he
    exact value.mem_assigned_of_flow f he h
  | .paren inner _ =>
    rw [Expr.flow] at h
    rw [Expr.assigns] at he
    exact inner.mem_assigned_of_flow f he h

theorem mem_assigned_of_flowExprs (es : List Expr) (f : BodyFlow)
    (hes : exprsAssign name es = false) (h : name ∈ (flowExprs es f).state.assigned) :
    name ∈ f.state.assigned := by
  match es with
  | [] => rwa [flowExprs] at h
  | e :: rest =>
    rw [flowExprs] at h
    rw [exprsAssign, Bool.or_eq_false_iff] at hes
    exact e.mem_assigned_of_flow f hes.1 (mem_assigned_of_flowExprs rest _ hes.2 h)

end

theorem mem_assigned_of_flowOptional (e : Option Expr) (he : optionalAssigns name e = false)
    (h : name ∈ (flowOptional e f).state.assigned) : name ∈ f.state.assigned := by
  cases e with
  | none => exact h
  | some e => exact e.mem_assigned_of_flow f he h

theorem assigned_flowThrow (value : Expr) (span : Span) (f : BodyFlow) :
    (flowThrow value span f).state.assigned = (value.flow f).state.assigned := by
  have hthrows : ∀ thrown, ((value.flow f).throws thrown span).state.assigned =
      (value.flow f).state.assigned := by
    intro thrown
    unfold BodyFlow.throws
    split <;> rfl
  unfold flowThrow
  dsimp only
  split
  · exact hthrows _
  · rfl

theorem mem_foldl_insert {names assigned : List String} :
    name ∈ names.foldl (fun assigned name =>
        if assigned.contains name then assigned else name :: assigned) assigned ↔
      name ∈ assigned ∨ name ∈ names := by
  induction names generalizing assigned with
  | nil => simp
  | cons other rest ih =>
    rw [List.foldl_cons, ih]
    split <;> grind

theorem Statement.mem_scopeAfter {scope : List String} (hname : name ∈ scope) (s : Statement) :
    name ∈ s.scopeAfter scope := by
  unfold Statement.scopeAfter
  split
  · exact List.mem_cons_of_mem _ hname
  · exact hname

theorem mem_foldl_scopeAfter {scope : List String} (hname : name ∈ scope) (ss : List Statement) :
    name ∈ ss.foldl Statement.scopeAfter scope := by
  induction ss generalizing scope with
  | nil => exact hname
  | cons s rest ih => exact ih (s.mem_scopeAfter hname)

mutual

/-- What the analysis counts as assigned behind a statement that does not assign it was assigned
before, if it was in scope before. -/
theorem Statement.mem_assigned_of_flow {scope : List String} (hname : name ∈ scope)
    (s : Statement) (f : BodyFlow) (hfresh : s.fresh scope = true) (hs : s.assigns name = false)
    (h : name ∈ (s.flow f).state.assigned) : name ∈ f.state.assigned := by
  match s with
  | .block ⟨statements, _⟩ =>
    rw [Statement.flow] at h
    rw [Statement.fresh] at hfresh
    rw [Statement.assigns] at hs
    exact mem_assigned_of_flowStatements hname statements f.enter hfresh hs h
  | .localVariable v =>
    rw [Statement.flow, BodyFlow.mem_assigned_declare] at h
    rw [Statement.fresh] at hfresh
    rw [Statement.assigns] at hs
    have hne : name ≠ v.name.name := by rintro rfl; simp [hname] at hfresh
    rw [if_neg hne] at h
    exact mem_assigned_of_flowOptional v.initializer hs h
  | .expression value _ =>
    rw [Statement.flow] at h
    rw [Statement.assigns] at hs
    exact value.mem_assigned_of_flow f hs h
  | .ifThen condition thenBranch none _ =>
    rw [Statement.flow] at h
    rw [Statement.fresh] at hfresh
    rw [Statement.assigns, Bool.or_eq_false_iff] at hs
    refine condition.mem_assigned_of_flow f hs.1 ?_
    rcases PathState.mem_join h with h | h
    · exact thenBranch.mem_assigned_of_flow hname _ hfresh hs.2 h
    · exact h
  | .ifThen condition thenBranch (some elseBranch) _ =>
    rw [Statement.flow] at h
    rw [Statement.fresh, Bool.and_eq_true] at hfresh
    rw [Statement.assigns, Bool.or_eq_false_iff, Bool.or_eq_false_iff] at hs
    refine condition.mem_assigned_of_flow f hs.1 ?_
    rcases PathState.mem_join h with h | h
    · exact thenBranch.mem_assigned_of_flow hname _ hfresh.1 hs.2.1 h
    · have h := elseBranch.mem_assigned_of_flow hname _ hfresh.2 hs.2.2 h
      exact h
  | .whileLoop condition body _ =>
    rw [Statement.flow] at h
    rw [Statement.assigns, Bool.or_eq_false_iff] at hs
    exact condition.mem_assigned_of_flow f hs.1 h
  | .doLoop body condition _ =>
    rw [Statement.flow] at h
    rw [Statement.fresh] at hfresh
    rw [Statement.assigns, Bool.or_eq_false_iff] at hs
    have h := condition.mem_assigned_of_flow _ hs.2 h
    exact body.mem_assigned_of_flow hname f hfresh hs.1 h
  | .forLoop init condition update body _ =>
    rw [Statement.flow] at h
    rw [Statement.fresh, Bool.and_eq_true] at hfresh
    rw [Statement.assigns, Bool.or_eq_false_iff, Bool.or_eq_false_iff] at hs
    have h := mem_assigned_of_flowOptional condition hs.1.2 h
    exact mem_assigned_of_flowInit hname init f.enter hfresh.1 hs.1.1 h
  | .forEach element collection body _ =>
    rw [Statement.flow] at h
    rw [Statement.fresh, Bool.and_eq_true] at hfresh
    rw [Statement.assigns, Bool.or_eq_false_iff] at hs
    have hne : name ≠ element.name.name := by rintro rfl; simp [hname] at hfresh
    change name ∈ ((collection.flow f).enter.declare element.name.name element.type.simpleName
      true).state.assigned at h
    rw [BodyFlow.mem_assigned_declare, if_neg hne] at h
    exact collection.mem_assigned_of_flow f hs.1 h
  | .returning value _ =>
    rw [Statement.flow] at h
    rw [Statement.assigns] at hs
    exact mem_assigned_of_flowOptional value hs h
  | .throwing value span =>
    rw [Statement.flow, assigned_flowThrow] at h
    rw [Statement.assigns] at hs
    exact value.mem_assigned_of_flow f hs h
  | .breaking _ _ | .continuing _ _ => rwa [Statement.flow] at h
  | .labeled _ body _ =>
    rw [Statement.flow] at h
    rw [Statement.fresh] at hfresh
    rw [Statement.assigns] at hs
    exact body.mem_assigned_of_flow hname f hfresh hs h
  | .trying ⟨statements, _⟩ handlers none _ =>
    rw [Statement.flow_trying_none] at h
    rw [Statement.fresh, Bool.and_eq_true] at hfresh
    rw [Statement.assigns, Bool.or_eq_false_iff] at hs
    rcases mem_assigned_of_flowCatches hname handlers _ _ _ hfresh.2 hs.2 h with h | h
    · have h := mem_assigned_of_flowStatements hname statements _ hfresh.1 hs.1 h
      exact h
    · exact h
  | .trying ⟨statements, _⟩ handlers (some ⟨final, _⟩) _ =>
    rw [Statement.flow_trying_some] at h
    rw [Statement.fresh, Bool.and_eq_true, Bool.and_eq_true] at hfresh
    rw [Statement.assigns, Bool.or_eq_false_iff, Bool.or_eq_false_iff] at hs
    rcases mem_foldl_insert.1 h with h | h
    · rcases mem_assigned_of_flowCatches hname handlers _ _ _ hfresh.1.2 hs.1.2 h with h | h
      · have h := mem_assigned_of_flowStatements hname statements _ hfresh.1.1 hs.1.1 h
        exact h
      · exact h
    · have h := mem_assigned_of_flowStatements hname final _ hfresh.2 hs.2 h
      exact h
  | .assertion _ _ _ => rwa [Statement.flow] at h
  | .constructorCall _ arguments _ =>
    rw [Statement.flow] at h
    rw [Statement.assigns] at hs
    exact mem_assigned_of_flowExprs arguments f hs h
  | .empty _ => rwa [Statement.flow] at h

theorem mem_assigned_of_flowStatements {scope : List String} (hname : name ∈ scope)
    (ss : List Statement) (f : BodyFlow) (hfresh : freshStatements scope ss = true)
    (hss : statementsAssign name ss = false) (h : name ∈ (flowStatements ss f).state.assigned) :
    name ∈ f.state.assigned := by
  match ss with
  | [] => rwa [flowStatements] at h
  | s :: rest =>
    rw [flowStatements] at h
    rw [freshStatements, Bool.and_eq_true] at hfresh
    rw [statementsAssign, Bool.or_eq_false_iff] at hss
    have h := mem_assigned_of_flowStatements (s.mem_scopeAfter hname) rest _ hfresh.2 hss.2 h
    have h := s.mem_assigned_of_flow hname _ hfresh.1 hss.1 h
    rwa [BodyFlow.assigned_reach] at h

theorem mem_assigned_of_flowInit {scope : List String} (hname : name ∈ scope)
    (ss : List Statement) (f : BodyFlow) (hfresh : freshStatements scope ss = true)
    (hss : statementsAssign name ss = false) (h : name ∈ (flowInit ss f).state.assigned) :
    name ∈ f.state.assigned := by
  match ss with
  | [] => rwa [flowInit] at h
  | s :: rest =>
    rw [flowInit] at h
    rw [freshStatements, Bool.and_eq_true] at hfresh
    rw [statementsAssign, Bool.or_eq_false_iff] at hss
    have h := mem_assigned_of_flowInit (s.mem_scopeAfter hname) rest _ hfresh.2 hss.2 h
    exact s.mem_assigned_of_flow hname f hfresh.1 hss.1 h

theorem mem_assigned_of_flowCatches {scope : List String} (hname : name ∈ scope)
    (handlers : List CatchClause) (before : List String) (joined : PathState) (f : BodyFlow)
    (hfresh : freshCatches scope handlers = true) (hs : catchesAssign name handlers = false)
    (h : name ∈ (flowCatches handlers before joined f).state.assigned) :
    name ∈ joined.assigned ∨ name ∈ before := by
  match handlers with
  | [] => rw [flowCatches] at h; exact .inl h
  | ⟨parameter, ⟨statements, _⟩, _⟩ :: rest =>
    rw [flowCatches] at h
    rw [freshCatches, Bool.and_eq_true, Bool.and_eq_true] at hfresh
    rw [catchesAssign, Bool.or_eq_false_iff] at hs
    rcases mem_assigned_of_flowCatches hname rest _ _ _ hfresh.2 hs.2 h with h | h
    · rcases PathState.mem_join h with h | h
      · exact .inl h
      · have hne : name ≠ parameter.name.name := by rintro rfl; simp [hname] at hfresh
        have h := mem_assigned_of_flowStatements (List.mem_cons_of_mem _ hname) statements _
          hfresh.1.2 hs.1 h
        change name ∈ ((f.setState ⟨before, true⟩).enter.declare parameter.name.name
          parameter.type.simpleName true).state.assigned at h
        rw [BodyFlow.mem_assigned_declare, if_neg hne] at h
        exact .inr h
    · exact .inr h

end

end Assigned

end AspectLang
