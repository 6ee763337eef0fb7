import AspectLang.Proofs.Parse.ActionReports
import AspectLang.Proofs.Parse.TrialRuns

/-! # Courses of runs

The steps of a run are counted along its `Machine.course`: what so many steps come to, with the
machine staying where it has stopped (`Machine.run_eq_course`).  A step that looks for no repair
leaves the record of repairs alone, but for the shift that may confirm a repair, and only actions
report in it (`Machine.quiet_step`). -/

namespace AspectLang

open Reporter (Adds)

namespace Machine

variable {p : ParserSetup} {m m' : Machine}

/-! ### The course of a run -/

section

variable {α : Type}

/-- The machine that a computation leaves. -/
def left : EStateM.Result Fault Machine α → Machine
  | .ok _ m => m
  | .error _ m => m

end

/-- Does another step, unless the machine has stopped. -/
def goOn (p : ParserSetup) : EStateM.Result Fault Machine Progress →
    EStateM.Result Fault Machine Progress
  | .ok .running m => step p m
  | stopped => stopped

/-- What so many steps come to. -/
def course (p : ParserSetup) (start : Machine) (n : Nat) : EStateM.Result Fault Machine Progress :=
  (goOn p)^[n] (.ok .running start)

theorem course_succ (start : Machine) (n : Nat) :
    course p start (n + 1) = goOn p (course p start n) := Function.iterate_succ_apply' ..

theorem course_succ_of_running {start : Machine} {n : Nat} (h : course p start n = .ok .running m) :
    course p start (n + 1) = step p m := by
  rw [course_succ, h]
  rfl

theorem goOn_of_stopped {r : EStateM.Result Fault Machine Progress}
    (h : ∀ m, r ≠ .ok .running m) : goOn p r = r := by
  unfold goOn
  split
  · exact absurd rfl (h _)
  · rfl

/-- Where the machine has stopped, it stays. -/
theorem course_add_of_stopped {start : Machine} {n : Nat}
    (h : ∀ m, course p start n ≠ .ok .running m) (k : Nat) :
    course p start (n + k) = course p start n := by
  induction k with
  | zero => rfl
  | succ k ih => rw [← Nat.add_assoc, course_succ, ih, goOn_of_stopped h]

/-- A run comes to what its course comes to, unless its steps run out. -/
theorem run_eq_course (p : ParserSetup) (limit gas : Nat) (start : Machine) :
    run p limit gas start =
      match course p start gas with
      | .ok .running m => .error (.outOfGas limit) m
      | stopped => stopped := by
  induction gas generalizing start with
  | zero => rfl
  | succ gas ih =>
      rw [run_succ, course, Function.iterate_succ_apply]
      change _ = (match (goOn p)^[gas] (step p start) with
        | .ok .running m => .error (.outOfGas limit) m
        | stopped => stopped : EStateM.Result Fault Machine Progress)
      have hstays : ∀ r : EStateM.Result Fault Machine Progress, goOn p r = r →
          (goOn p)^[gas] r = r := fun r hr => Function.iterate_fixed hr gas
      cases step p start with
      | error e m => rw [hstays _ rfl]
      | ok progress m =>
          cases progress with
          | running => exact ih m
          | accepted | abandoned => rw [hstays _ rfl]

/-! ### Steps that look for no repair -/

/-- Only actions report, and the record of repairs is left alone. -/
structure OnlyActs (m m' : Machine) : Prop where
  adds : Adds Diagnostic.OfAction m.work.reporter m'.work.reporter
  recovery : m'.recovery = m.recovery

theorem OnlyActs.refl (m : Machine) : m.OnlyActs m := ⟨.refl, rfl⟩

theorem OnlyActs.trans (m m' last : Machine) (h : m.OnlyActs m') (h' : m'.OnlyActs last) :
    m.OnlyActs last := ⟨h.adds.trans h'.adds, h'.recovery.trans h.recovery⟩

theorem onlyActs_onWork (dialect : Dialect) (c : Handle) (action : SemanticAction) :
    Moves OnlyActs (onWork (Work.act dialect c action)) := by
  intro m
  have h := Work.adds_act dialect c action m.work
  unfold onWork
  generalize Work.act dialect c action m.work = result at h
  cases h with
  | ok h => exact .ok ⟨h, rfl⟩
  | error h => exact .error ⟨h, rfl⟩

theorem onlyActs_stateOnTop : Moves OnlyActs stateOnTop := by
  refine .get_bind fun m => ?_
  split
  · exact .throw .refl _
  · exact .pure .refl _

theorem onlyActs_reduce (dialect : Dialect) (production : Nat) (lookahead : Span) :
    Moves OnlyActs (reduce dialect production lookahead) := by
  unfold reduce
  split
  · exact .throw .refl _
  · refine .get_bind fun m => ?_
    split
    · exact .throw .refl _
    · refine .bind .trans (fun _ => .ok ⟨.refl, rfl⟩) fun spans => ?_
      refine .bind .trans (.modifies fun _ => ⟨.refl, rfl⟩) fun _ => ?_
      refine .bind .trans (onlyActs_onWork _ _ _) fun _ => ?_
      refine .bind .trans onlyActs_stateOnTop fun top => ?_
      split
      · exact .throw .refl _
      · exact .modifies fun _ => ⟨.refl, rfl⟩

theorem onlyActs_attempt {x : Step Unit} (hx : Moves OnlyActs x) : Moves OnlyActs (attempt x) := by
  intro m
  have h := hx m
  unfold attempt
  generalize x m = result at h
  cases h with
  | ok h => exact .ok h
  | error h =>
      dsimp only
      split
      · exact .error h
      · exact .ok h

theorem onlyActs_settle (dialect : Dialect) (offset gas : Nat) :
    Moves OnlyActs (settle dialect offset gas) := by
  induction gas with
  | zero => exact .pure .refl _
  | succ gas ih =>
      refine .get_bind fun m => ?_
      cases m.pending? with
      | none => exact .pure .refl _
      | some production =>
          refine .bind .trans (onlyActs_attempt (onlyActs_reduce _ _ _)) fun succeeded => ?_
          cases succeeded with
          | true => exact ih
          | false => exact .pure .refl _

/-- The record of repairs after a step that looks for none. -/
def nextRecovery (p : ParserSetup) (m : Machine) : Recovery :=
  if m.nextShift?.isSome then m.recovery.shifted p.settings.recoveryWindow else m.recovery

/-- Only actions report, and only a shift may confirm a repair. -/
structure Quiet (p : ParserSetup) (m m' : Machine) : Prop where
  adds : Adds Diagnostic.OfAction m.work.reporter m'.work.reporter
  recovery : m'.recovery = m.nextRecovery p

theorem quiet_of_onlyActs (hshift : m.nextShift? = none) (h : m.OnlyActs m') : Quiet p m m' := by
  refine ⟨h.adds, h.recovery.trans ?_⟩
  unfold nextRecovery
  rw [hshift]
  rfl

/-- What a step comes to that looks for no repair. -/
inductive QuietEnd (p : ParserSetup) (m : Machine) : EStateM.Result Fault Machine Progress → Prop
  | running {m' : Machine} : Quiet p m m' → QuietEnd p m (.ok .running m')
  | accepted {m' : Machine} : Quiet p m m' → QuietEnd p m (.ok .accepted m')
  | error {e : Fault} {m' : Machine} : Quiet p m m' → QuietEnd p m (.error e m')

theorem QuietEnd.left {r : EStateM.Result Fault Machine Progress} (h : QuietEnd p m r) :
    Quiet p m (left r) := by
  cases h with
  | running h | accepted h | error h => exact h

theorem step_of_no_states (p : ParserSetup) (hstates : m.states = []) :
    step p m = .error (.stackUnderflow .state m.production) m := by
  have htop : stateOnTop m = .error (.stackUnderflow .state m.production) m := by
    unfold stateOnTop
    rw [get_bind, hstates]
    rfl
  unfold step
  exact bind_error htop

theorem quiet_step (p : ParserSetup) (hseeks : m.seeksRepair = false) :
    QuietEnd p m (step p m) := by
  cases hstates : m.states with
  | nil =>
      rw [step_of_no_states p hstates]
      refine .error (quiet_of_onlyActs ?_ (.refl m))
      unfold nextShift?
      rw [hstates]
      rfl
  | cons state below =>
      cases hrest : m.rest with
      | nil =>
          rw [step_of_no_tokens hstates hrest]
          refine .error (quiet_of_onlyActs ?_ (.refl m))
          unfold nextShift?
          rw [hstates, hrest]
          rfl
      | cons t rest =>
          have hnext := nextShift?_of_action hstates hrest
          rw [seeksRepair_eq hstates hrest] at hseeks
          rw [step_eq hstates hrest]
          cases haction : Language.tables.action state t.kind with
          | shift target =>
              rw [haction] at hnext
              refine .running ⟨.refl, ?_⟩
              unfold nextRecovery
              rw [hnext]
              rfl
          | accept =>
              rw [haction] at hnext
              exact .accepted (quiet_of_onlyActs hnext (.refl m))
          | reduce production =>
              rw [haction] at hnext
              have h := onlyActs_reduce p.dialect production t.span m
              dsimp only
              generalize reduce p.dialect production t.span m = result at h
              cases h with
              | ok h => exact .running (quiet_of_onlyActs hnext h)
              | error h => exact .error (quiet_of_onlyActs hnext h)
          | error =>
              rw [haction] at hnext
              rw [haction, decide_eq_true rfl, Bool.true_and, Bool.or_eq_false_iff,
                decide_eq_false_iff_not, decide_eq_false_iff_not] at hseeks
              dsimp only
              rw [if_neg hseeks.1]
              cases hsplit : t.split with
              | whole => exact absurd hsplit hseeks.2
              | halves first second => exact .running (quiet_of_onlyActs hnext ⟨.refl, rfl⟩)
              | crashes => exact .error (quiet_of_onlyActs hnext (.refl m))

end Machine

end AspectLang
