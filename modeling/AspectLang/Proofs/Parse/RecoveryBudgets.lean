import AspectLang.Proofs.Parse.Courses
import AspectLang.Proofs.Parse.TracedRuns

/-! # The budgets of recovery

Looking for a repair is bounded in three ways.  It is given up when the unit has too many errors, so
few diagnostics come from it; a unit that is given up says so, once; and too many tokens that were
passed over in a row, with no repair confirmed among them, end the unit as well.

`Machine.Recovered` lists what a step can do that looks for a repair.  With what the other steps do
(`Machine.quiet_step`) it tells what the record keeps along a run (`Machine.budgeted_course`) and how
few tokens are passed over between two confirmations (`Machine.parsingErrors_le`).  The latter bound
is met: before a unit nothing mends a closing brace with another behind it, so each of them is passed
over (`Machine.parsingErrors_braces`). -/

namespace AspectLang

open Reporter (Adds)

namespace Machine

variable {p : ParserSetup} {m m' : Machine}

/-! ### What is counted along a run -/

/-- The diagnostics that the first steps add while they look for repairs. -/
def repairReports (p : ParserSetup) (start : Machine) : Nat → List Diagnostic
  | 0 => []
  | n + 1 =>
    repairReports p start n ++
      match course p start n with
      | .ok .running m =>
        if m.seeksRepair then
          (left (step p m)).work.reporter.diagnostics.toList.drop m.work.reporter.diagnostics.size
        else []
      | _ => []

/-- How many tokens were shifted since a repair was made or a token passed over, if that has
happened. -/
def shiftsSince (p : ParserSetup) (start : Machine) : Nat → Option Nat
  | 0 => none
  | n + 1 =>
    match course p start n with
    | .ok .running m =>
      if m.seeksRepair then some 0
      else if m.nextShift?.isSome then (shiftsSince p start n).map (· + 1)
      else shiftsSince p start n
    | _ => shiftsSince p start n

/-- A step confirms a repair: with it as many tokens are shifted in a row as the window asks for, at
least one. -/
def Confirms (p : ParserSetup) (start : Machine) (n : Nat) : Prop :=
  shiftsSince p start (n + 1) = some (max p.settings.recoveryWindow 1) ∧
    shiftsSince p start n ≠ some (max p.settings.recoveryWindow 1)

/-- How often the first steps report that a token fits nowhere. -/
def parsingErrors (p : ParserSetup) (start : Machine) (n : Nat) : Nat :=
  (left (course p start n)).work.reporter.count .parsingError

/-! ### Steps that look for a repair -/

/-- What looking for a repair comes to, and what it leaves of the reporter and of the record. -/
inductive Recovered (p : ParserSetup) (m : Machine) : Progress → Reporter → Recovery → Prop
  | spent : m.recovery.phase = .abandoned → Recovered p m .abandoned m.work.reporter m.recovery
  | exhausted {span : Span} {arguments : List String} : m.work.reporter.isOutOfBudget = true →
      Recovered p m .abandoned (m.work.reporter.error .unitAbandoned span arguments)
        { m.recovery with phase := .abandoned }
  | unmendable {span span' : Span} {arguments arguments' : List String} {r : Recovery} :
      m.work.reporter.isOutOfBudget = false →
        Recovered p m .abandoned ((m.work.reporter.error .parsingError span arguments).error
          .unitAbandoned span' arguments') r
  | repaired {id : ProblemKind} {span : Span} {arguments : List String} :
      m.work.reporter.isOutOfBudget = false → id = .insertToComplete ∨ id = .deleteToken →
        Recovered p m .running (m.work.reporter.error id span arguments) m.recovery.repaired
  | passedOver {span : Span} {arguments : List String} : m.work.reporter.isOutOfBudget = false →
      m.recovery.failures + 1 < p.settings.maxRecoveryAttempts →
        Recovered p m .running (m.work.reporter.error .parsingError span arguments)
          { m.recovery.resynchronize with failures := m.recovery.failures + 1 }

theorem recovered_recover (p : ParserSetup) (t : Token) (m : Machine) :
    Recovered p m (recover p t m).1 (recover p t m).2.work.reporter (recover p t m).2.recovery := by
  unfold recover
  split
  · rename_i hphase
    exact .spent hphase
  · split
    · rename_i hbudget
      exact .exhausted hbudget
    · rename_i hbudget
      have hbudget : m.work.reporter.isOutOfBudget = false := Bool.eq_false_iff.mpr hbudget
      split
      · exact .unmendable hbudget
      · dsimp only
        split
        · exact .repaired hbudget (.inl rfl)
        · exact .repaired hbudget (.inr rfl)
        · unfold passOver
          dsimp only
          split
          · exact .unmendable hbudget
          · split
            · exact .unmendable hbudget
            · rename_i hfailures
              exact .passedOver hbudget (Nat.lt_of_not_le hfailures)

end Machine

/-! ### What the record keeps -/

/-- The record tells of so many shifts since the last change of the input: fewer than the window
asks for have not confirmed it yet. -/
def Recovery.Tells (window : Nat) (r : Recovery) : (shifts : Option Nat) → Prop
  | none => r.phase = .parsing
  | some k => r.phase = .resynchronized ∧ r.shifts = k ∧ k < max window 1 ∨
      r.phase = .parsing ∧ max window 1 ≤ k

namespace Recovery

variable {window : Nat} {r : Recovery} {shifts : Option Nat}

theorem Tells.phase_ne (h : r.Tells window shifts) : r.phase ≠ .abandoned := by
  unfold Tells at h
  split at h
  · rw [h]
    decide
  · rcases h with ⟨h, _⟩ | ⟨h, _⟩
    · rw [h]
      decide
    · rw [h]
      decide

/-- A shift goes on telling, and it forgets the failures only where it confirms a repair. -/
theorem Tells.shifted (h : r.Tells window shifts) :
    (r.shifted window).Tells window (shifts.map (· + 1)) ∧
      ((r.shifted window).failures = r.failures ∨
        (r.shifted window).failures = 0 ∧ shifts.map (· + 1) = some (max window 1) ∧
          shifts ≠ some (max window 1)) := by
  cases shifts with
  | none =>
      have hsame : r.shifted window = r := by
        unfold Recovery.shifted
        rw [show r.phase = .parsing from h]
      rw [hsame]
      exact ⟨h, .inl rfl⟩
  | some k =>
      rcases h with ⟨hphase, hshifts, hk⟩ | ⟨hphase, hk⟩
      · have hsame : r.shifted window = if window ≤ k + 1 then
            { r with shifts := k + 1, failures := 0, phase := .parsing }
          else { r with shifts := k + 1 } := by
          unfold Recovery.shifted
          rw [hphase, hshifts]
        rw [hsame]
        split
        · have hmax : k + 1 = max window 1 := by omega
          refine ⟨.inr ⟨rfl, hmax.ge⟩, .inr ⟨rfl, congrArg some hmax, ?_⟩⟩
          rw [← hmax]
          simp
        · refine ⟨.inl ⟨hphase, rfl, ?_⟩, .inl rfl⟩
          change k + 1 < max window 1
          omega
      · have hsame : r.shifted window = r := by
          unfold Recovery.shifted
          rw [hphase]
        rw [hsame]
        exact ⟨.inr ⟨hphase, Nat.le_succ_of_le hk⟩, .inl rfl⟩

end Recovery

namespace Machine

variable {p : ParserSetup} {start m m' : Machine} {n : Nat}

/-- What holds of a machine that still runs after `n` steps. -/
structure WithinBudget (p : ParserSetup) (start : Machine) (n : Nat) (m : Machine) : Prop where
  maxErrors : m.work.reporter.maxErrors = max p.settings.maxErrors 1
  reports_le_errors : (repairReports p start n).length ≤ m.work.reporter.errorCount
  reports_le_max : (repairReports p start n).length ≤ max p.settings.maxErrors 1
  tells : m.recovery.Tells p.settings.recoveryWindow (shiftsSince p start n)
  failures : m.recovery.failures < max p.settings.maxRecoveryAttempts 1
  notAbandoned : m.work.reporter.count .unitAbandoned = 0

/-- What holds of what `n` steps come to. -/
def Budgeted (p : ParserSetup) (start : Machine) (n : Nat) :
    EStateM.Result Fault Machine Progress → Prop
  | .ok .running m => WithinBudget p start n m
  | .ok progress m =>
    (repairReports p start n).length ≤ max p.settings.maxErrors 1 + 1 ∧
      m.work.reporter.count .unitAbandoned = if progress = .abandoned then 1 else 0
  | .error _ _ => (repairReports p start n).length ≤ max p.settings.maxErrors 1 + 1

theorem OfAction.id_ne {d : Diagnostic} (h : d.OfAction) :
    d.id ≠ .unitAbandoned ∧ d.id ≠ .parsingError := by
  rcases h with h | h
  · unfold Diagnostic.OfConstruct at h
    refine ⟨fun hid => ?_, fun hid => ?_⟩
    · rw [hid] at h
      cases h
    · rw [hid] at h
      cases h
  · rw [h]
    exact ⟨nofun, nofun⟩

theorem repairReports_succ_quiet (h : course p start n = .ok .running m)
    (hseeks : m.seeksRepair = false) : repairReports p start (n + 1) = repairReports p start n := by
  rw [repairReports, h]
  dsimp only
  rw [hseeks, if_neg Bool.false_ne_true, List.append_nil]

theorem repairReports_succ_stopped (h : ∀ m, course p start n ≠ .ok .running m) :
    repairReports p start (n + 1) = repairReports p start n := by
  rw [repairReports]
  split
  · rename_i m hm
    exact absurd hm (h m)
  · exact List.append_nil _

theorem length_repairReports_succ (h : course p start n = .ok .running m)
    (hseeks : m.seeksRepair = true) : (repairReports p start (n + 1)).length =
      (repairReports p start n).length +
        ((left (step p m)).work.reporter.diagnostics.size - m.work.reporter.diagnostics.size) := by
  rw [repairReports, h]
  dsimp only
  rw [if_pos hseeks, List.length_append, List.length_drop]
  rfl

theorem shiftsSince_succ (h : course p start n = .ok .running m)
    (hseeks : m.seeksRepair = false) : shiftsSince p start (n + 1) =
      if m.nextShift?.isSome then (shiftsSince p start n).map (· + 1)
      else shiftsSince p start n := by
  rw [shiftsSince, h]
  dsimp only
  rw [hseeks, if_neg Bool.false_ne_true]

theorem shiftsSince_succ_seeking (h : course p start n = .ok .running m)
    (hseeks : m.seeksRepair = true) : shiftsSince p start (n + 1) = some 0 := by
  rw [shiftsSince, h]
  exact if_pos hseeks

/-- After a quiet step the record goes on telling, and failures are forgotten only where the step
confirms a repair. -/
theorem tells_nextRecovery (h : course p start n = .ok .running m) (hseeks : m.seeksRepair = false)
    (htells : m.recovery.Tells p.settings.recoveryWindow (shiftsSince p start n)) :
    (m.nextRecovery p).Tells p.settings.recoveryWindow (shiftsSince p start (n + 1)) ∧
      ((m.nextRecovery p).failures = m.recovery.failures ∨
        (m.nextRecovery p).failures = 0 ∧ Confirms p start n) := by
  unfold nextRecovery Confirms
  rw [shiftsSince_succ h hseeks]
  split
  · exact htells.shifted
  · exact ⟨htells, .inl rfl⟩

theorem exists_token_of_seeksRepair (h : m.seeksRepair = true) : ∃ t rest, m.rest = t :: rest := by
  unfold seeksRepair at h
  split at h
  · rename_i t rest _ hrest
    exact ⟨t, rest, hrest⟩
  · cases h

theorem size_error (r : Reporter) (id : ProblemKind) (span : Span) (arguments : List String) :
    (r.error id span arguments).diagnostics.size = r.diagnostics.size + 1 := Array.size_push ..

theorem Recovery.tells_zero (window : Nat) {r : Recovery} (hphase : r.phase = .resynchronized)
    (hshifts : r.shifts = 0) : r.Tells window (some 0) :=
  .inl ⟨hphase, hshifts, Nat.lt_of_lt_of_le Nat.one_pos (Nat.le_max_right _ _)⟩

theorem errorCount_error {id : ProblemKind} (h : id.severity = .error) (r : Reporter) (span : Span)
    (arguments : List String) : (r.error id span arguments).errorCount = r.errorCount + 1 := by
  unfold Reporter.error Reporter.report Diagnostic.isError Diagnostic.of
  dsimp only
  rw [h]
  rfl

/-- What a step that looks for a repair leaves to keep. -/
theorem budgeted_of_seeking (h : course p start n = .ok .running m) (hm : WithinBudget p start n m)
    (hseeks : m.seeksRepair = true) : Budgeted p start (n + 1) (step p m) := by
  obtain ⟨t, rest, hrest⟩ := exists_token_of_seeksRepair hseeks
  have hreports := length_repairReports_succ h hseeks
  have hshifts := shiftsSince_succ_seeking h hseeks
  obtain ⟨hmax, herrors, hle, htells, hfailures, hnot⟩ := hm
  rw [step_of_seeksRepair hseeks hrest] at hreports ⊢
  have hrecovered := recovered_recover p t m
  generalize recover p t m = result at hrecovered hreports
  obtain ⟨progress, m'⟩ := result
  change (repairReports p start (n + 1)).length = (repairReports p start n).length +
    (m'.work.reporter.diagnostics.size - m.work.reporter.diagnostics.size) at hreports
  have hwithin : m.work.reporter.isOutOfBudget = false →
      m.work.reporter.errorCount < max p.settings.maxErrors 1 := by
    intro hbudget
    rw [← hmax]
    exact Nat.lt_of_not_le (decide_eq_false_iff_not.mp hbudget)
  dsimp only at hrecovered ⊢
  generalize hreporter : m'.work.reporter = reporter, hrecovery : m'.recovery = recovery
    at hrecovered hreports
  cases hrecovered with
  | spent hphase => exact absurd hphase htells.phase_ne
  | exhausted hbudget =>
      rw [size_error] at hreports
      refine ⟨by omega, ?_⟩
      rw [hreporter, Reporter.count_error, hnot]
      rfl
  | unmendable hbudget =>
      have := hwithin hbudget
      rw [size_error, size_error] at hreports
      refine ⟨by omega, ?_⟩
      rw [hreporter, Reporter.count_error, Reporter.count_error, hnot]
      rfl
  | @repaired id _ _ hbudget hid =>
      have := hwithin hbudget
      have hseverity : id.severity = .error := by rcases hid with rfl | rfl <;> rfl
      have hother : id ≠ .unitAbandoned := by rcases hid with rfl | rfl <;> nofun
      rw [size_error] at hreports
      refine ⟨?_, ?_, by omega, ?_, ?_, ?_⟩
      · rw [hreporter]
        exact hmax
      · rw [hreporter, errorCount_error hseverity]
        omega
      · rw [hrecovery, hshifts]
        exact Recovery.tells_zero _ rfl rfl
      · rw [hrecovery]
        exact hfailures
      · rw [hreporter, Reporter.count_error, if_neg hother, hnot]
  | passedOver hbudget hattempts =>
      have := hwithin hbudget
      rw [size_error] at hreports
      refine ⟨?_, ?_, by omega, ?_, ?_, ?_⟩
      · rw [hreporter]
        exact hmax
      · rw [hreporter, errorCount_error rfl]
        omega
      · rw [hrecovery, hshifts]
        exact Recovery.tells_zero _ rfl rfl
      · rw [hrecovery]
        exact Nat.lt_of_lt_of_le hattempts (Nat.le_max_left _ _)
      · rw [hreporter, Reporter.count_error, hnot]
        rfl

/-- What a step that looks for no repair leaves to keep. -/
theorem budgeted_of_quiet (h : course p start n = .ok .running m) (hm : WithinBudget p start n m)
    (hseeks : m.seeksRepair = false) : Budgeted p start (n + 1) (step p m) := by
  have hreports := repairReports_succ_quiet h hseeks
  obtain ⟨htells, hforgets⟩ := tells_nextRecovery h hseeks hm.tells
  have hquiet := quiet_step p hseeks
  have hcount : ∀ m', Quiet p m m' → m'.work.reporter.count .unitAbandoned = 0 := fun m' hm' =>
    (hm'.adds.count_eq fun _ hd => (OfAction.id_ne hd).1).trans hm.notAbandoned
  generalize step p m = result at hquiet
  cases hquiet with
  | error hquiet =>
      change (repairReports p start (n + 1)).length ≤ _
      rw [hreports]
      exact Nat.le_succ_of_le hm.reports_le_max
  | @accepted m' hquiet =>
      refine ⟨?_, hcount m' hquiet⟩
      rw [hreports]
      exact Nat.le_succ_of_le hm.reports_le_max
  | @running m' hquiet =>
      refine ⟨hquiet.adds.maxErrors_eq.trans hm.maxErrors, ?_, ?_, ?_, ?_, hcount m' hquiet⟩
      · rw [hreports]
        exact Nat.le_trans hm.reports_le_errors hquiet.adds.errorCount_le
      · rw [hreports]
        exact hm.reports_le_max
      · rw [hquiet.recovery]
        exact htells
      · have := hm.failures
        rw [hquiet.recovery]
        omega

/-- **Every run stays within its budgets.** -/
theorem budgeted_course (hstart : WithinBudget p start 0 start) (n : Nat) :
    Budgeted p start n (course p start n) := by
  induction n with
  | zero => exact hstart
  | succ n ih =>
      by_cases hstopped : ∀ m, course p start n ≠ .ok .running m
      · rw [course_succ, goOn_of_stopped hstopped]
        have hreports := repairReports_succ_stopped hstopped
        generalize course p start n = result at ih hstopped
        cases result with
        | error e m =>
            unfold Budgeted at ih ⊢
            rwa [hreports]
        | ok progress m =>
            cases progress with
            | running => exact absurd rfl (hstopped m)
            | accepted | abandoned =>
                unfold Budgeted at ih ⊢
                rwa [hreports]
      · obtain ⟨m, hm⟩ := not_forall_not.mp hstopped
        rw [hm] at ih
        rw [course_succ_of_running hm]
        cases hseeks : m.seeksRepair with
        | false => exact budgeted_of_quiet hm ih hseeks
        | true => exact budgeted_of_seeking hm ih hseeks

theorem length_repairReports_le (hstart : WithinBudget p start 0 start) (n : Nat) :
    (repairReports p start n).length ≤ max p.settings.maxErrors 1 + 1 := by
  have h := budgeted_course hstart n
  generalize course p start n = result at h
  cases result with
  | error e m => exact h
  | ok progress m =>
      cases progress with
      | running => exact Nat.le_succ_of_le h.reports_le_max
      | accepted | abandoned => exact h.1

/-- A run that gives the unit up says so once. -/
theorem count_of_run (hstart : WithinBudget p start 0 start) {limit gas : Nat} {progress : Progress}
    (hrun : run p limit gas start = .ok progress m) :
    m.work.reporter.count .unitAbandoned = if progress = .abandoned then 1 else 0 := by
  have hbudget := budgeted_course hstart gas
  rw [run_eq_course] at hrun
  generalize course p start gas = result at hbudget hrun
  cases result with
  | error e last => cases hrun
  | ok progress last =>
      cases progress with
      | running => cases hrun
      | accepted | abandoned =>
          cases hrun
          exact hbudget.2

/-! ### Stretches without a confirmation -/

/-- A step of a stretch: each token that is passed over is a failure, and nothing is forgotten. -/
theorem parsingErrors_of_step (h : course p start n = .ok .running m)
    (hm : WithinBudget p start n m) (hconfirms : ¬ Confirms p start n) :
    match step p m with
    | .ok .running m' => m'.work.reporter.count .parsingError + m.recovery.failures =
        m.work.reporter.count .parsingError + m'.recovery.failures
    | stopped => (left stopped).work.reporter.count .parsingError ≤
        m.work.reporter.count .parsingError + 1 := by
  cases hseeks : m.seeksRepair with
  | false =>
      obtain ⟨_, hforgets⟩ := tells_nextRecovery h hseeks hm.tells
      have hquiet := quiet_step p hseeks
      have hcount : ∀ m', Quiet p m m' → m'.work.reporter.count .parsingError =
          m.work.reporter.count .parsingError := fun m' hm' =>
        hm'.adds.count_eq fun _ hd => (OfAction.id_ne hd).2
      generalize step p m = result at hquiet
      cases hquiet with
      | error hquiet => exact Nat.le_succ_of_le (hcount _ hquiet).le
      | accepted hquiet => exact Nat.le_succ_of_le (hcount _ hquiet).le
      | @running m' hquiet =>
          have hsame : m'.recovery.failures = m.recovery.failures := by
            rw [hquiet.recovery]
            exact hforgets.resolve_right fun hconfirmed => hconfirms hconfirmed.2
          dsimp only
          rw [hcount m' hquiet, hsame]
  | true =>
      obtain ⟨t, rest, hrest⟩ := exists_token_of_seeksRepair hseeks
      rw [step_of_seeksRepair hseeks hrest]
      have hrecovered := recovered_recover p t m
      generalize recover p t m = result at hrecovered
      obtain ⟨progress, m'⟩ := result
      dsimp only at hrecovered ⊢
      generalize hreporter : m'.work.reporter = reporter, hrecovery : m'.recovery = recovery
        at hrecovered
      cases hrecovered with
      | spent hphase => exact absurd hphase hm.tells.phase_ne
      | exhausted =>
          change m'.work.reporter.count .parsingError ≤ _
          rw [hreporter, Reporter.count_error]
          exact Nat.le_succ _
      | unmendable =>
          change m'.work.reporter.count .parsingError ≤ _
          rw [hreporter, Reporter.count_error, Reporter.count_error]
          exact Nat.le_refl _
      | @repaired id _ _ _ hid =>
          have hother : id ≠ .parsingError := by rcases hid with rfl | rfl <;> nofun
          change m'.work.reporter.count .parsingError + m.recovery.failures = _
          rw [hreporter, hrecovery, Reporter.count_error, if_neg hother]
          rfl
      | passedOver =>
          change m'.work.reporter.count .parsingError + m.recovery.failures = _
          rw [hreporter, hrecovery, Reporter.count_error, if_pos rfl]
          dsimp only
          omega

/-- **Between two confirmations few tokens are passed over.** -/
theorem parsingErrors_le (hstart : WithinBudget p start 0 start) (i k : Nat)
    (hstretch : ∀ n, i ≤ n → n < i + k → ¬ Confirms p start n) :
    parsingErrors p start (i + k) ≤
      parsingErrors p start i + max p.settings.maxRecoveryAttempts 1 := by
  by_cases hstopped : ∀ m, course p start i ≠ .ok .running m
  · unfold parsingErrors
    rw [course_add_of_stopped hstopped]
    exact Nat.le_add_right ..
  · obtain ⟨first, hfirst⟩ := not_forall_not.mp hstopped
    have hinvariant : match course p start (i + k) with
        | .ok .running m => m.work.reporter.count .parsingError + first.recovery.failures =
            parsingErrors p start i + m.recovery.failures
        | stopped => (left stopped).work.reporter.count .parsingError ≤
            parsingErrors p start i + max p.settings.maxRecoveryAttempts 1 := by
      induction k with
      | zero =>
          rw [Nat.add_zero, hfirst, parsingErrors, hfirst]
          rfl
      | succ k ih =>
          have ih := ih fun n hlo hhi => hstretch n hlo (by omega)
          rw [← Nat.add_assoc]
          by_cases hstopped : ∀ m, course p start (i + k) ≠ .ok .running m
          · rw [course_succ, goOn_of_stopped hstopped]
            exact ih
          · obtain ⟨m, hm⟩ := not_forall_not.mp hstopped
            have hbudget := budgeted_course hstart (i + k)
            rw [hm] at ih hbudget
            have hstep := parsingErrors_of_step hm hbudget (hstretch (i + k) (by omega) (by omega))
            have hfailures := hbudget.failures
            rw [course_succ_of_running hm]
            generalize step p m = result at hstep
            cases result with
            | error e m' =>
                dsimp only at ih hstep ⊢
                omega
            | ok progress m' =>
                cases progress with
                | running | accepted | abandoned =>
                    dsimp only at ih hstep ⊢
                    omega
    have hbudget := budgeted_course hstart (i + k)
    unfold parsingErrors at hinvariant ⊢
    generalize course p start (i + k) = result at hinvariant hbudget
    cases result with
    | error e m => exact hinvariant
    | ok progress m =>
        cases progress with
        | running =>
            have hfailures := hbudget.failures
            dsimp only [left] at hinvariant ⊢
            omega
        | accepted | abandoned => exact hinvariant

end Machine

/-! ### Units -/

namespace Parser

open Machine

theorem count_reportLexical {id : ProblemKind} (hid : id ≠ .lexicalError) (stream : TokenStream)
    (r : Reporter) : (reportLexical stream r).count id = r.count id := by
  unfold reportLexical
  generalize stream.errors = errors
  induction errors generalizing r with
  | nil => rfl
  | cons e errors ih => rw [List.foldl_cons, ih, Reporter.count_error, if_neg hid.symm, Nat.add_zero]

theorem maxErrors_reportLexical (stream : TokenStream) (r : Reporter) :
    (reportLexical stream r).maxErrors = r.maxErrors := by
  unfold reportLexical
  generalize stream.errors = errors
  induction errors generalizing r with
  | nil => rfl
  | cons e errors ih =>
      rw [List.foldl_cons, ih]
      rfl

theorem withinBudget_start (p : Parser) (stream : TokenStream) :
    WithinBudget p.setup (p.start stream) 0 (p.start stream) where
  maxErrors := maxErrors_reportLexical ..
  reports_le_errors := Nat.zero_le _
  reports_le_max := Nat.zero_le _
  tells := rfl
  failures := Nat.lt_of_lt_of_le Nat.one_pos (Nat.le_max_right _ _)
  notAbandoned := count_reportLexical (by decide) ..

/-- Only actions report at the end of a unit. -/
theorem adds_finish {dialect : Dialect} {length : Nat} {progress : Progress} {m m' : Machine}
    {o : ParseOutcome} (h : finish dialect length progress m = .ok o m') :
    (∃ r, o.diagnostics = r.diagnostics.toList ∧ Adds Diagnostic.OfAction m.work.reporter r) ∧
      o.isAbandoned = decide (progress = .abandoned) := by
  have haccepted : ∀ last, finishAccepted length m = .ok o last →
      (∃ r, o.diagnostics = r.diagnostics.toList ∧ Adds Diagnostic.OfAction m.work.reporter r) ∧
        o.isAbandoned = false := by
    intro last h
    unfold finishAccepted at h
    split at h
    · cases h
    · dsimp only at h
      split at h
      · cases h
        exact ⟨⟨_, rfl, .refl⟩, rfl⟩
      · cases h
  cases progress with
  | running | accepted => exact haccepted _ h
  | abandoned =>
      change finishAbandoned dialect length m = _ at h
      unfold finishAbandoned at h
      have hsettle := onlyActs_settle dialect length stepLimit m
      generalize settle dialect length stepLimit m = result at h hsettle
      cases hsettle with
      | error => cases h
      | @ok _ last hsettle =>
          cases h
          exact ⟨⟨_, rfl, hsettle.adds⟩, rfl⟩

/-- What a unit comes to tells of being given up as often as the machine did. -/
theorem count_finish {dialect : Dialect} {length : Nat} {progress : Progress} {m m' : Machine}
    {o : ParseOutcome} (h : finish dialect length progress m = .ok o m') :
    o.diagnostics.countP (·.id == .unitAbandoned) = m.work.reporter.count .unitAbandoned ∧
      o.isAbandoned = decide (progress = .abandoned) := by
  obtain ⟨⟨r, hdiagnostics, hadds⟩, habandoned⟩ := adds_finish h
  refine ⟨?_, habandoned⟩
  rw [hdiagnostics]
  exact hadds.count_eq fun _ hd => (OfAction.id_ne hd).1

end Parser

/-! ### Closing braces before a unit -/

section

open AspectLang.Language Machine

/-- Whether a closing brace with another one behind it is known to be rejected at the start, and not
to be mended. -/
def Language.bracesStayOut : Bool :=
  match startView? with
  | none => false
  | some start =>
    match outlook.turn? .rBrace [start] with
    | some .rejected => outlook.mendsNot .rBrace .rBrace [start]
    | _ => false

theorem Language.bracesStayOut_settles : bracesStayOut = true := by
  decide +kernel

/-- **Nothing mends closing braces at the start.** -/
theorem Language.no_repair_of_braces : tables.action 0 .rBrace = .error ∧
    ∀ window kinds, automaton.repair? window [0] (.rBrace :: .rBrace :: kinds) = none := by
  have hsettles := bracesStayOut_settles
  unfold bracesStayOut at hsettles
  split at hsettles
  · cases hsettles
  · rename_i start hstart
    have hshow := show_start hstart
    split at hsettles
    · rename_i hturn
      obtain ⟨_, _, hstates, haction⟩ := Outlook.holds_turn? fits_outlook wellFormed_grammar
        startIsolated_grammar (by decide) hshow hturn
      obtain ⟨rfl, rfl⟩ := List.cons.inj hstates
      exact ⟨haction, repair?_eq_none (by decide) (by decide) (by decide) hshow hsettles⟩
    · cases hsettles

/-- What is known of a machine that has passed over so many closing braces at the start. -/
structure Machine.PassedBraces (p : ParserSetup) (n : Nat) (m : Machine) : Prop where
  states : m.states = [0]
  nodes : m.work.values.nodes.items = []
  phase : m.recovery.phase ≠ .abandoned
  failures : m.recovery.failures = n
  maxErrors : m.work.reporter.maxErrors = max p.settings.maxErrors 1
  errorCount : m.work.reporter.errorCount = n
  count : m.work.reporter.count .parsingError = n

theorem Parser.passedBraces_start (p : Parser) {stream : TokenStream} (herrors : stream.errors = []) :
    PassedBraces p.setup 0 (p.start stream) where
  states := rfl
  nodes := rfl
  phase := nofun
  failures := rfl
  maxErrors := maxErrors_reportLexical ..
  errorCount := by
    change (reportLexical stream p.reset.reporter).errorCount = 0
    unfold reportLexical
    rw [herrors]
    rfl
  count := count_reportLexical (by decide) ..

namespace Machine

variable {p : ParserSetup} {start m : Machine} {n : Nat} {kinds : List TokenKind}

theorem PassedBraces.mayRepair (h : PassedBraces p n m) (hn : n < max p.settings.maxErrors 1) :
    m.mayRepair p = true := by
  have hbudget : m.work.reporter.isOutOfBudget = false := by
    unfold Reporter.isOutOfBudget
    rw [h.maxErrors, h.errorCount]
    exact decide_eq_false (Nat.not_le_of_lt hn)
  have hallows : m.allowsRepair p.dialect = true := by
    unfold allowsRepair
    rw [h.nodes]
    split <;> rfl
  unfold Machine.mayRepair
  rw [decide_eq_true h.phase, hbudget, hallows]
  rfl

theorem count_reportUnexpected (t : Token) (m : Machine) :
    (m.reportUnexpected t).work.reporter.count .parsingError =
      m.work.reporter.count .parsingError + 1 := Reporter.count_error ..

/-- Passing over a token reports it. -/
theorem count_passOver (maxFailures : Nat) (t : Token) (m : Machine) :
    (passOver maxFailures t m).2.work.reporter.count .parsingError =
      m.work.reporter.count .parsingError + 1 := by
  have hreported := count_reportUnexpected t m
  unfold passOver
  dsimp only
  split
  · exact (Reporter.count_error ..).trans hreported
  · split
    · exact (Reporter.count_error ..).trans hreported
    · exact hreported

/-- A token is passed over and left out while the attempts last. -/
theorem passOver_of_lt {maxFailures : Nat} {t : Token} (heof : t.kind ≠ .eof)
    (h : m.recovery.failures + 1 < maxFailures) :
    passOver maxFailures t m = (.running, { m.reportUnexpected t with
      rest := m.rest.tail
      recovery := { m.recovery.resynchronize with failures := m.recovery.failures + 1 } }) := by
  unfold passOver
  dsimp only
  rw [if_neg heof]
  exact if_neg (Nat.not_le_of_lt h)

/-- A step with two closing braces left reports the first, and passes it over while the budgets
last. -/
theorem PassedBraces.step (h : PassedBraces p n m)
    (hrest : m.rest.map Token.kind = .rBrace :: .rBrace :: kinds)
    (hn : n < max p.settings.maxErrors 1) :
    m.seeksRepair = true ∧
      (left (step p m)).work.reporter.count .parsingError = n + 1 ∧
      (n + 1 < p.settings.maxRecoveryAttempts → ∃ m', Machine.step p m = .ok .running m' ∧
        PassedBraces p (n + 1) m' ∧ m'.rest.map Token.kind = .rBrace :: kinds) := by
  obtain ⟨haction, hnone⟩ := no_repair_of_braces
  obtain ⟨t, rest, hrest', hkind, hkinds⟩ := List.map_eq_cons_iff.mp hrest
  have hwhole : t.split = .whole := by
    unfold Token.split
    rw [hkind]
    rfl
  have hseeks := seeksRepair_of_error h.states hrest' (hkind ▸ haction) hwhole
  have hrecover := recover_of_no_repair (t := t) (h.mayRepair hn)
    (by rw [h.states, hrest]; exact hnone _ _)
  refine ⟨hseeks, ?_⟩
  rw [step_of_seeksRepair hseeks hrest', hrecover]
  refine ⟨(count_passOver ..).trans (congrArg (· + 1) h.count), fun hattempts => ?_⟩
  have heof : t.kind ≠ .eof := by
    rw [hkind]
    decide
  rw [passOver_of_lt heof (h.failures.symm ▸ hattempts)]
  refine ⟨_, rfl, ⟨h.states, h.nodes, nofun, congrArg (· + 1) h.failures, h.maxErrors, ?_, ?_⟩, ?_⟩
  · exact (errorCount_error rfl ..).trans (congrArg (· + 1) h.errorCount)
  · exact (count_reportUnexpected t m).trans (congrArg (· + 1) h.count)
  · rw [hrest', List.tail_cons, hkinds]

/-- **Closing braces before a unit are passed over one by one.** -/
theorem PassedBraces.course (hstart : PassedBraces p 0 start)
    (hrest : start.rest.map Token.kind = List.replicate (n + 1) .rBrace ++ kinds)
    (herrors : n ≤ max p.settings.maxErrors 1) (hattempts : n ≤ max p.settings.maxRecoveryAttempts 1)
    {i : Nat} (hi : i < n) :
    ∃ m, Machine.course p start i = .ok .running m ∧ PassedBraces p i m ∧
      m.rest.map Token.kind = List.replicate (n - i + 1) .rBrace ++ kinds := by
  induction i with
  | zero => exact ⟨start, rfl, hstart, hrest⟩
  | succ i ih =>
      obtain ⟨m, hcourse, hpassed, hrest⟩ := ih (by omega)
      obtain ⟨k, hk⟩ : ∃ k, n - i = k + 1 := ⟨n - i - 1, by omega⟩
      rw [hk] at hrest
      obtain ⟨_, _, hruns⟩ := hpassed.step hrest (by omega)
      obtain ⟨m', hstep, hpassed', hrest'⟩ := hruns (by omega)
      refine ⟨m', (course_succ_of_running hcourse).trans hstep, hpassed', ?_⟩
      rw [hrest', show n - (i + 1) = k by omega]
      rfl

/-- **The bound on a stretch is met.**  Where nothing but closing braces comes before a unit, no step
confirms a repair, and each brace is reported. -/
theorem parsingErrors_braces (hstart : PassedBraces p 0 start)
    (hrest : start.rest.map Token.kind = List.replicate (n + 1) .rBrace ++ kinds)
    (herrors : n ≤ max p.settings.maxErrors 1)
    (hattempts : n ≤ max p.settings.maxRecoveryAttempts 1) :
    (∀ i < n, ¬ Confirms p start i) ∧ parsingErrors p start n = n := by
  constructor
  · rintro i hi ⟨hconfirms, -⟩
    obtain ⟨m, hcourse, hpassed, hrest⟩ := hstart.course hrest herrors hattempts hi
    obtain ⟨k, hk⟩ : ∃ k, n - i = k + 1 := ⟨n - i - 1, by omega⟩
    rw [hk] at hrest
    obtain ⟨hseeks, -⟩ := hpassed.step hrest (by omega)
    rw [shiftsSince_succ_seeking hcourse hseeks] at hconfirms
    have := Option.some.inj hconfirms
    omega
  · cases n with
    | zero => exact hstart.count
    | succ n =>
        obtain ⟨m, hcourse, hpassed, hrest⟩ :=
          hstart.course hrest herrors hattempts (Nat.lt_succ_self n)
        rw [Nat.add_sub_cancel_left] at hrest
        obtain ⟨-, hcount, -⟩ := hpassed.step hrest (by omega)
        unfold parsingErrors
        rw [course_succ_of_running hcourse]
        exact hcount

end Machine

end

/-- **Recovery stays within its budgets**, for every parser and stream of tokens.  Looking for
repairs adds few diagnostics to a unit; a unit that is given up says so exactly once, and no other
unit does; and in a stretch of the run in which no step confirms a repair, few tokens are reported
that fit nowhere. -/
theorem recovery_within_budgets (p : Parser) (stream : TokenStream) :
    (∀ n, (Machine.repairReports p.setup (p.start stream) n).length ≤
      max p.setup.settings.maxErrors 1 + 1) ∧
    (match (p.parseStream stream).1 with
      | .ok o => o.diagnostics.countP (·.id == .unitAbandoned) = if o.isAbandoned then 1 else 0
      | .error _ => True) ∧
    ∀ i k, (∀ n, i ≤ n → n < i + k → ¬ Machine.Confirms p.setup (p.start stream) n) →
      Machine.parsingErrors p.setup (p.start stream) (i + k) ≤
        Machine.parsingErrors p.setup (p.start stream) i +
          max p.setup.settings.maxRecoveryAttempts 1 := by
  have hstart := Parser.withinBudget_start p stream
  refine ⟨Machine.length_repairReports_le hstart, ?_, Machine.parsingErrors_le hstart⟩
  unfold Parser.parseStream
  dsimp only
  cases hrun : Machine.run p.setup Parser.stepLimit Parser.stepLimit (p.start stream) with
  | error e m => trivial
  | ok progress m =>
      dsimp only
      cases hfinish : Parser.finish p.setup.dialect stream.endOffset progress m with
      | error e last => trivial
      | ok o last =>
          obtain ⟨hcount, habandoned⟩ := Parser.count_finish hfinish
          dsimp only
          rw [hcount, Machine.count_of_run hstart hrun, habandoned]
          simp only [decide_eq_true_eq]

/-- With the usual settings eight of nine closing braces are reported one after the other, as many as
a stretch may have. -/
theorem braces_within_budgets :
    let p := Parser.new {} .disabled
    let start := p.start (.ofTokens ((List.range 9).map fun i => ⟨.rBrace, ⟨i, i⟩, "\x7d"⟩))
    (∀ n, 0 ≤ n → n < 0 + 8 → ¬ Machine.Confirms p.setup start n) ∧
      Machine.parsingErrors p.setup start 8 ≤ Machine.parsingErrors p.setup start 0 + 8 ∧
      Machine.parsingErrors p.setup start 0 = 0 ∧ Machine.parsingErrors p.setup start 8 = 8 := by
  intro p start
  have hstart : Machine.PassedBraces p.setup 0 start := Parser.passedBraces_start p rfl
  have hrest : start.rest.map Token.kind = List.replicate (8 + 1) .rBrace ++ [.eof] := rfl
  obtain ⟨hconfirms, hcount⟩ := Machine.parsingErrors_braces hstart hrest (by decide) (by decide)
  have hstretch : ∀ n, 0 ≤ n → n < 0 + 8 → ¬ Machine.Confirms p.setup start n :=
    fun n _ hn => hconfirms n (by omega)
  exact ⟨hstretch, (recovery_within_budgets p _).2.2 0 8 hstretch, hstart.count, hcount⟩

end AspectLang
