import AspectLang.Proofs.Parse.PlainUnits
import AspectLang.Proofs.Parse.RecoveryBudgets

/-! # Parsing without a dialect

Without a dialect the placeholder factory answers, and the first aspect construct of a unit is
reported.  The report is there exactly when a rule of an aspect construct was reduced
(`Parser.count_unavailable`): no action reports the lack of a dialect but through its factory, which
does so once.

So a run without a dialect and a run with that factory do the same, up to one diagnostic: their logs
are `Reporter.Apart`.  The report counts as an error, and the number of errors decides when a unit is
given up, so the runs can only part where the errors of the first have used up their budget
(`Machine.paired_placeholder`). -/

namespace AspectLang

open Reporter (Adds)

/-! ### The productions that are reduced -/

/-- Whether a rule builds an aspect construct. -/
def Rule.isAspect (r : Rule) : Bool :=
  match r.action with
  | .aspect _ => true
  | _ => false

/-- Whether a production is a rule of an aspect construct. -/
def Language.isAspect (production : Nat) : Bool := ruleArray[production]?.any Rule.isAspect

namespace Machine

/-- The production that the next step reduces, if it reduces one. -/
def nextReduction? (m : Machine) : Option Nat :=
  m.states.head?.bind fun state => m.rest.head?.bind fun t =>
    match Language.tables.action state t.kind with
    | .reduce production => some production
    | _ => none

/-- The productions that are reduced in at most `gas` steps. -/
def reduced (p : ParserSetup) : (gas : Nat) → Machine → List Nat
  | 0, _ => []
  | gas + 1, m =>
    m.nextReduction?.toList ++
      match step p m with
      | .ok .running m' => reduced p gas m'
      | _ => []

/-- The productions that only waited for a token and are reduced when the unit is given up. -/
def settled (dialect : Dialect) (offset : Nat) : (gas : Nat) → Machine → List Nat
  | 0, _ => []
  | gas + 1, m =>
    match m.pending? with
    | none => []
    | some production =>
      match reduce dialect production (.point offset) m with
      | .ok _ m' => production :: settled dialect offset gas m'
      | .error _ _ => []

end Machine

/-- The productions that are reduced while a stream is parsed. -/
def Parser.reduced (p : Parser) (stream : TokenStream) : List Nat :=
  Machine.reduced p.setup stepLimit (p.start stream) ++
    match Machine.run p.setup stepLimit stepLimit (p.start stream) with
    | .ok .abandoned m => Machine.settled p.setup.dialect stream.endOffset stepLimit m
    | _ => []

/-! ### The report of a missing dialect -/

namespace Workspace

/-- The lack of a dialect was reported at most once, and it is known whether it was. -/
def Noted (w : Workspace) (isReported : Bool) : Prop :=
  w.unavailableReported = isReported ∧
    w.reporter.count .featureUnavailable = if isReported then 1 else 0

theorem Noted.of_adding {w w' : Workspace} {isReported : Bool} (h : w.Noted isReported)
    (hadding : Work.Adding Diagnostic.OfConstruct w w') : w'.Noted isReported := by
  refine ⟨hadding.reported.trans h.1, ?_⟩
  rw [hadding.adds.count_eq, h.2]
  intro d hd hid
  unfold Diagnostic.OfConstruct at hd
  rw [hid] at hd
  cases hd

end Workspace

namespace Work

theorem noted_factoryFor (construct : String) (span : Span) {w : Workspace} {isReported : Bool}
    (h : w.Noted isReported) :
    ∃ w', factoryFor .disabled construct span w = .ok .placeholder w' ∧ w'.Noted true := by
  obtain ⟨values, reporter, unit, reported⟩ := w
  obtain ⟨rfl, hcount⟩ := h
  cases reported with
  | false =>
      refine ⟨⟨values, reporter.error .featureUnavailable span [construct], unit, true⟩, rfl, rfl, ?_⟩
      rw [Reporter.count_error, hcount]
      rfl
  | true => exact ⟨⟨values, reporter, unit, true⟩, rfl, rfl, hcount⟩

/-- An action reports the lack of a dialect if it is that of an aspect construct. -/
theorem noted_act (c : Handle) (r : Rule) {w w' : Workspace} {isReported : Bool}
    (h : w.Noted isReported) (hact : act .disabled c r.action w = .ok () w') :
    w'.Noted (isReported || r.isAspect) := by
  have hbuild : ∀ {a : Work Unit} {w : Workspace} {isReported : Bool}, Reports a →
      w.Noted isReported → a w = .ok () w' → w'.Noted isReported := by
    intro a w isReported ha h hok
    have hadding := ha.adds w
    rw [hok] at hadding
    cases hadding with
    | ok hadding => exact h.of_adding hadding
  unfold Rule.isAspect
  generalize r.action = action at hact
  cases action with
  | aspect action =>
      obtain ⟨build, hbind, hreports⟩ := exists_build c action
      obtain ⟨w₁, hfactory, hnoted⟩ := noted_factoryFor action.constructWords c.whole h
      change aspectAction .disabled c action w = _ at hact
      rw [hbind] at hact
      obtain ⟨factory, w₂, hfirst, hrest⟩ := exists_of_bind hact
      rw [hfactory] at hfirst
      cases hfirst
      rw [Bool.or_true]
      exact hbuild (hreports _) hnoted hrest
  | _ =>
      rw [Bool.or_false]
      unfold act at hact
      exact hbuild (reports_baseAction _ _ _) h hact

end Work

namespace Machine

variable {settings : Settings} {m m' : Machine} {isReported : Bool}

/-- A reduction that succeeds has done the action of its rule. -/
theorem exists_act_of_reduce {dialect : Dialect} {production : Nat} {lookahead : Span}
    (h : reduce dialect production lookahead m = .ok () m') :
    ∃ rule c w, Language.ruleArray[production]? = some rule ∧
      Work.act dialect c rule.action
        { m.work with values := m.work.values.begin production } = .ok () w ∧ m'.work = w := by
  cases hrule : Language.ruleArray[production]? with
  | none =>
      unfold reduce at h
      simp only [hrule] at h
      cases h
  | some rule =>
      unfold reduce at h
      simp only [hrule] at h
      rw [get_bind] at h
      split at h
      · cases h
      · obtain ⟨spans, m₁, hpop, h⟩ := exists_of_bind h
        cases hpop
        rw [modify_bind] at h
        obtain ⟨_, m₂, hwork, h⟩ := exists_of_bind h
        obtain ⟨top, m₃, htop, h⟩ := exists_of_bind h
        have hsame : m₃ = m₂ := by
          cases hstates : m₂.states with
          | nil =>
              unfold stateOnTop at htop
              rw [get_bind, hstates] at htop
              cases htop
          | cons state below =>
              rw [stateOnTop_of_cons hstates] at htop
              cases htop
              rfl
        have hlast : m'.work = m₃.work := by
          cases hgoto : Language.tables.goto? top rule.lhs.index with
          | none =>
              simp only [hgoto] at h
              cases h
          | some target =>
              simp only [hgoto] at h
              cases h
              rfl
        cases hact : Work.act dialect ⟨(m.spans.take rule.rhs.length).reverse, lookahead⟩
            rule.action { m.work with values := m.work.values.begin production } with
        | error e w =>
            rw [onWork_error hact] at hwork
            cases hwork
        | ok u w =>
            rw [onWork_ok hact] at hwork
            cases hwork
            exact ⟨rule, _, w, rfl, hact, hlast.trans (congrArg Machine.work hsame)⟩

theorem noted_reduce {production : Nat} {lookahead : Span} (hm : m.work.Noted isReported)
    (h : reduce .disabled production lookahead m = .ok () m') :
    m'.work.Noted (isReported || Language.isAspect production) := by
  obtain ⟨rule, c, w, hrule, hact, hwork⟩ := exists_act_of_reduce h
  have hnoted := Work.noted_act c rule (w := { m.work with
    values := m.work.values.begin production }) hm hact
  unfold Language.isAspect
  rw [hrule, hwork]
  exact hnoted

theorem nextReduction?_of_action {state : Nat} {below : List Nat} {t : Token} {rest : List Token}
    (hstates : m.states = state :: below) (hrest : m.rest = t :: rest) :
    m.nextReduction? = match Language.tables.action state t.kind with
      | .reduce production => some production
      | _ => none := by
  unfold nextReduction?
  rw [hstates, hrest, List.head?_cons, Option.bind_some, List.head?_cons, Option.bind_some]

/-- Looking for a repair does not report the lack of a dialect. -/
theorem Recovered.adds {p : ParserSetup} {progress : Progress} {r : Reporter}
    {recovery : Recovery} (h : Recovered p m progress r recovery) :
    Adds (·.id ≠ .featureUnavailable) m.work.reporter r := by
  cases h with
  | spent => exact .refl
  | exhausted => exact .one nofun
  | unmendable => exact .error (.one nofun) nofun
  | passedOver => exact .one nofun
  | @repaired id _ _ _ hid =>
      have hother : id ≠ .featureUnavailable := by rcases hid with rfl | rfl <;> nofun
      exact .one hother

/-- A step reports the lack of a dialect if it reduces a rule of an aspect construct. -/
theorem noted_step {progress : Progress} (hm : m.work.Noted isReported)
    (hstep : step ⟨settings, .disabled⟩ m = .ok progress m') :
    m'.work.Noted (isReported || m.nextReduction?.any Language.isAspect) := by
  cases hstates : m.states with
  | nil =>
      rw [step_of_no_states _ hstates] at hstep
      cases hstep
  | cons state below =>
      cases hrest : m.rest with
      | nil =>
          rw [step_of_no_tokens hstates hrest] at hstep
          cases hstep
      | cons t rest =>
          rw [nextReduction?_of_action hstates hrest]
          cases stepped_of_step hstates hrest hstep with
          | reduce haction hreduce =>
              rw [haction]
              dsimp only [Option.any_some]
              exact noted_reduce hm hreduce
          | shift haction | accept haction | split haction _ =>
              rw [haction]
              exact (Bool.or_false isReported).symm ▸ hm
          | repair haction =>
              rw [haction]
              refine (Bool.or_false isReported).symm ▸ ⟨?_, ?_⟩
              · exact (keeps_recover _ t m).reported.trans hm.1
              · exact ((recovered_recover _ t m).adds.count_eq fun _ => id).trans hm.2

theorem noted_run {limit gas : Nat} {progress : Progress} (hm : m.work.Noted isReported)
    (hrun : run ⟨settings, .disabled⟩ limit gas m = .ok progress m') :
    m'.work.Noted (isReported || (reduced ⟨settings, .disabled⟩ gas m).any Language.isAspect) := by
  induction gas generalizing m isReported with
  | zero => cases hrun
  | succ gas ih =>
      have hany : ∀ rest : List Nat, (isReported ||
          (m.nextReduction?.toList ++ rest).any Language.isAspect) =
          (isReported || m.nextReduction?.any Language.isAspect || rest.any Language.isAspect) := by
        intro rest
        rw [List.any_append, Bool.or_assoc]
        cases m.nextReduction? with
        | none => rfl
        | some production => simp
      rw [reduced, hany]
      rw [run_succ] at hrun
      cases hstep : step ⟨settings, .disabled⟩ m with
      | error e next =>
          rw [hstep] at hrun
          cases hrun
      | ok progress next =>
          have hnext := noted_step hm hstep
          rw [hstep] at hrun
          cases progress with
          | running => exact ih hnext hrun
          | accepted | abandoned =>
              cases hrun
              exact (Bool.or_false _).symm ▸ hnext

theorem settled_succ (dialect : Dialect) (offset gas : Nat) (m : Machine) :
    settled dialect offset (gas + 1) m = match m.pending? with
      | none => []
      | some production =>
        match reduce dialect production (.point offset) m with
        | .ok _ m' => production :: settled dialect offset gas m'
        -- In brackets, `rfl` makes no equation for `dsimp`, which would evaluate the tables.
        | .error _ _ => [] := (rfl)

theorem settled_of_reduce {dialect : Dialect} {offset gas production : Nat}
    (hpending : m.pending? = some production)
    (hreduce : reduce dialect production (.point offset) m = .ok () m') :
    settled dialect offset (gas + 1) m = production :: settled dialect offset gas m' := by
  rw [settled_succ, hpending]
  dsimp only
  rw [hreduce]

/-- The reductions that only waited for a token report alike. -/
theorem noted_settle {offset gas : Nat} (hm : m.work.Noted isReported)
    (hbalanced : m.Balanced False) (hsettle : settle .disabled offset gas m = .ok () m') :
    m'.work.Noted (isReported || (settled .disabled offset gas m).any Language.isAspect) := by
  induction gas generalizing m isReported with
  | zero =>
      cases hsettle
      exact (Bool.or_false _).symm ▸ hm
  | succ gas ih =>
      rw [settle, get_bind] at hsettle
      cases hpending : m.pending? with
      | none =>
          rw [hpending] at hsettle
          cases hsettle
          rw [settled_succ, hpending]
          exact (Bool.or_false _).symm ▸ hm
      | some production =>
          rw [hpending] at hsettle
          dsimp only at hsettle
          obtain ⟨state, below, hstates, haction⟩ := action_of_pending? hpending
          rcases ensures_reduce .disabled (.point offset) hbalanced hstates haction with
            ⟨_, next, hreduce, hnext, _⟩ | ⟨_, text, last, hreduce⟩
          · rw [bind_ok (attempt_of_ok hreduce), if_pos rfl] at hsettle
            rw [settled_of_reduce hpending hreduce, List.any_cons, ← Bool.or_assoc]
            exact ih (noted_reduce hm hreduce) hnext hsettle
          · rw [bind_error (attempt_of_crash hreduce)] at hsettle
            cases hsettle

end Machine

namespace Parser

open Machine

theorem noted_start (p : Parser) (stream : TokenStream) : (p.start stream).work.Noted false :=
  ⟨rfl, count_reportLexical (by decide) ..⟩

theorem noted_finishAccepted {length : Nat} {m m' : Machine} {o : ParseOutcome} {isReported : Bool}
    (hm : m.work.Noted isReported) (h : finishAccepted length m = .ok o m') :
    m'.work.Noted isReported := by
  unfold finishAccepted at h
  split at h
  · cases h
  · dsimp only at h
    split at h
    · cases h
      exact hm
    · cases h

theorem noted_finishAbandoned {length : Nat} {m m' : Machine} {o : ParseOutcome} {isReported : Bool}
    (hm : m.work.Noted isReported) (hbalanced : m.Balanced False)
    (h : finishAbandoned .disabled length m = .ok o m') :
    m'.work.Noted (isReported ||
      (settled .disabled length stepLimit m).any Language.isAspect) := by
  unfold finishAbandoned at h
  cases hsettle : settle .disabled length stepLimit m with
  | error e last =>
      rw [hsettle] at h
      cases h
  | ok _ last =>
      rw [hsettle] at h
      cases h
      have hlast := noted_settle hm hbalanced hsettle
      exact hlast

theorem noted_parseUnit {settings : Settings} {stream : TokenStream} {m : Machine}
    {o : ParseOutcome} (h : parseUnit (Parser.new settings .disabled).setup stream.endOffset
      ((Parser.new settings .disabled).start stream) = .ok o m) :
    m.work.Noted (((Parser.new settings .disabled).reduced stream).any Language.isAspect) := by
  obtain ⟨progress, last, hrun, hfinish⟩ := exists_of_bind h
  have hlast := noted_run (noted_start (Parser.new settings .disabled) stream) hrun
  unfold Parser.reduced
  rw [hrun, List.any_append]
  cases progress with
  | abandoned => exact noted_finishAbandoned hlast (leads_of_run hrun) hfinish
  | running | accepted =>
      dsimp only
      rw [List.any_nil, Bool.or_false]
      exact noted_finishAccepted hlast hfinish

end Parser

/-! ### With the placeholder factory -/

namespace Reporter

variable {r r' : Reporter} {budget : Nat}

/-- The errors among the diagnostics are counted against a budget. -/
structure Counts (budget : Nat) (r : Reporter) : Prop where
  maxErrors : r.maxErrors = budget
  errorCount : r.errorCount = r.diagnostics.toList.countP Diagnostic.isError

/-- The errors among the diagnostics have used up a budget. -/
def Exceeds (budget : Nat) (r : Reporter) : Prop :=
  budget ≤ r.diagnostics.toList.countP Diagnostic.isError

/-- The second log lacks the report of a missing dialect, once the first has it. -/
inductive Apart (budget : Nat) : Reporter × Bool → Reporter × Bool → Prop
  | same {r : Reporter} : Counts budget r → Apart budget (r, false) (r, false)
  | lacks {r r' : Reporter} {before after : List Diagnostic} {d : Diagnostic} :
      r.diagnostics.toList = before ++ d :: after → r'.diagnostics.toList = before ++ after →
      d.id = .featureUnavailable → Counts budget r → Counts budget r' →
        Apart budget (r, true) (r', false)

theorem toList_error (r : Reporter) (id : ProblemKind) (span : Span) (arguments : List String) :
    (r.error id span arguments).diagnostics.toList =
      r.diagnostics.toList ++ [.of id span arguments] := Array.toList_push

theorem Counts.error (h : r.Counts budget) (id : ProblemKind) (span : Span)
    (arguments : List String) : (r.error id span arguments).Counts budget := by
  refine ⟨h.maxErrors, ?_⟩
  rw [toList_error, List.countP_append, List.countP_singleton, ← h.errorCount]
  unfold Reporter.error report
  dsimp only
  split <;> rfl

theorem Counts.isOutOfBudget_iff (h : r.Counts budget) :
    r.isOutOfBudget = true ↔ r.Exceeds budget := by
  unfold isOutOfBudget Exceeds
  rw [h.maxErrors, h.errorCount, decide_eq_true_eq]

theorem Adds.exceeds {P : Diagnostic → Prop} (h : Adds P r r') (hr : r.Exceeds budget) :
    r'.Exceeds budget :=
  Nat.le_trans hr (h.isPrefix.sublist.countP_le)

theorem Apart.counts {l l' : Reporter × Bool} (h : Apart budget l l') :
    l.1.Counts budget ∧ l'.1.Counts budget := by
  cases h with
  | same h => exact ⟨h, h⟩
  | lacks _ _ _ h h' => exact ⟨h, h'⟩

/-- Where the first log has errors left, so has the second. -/
theorem Apart.exceeds {l l' : Reporter × Bool} (h : Apart budget l l')
    (hl' : l'.1.Exceeds budget) : l.1.Exceeds budget := by
  cases h with
  | same => exact hl'
  | @lacks r r' before after d hr hr' =>
      refine Nat.le_trans hl' (List.Sublist.countP_le ?_)
      rw [hr, hr']
      exact (List.sublist_cons_self d after).append_left before

theorem keptByErrors_apart (budget : Nat) : KeptByErrors (Apart budget) := by
  intro l l' id span arguments h
  cases h with
  | same h => exact .same (h.error id span arguments)
  | @lacks r r' before after d hr hr' hd h h' =>
      have hfirst : (r.error id span arguments).diagnostics.toList =
          before ++ d :: (after ++ [.of id span arguments]) := by
        rw [toList_error, hr, List.append_assoc, List.cons_append]
      have hsecond : (r'.error id span arguments).diagnostics.toList =
          before ++ (after ++ [.of id span arguments]) := by
        rw [toList_error, hr', List.append_assoc]
      exact .lacks hfirst hsecond hd (h.error id span arguments) (h'.error id span arguments)

end Reporter

open Reporter (Apart Exceeds)

namespace Work

open Workspace (Agrees)

/-- The first construct is reported where there is no dialect. -/
theorem inStep_factoryFor (budget : Nat) (construct : String) (span : Span) :
    InStep (Agrees (Apart budget)) (fun f f' => f = .placeholder ∧ f' = .placeholder)
      (factoryFor .disabled construct span) (factoryFor (.enabled .placeholder) construct span) := by
  rintro ⟨values, reporter, unit, reported⟩ w' ⟨hvalues, hunit, hlog⟩
  cases reported with
  | true => exact .ok ⟨rfl, rfl⟩ ⟨hvalues, hunit, hlog⟩
  | false =>
      refine .ok ⟨rfl, rfl⟩ ⟨hvalues, hunit, ?_⟩
      generalize hfirst : (⟨values, reporter, unit, false⟩ : Workspace).log = l,
        w'.log = l' at hlog
      cases hlog with
      | lacks => cases hfirst
      | same hcounts =>
          cases hfirst
          have hreported :=
            Reporter.toList_error reporter .featureUnavailable span [construct]
          exact .lacks hreported (List.append_nil _).symm rfl
            (hcounts.error .featureUnavailable span [construct]) hcounts

/-- Both dialects build the same. -/
theorem inStep_act (budget : Nat) (c : Handle) (action : SemanticAction) :
    InStep (Agrees (Apart budget)) Eq (act .disabled c action)
      (act (.enabled .placeholder) c action) := by
  have hkept := Reporter.keptByErrors_apart budget
  rcases act_cases action with ⟨a, hact⟩ | hact
  · obtain ⟨build, hbind, heven⟩ := aspectAction_eq_bind c a
    rw [hact, hact, hbind, hbind]
    refine .bind (inStep_factoryFor budget _ _) ?_
    rintro _ _ ⟨rfl, rfl⟩
    exact heven _ hkept
  · rw [hact, hact]
    exact agrees_baseAction hkept c action

end Work

namespace Machine

open Workspace (Agrees)

variable {settings : Settings} {budget : Nat} {m m' : Machine}

theorem beside_passOver {L : Reporter × Bool → Reporter × Bool → Prop} (hL : KeptByErrors L)
    (h : m.Beside (Agrees L) m') (maxFailures : Nat) (t : Token) :
    (m'.passOver maxFailures t).1 = (m.passOver maxFailures t).1 ∧
      Beside (Agrees L) (m.passOver maxFailures t).2 (m'.passOver maxFailures t).2 := by
  obtain ⟨heq, hvalues, hunit, hlog⟩ := h
  rw [heq]
  unfold passOver
  dsimp only [reportUnexpected, report, abandon]
  split
  · exact ⟨rfl, rfl, hvalues, hunit, hL _ _ _ _ _ (hL _ _ _ _ _ hlog)⟩
  · split
    · exact ⟨rfl, rfl, hvalues, hunit, hL _ _ _ _ _ (hL _ _ _ _ _ hlog)⟩
    · exact ⟨rfl, rfl, hvalues, hunit, hL _ _ _ _ _ hlog⟩

/-- While the first machine has errors left, both look for the same repair. -/
theorem beside_recover_placeholder (t : Token) (h : m.Beside (Agrees (Apart budget)) m') :
    HasEscaped (Exceeds budget) (recover ⟨settings, .disabled⟩ t m).2 ∨
      (recover ⟨settings, .enabled .placeholder⟩ t m').1 =
          (recover ⟨settings, .disabled⟩ t m).1 ∧
        Beside (Agrees (Apart budget)) (recover ⟨settings, .disabled⟩ t m).2
          (recover ⟨settings, .enabled .placeholder⟩ t m').2 := by
  obtain ⟨heq, hwork⟩ := h
  generalize m'.work = w' at heq hwork
  subst heq
  obtain ⟨hcounts, hcounts'⟩ := hwork.log.counts
  cases hbudget : m.work.reporter.isOutOfBudget with
  | true =>
      exact .inl ((recovered_recover _ t m).adds.exceeds (hcounts.isOutOfBudget_iff.mp hbudget))
  | false =>
      have hbudget' : w'.reporter.isOutOfBudget = false := by
        rw [Bool.eq_false_iff] at hbudget ⊢
        exact fun hout => hbudget (hcounts.isOutOfBudget_iff.mpr
          (hwork.log.exceeds (hcounts'.isOutOfBudget_iff.mp hout)))
      have hkept := Reporter.keptByErrors_apart budget
      have hallows : allowsRepair (.enabled .placeholder) { m with work := w' } = true :=
        List.all_eq_true.mpr fun _ _ => rfl
      refine .inr ?_
      unfold recover
      rw [hallows]
      dsimp only
      rw [hbudget, hbudget']
      split
      · exact ⟨rfl, rfl, hwork⟩
      · simp only [Bool.false_eq_true, if_false, allowsRepair, Dialect.factory?, Bool.not_true]
        cases Language.automaton.repair? settings.recoveryWindow m.states
            (m.rest.map Token.kind) with
        | none =>
            exact beside_passOver hkept ⟨rfl, hwork⟩ settings.maxRecoveryAttempts t
        | some repair =>
            cases repair with
            | insert kinds | delete =>
                exact ⟨rfl, rfl, hwork.values, hwork.unit, hkept _ _ _ _ _ hwork.log⟩

/-- Without a dialect and with the placeholder factory, the same is done until the errors have used
up their budget. -/
theorem paired_placeholder (settings : Settings) (budget : Nat) :
    Paired (Exceeds budget) (Agrees (Apart budget)) settings .disabled
      (.enabled .placeholder) where
  push t w w' h := ⟨congrArg (pushValue t) h.values, h.unit, h.log⟩
  act c action production w w' h :=
    .inr (Work.inStep_act budget c action _ _
      ⟨congrArg (ValueStacks.begin production) h.values, h.unit, h.log⟩)
  recovers t _ _ h := beside_recover_placeholder t h
  stays_act c action w h := by
    have hadds := Work.adds_act .disabled c action w
    generalize Work.act .disabled c action w = result at hadds
    cases hadds with
    | ok hadds => exact .ok (hadds.exceeds h)
    | error hadds => exact .error (hadds.exceeds h)
  stays_recover t m h := (recovered_recover _ t m).adds.exceeds h

end Machine

/-- The outcome without the report of a missing dialect. -/
def ParseOutcome.withoutUnavailable (o : ParseOutcome) : ParseOutcome :=
  { o with diagnostics := o.diagnostics.filter (·.id != .featureUnavailable) }

namespace Parser

open Machine

open Workspace (Agrees)

/-- Two outcomes are the same but for their diagnostics. -/
def SameButDiagnostics (o o' : ParseOutcome) : Prop := o' = { o with diagnostics := o'.diagnostics }

theorem inStep_finishAccepted_placeholder (budget length : Nat) :
    InStep (Beside (Agrees (Apart budget))) SameButDiagnostics (finishAccepted length)
      (finishAccepted length) := by
  rintro m m' ⟨heq, hvalues, hunit, hlog⟩
  rw [heq]
  unfold finishAccepted
  dsimp only
  rw [hvalues, hunit]
  cases m.work.unit with
  | none => exact .error ⟨rfl, hvalues, hunit, hlog⟩
  | some unit =>
      dsimp only
      split
      · exact .ok rfl ⟨rfl, rfl, rfl, hlog⟩
      · exact .error ⟨rfl, rfl, rfl, hlog⟩

theorem counts_reportLexical {budget : Nat} {r : Reporter} (h : r.Counts budget)
    (stream : TokenStream) : (reportLexical stream r).Counts budget := by
  unfold reportLexical
  generalize stream.errors = errors
  induction errors generalizing r with
  | nil => exact h
  | cons e errors ih => exact ih (h.error .lexicalError e.span [e.text])

/-- The placeholder factory starts where no dialect does. -/
theorem apart_start (settings : Settings) (stream : TokenStream) :
    Beside (Agrees (Apart (max settings.maxErrors 1)))
      ((Parser.new settings .disabled).start stream)
      ((Parser.new settings (.enabled .placeholder)).start stream) := by
  have hnew : (Reporter.new settings.maxErrors).Counts (max settings.maxErrors 1) := ⟨rfl, rfl⟩
  exact ⟨rfl, rfl, rfl, .same (counts_reportLexical hnew stream)⟩

/-- The second log lacks every report of a missing dialect. -/
theorem diagnostics_of_apart {budget : Nat} {w w' : Workspace} {isReported : Bool}
    (hnoted : w.Noted isReported) (h : Apart budget w.log w'.log) :
    w'.reporter.diagnostics.toList =
      w.reporter.diagnostics.toList.filter (·.id != .featureUnavailable) := by
  have hnone : ∀ ds : List Diagnostic, ds.countP (·.id == .featureUnavailable) = 0 →
      ds.filter (·.id != .featureUnavailable) = ds := by
    intro ds hds
    refine List.filter_eq_self.mpr fun d hd => ?_
    rw [bne, Bool.not_eq_true', Bool.eq_false_iff]
    exact List.countP_eq_zero.mp hds d hd
  obtain ⟨hflag, hcount⟩ := hnoted
  unfold Reporter.count at hcount
  generalize hl : w.log = l, hl' : w'.log = l' at h
  have hfirst : w.reporter = l.1 := congrArg Prod.fst hl
  have hsecond : w'.reporter = l'.1 := congrArg Prod.fst hl'
  have hreported : isReported = l.2 := hflag.symm.trans (congrArg Prod.snd hl)
  rw [hfirst, hreported] at hcount
  rw [hfirst, hsecond]
  cases h with
  | same => exact (hnone _ hcount).symm
  | @lacks r r' before after d hr hr' hd =>
      dsimp only at hcount ⊢
      rw [hr, List.countP_append, List.countP_cons, hd, beq_self_eq_true, if_pos rfl] at hcount
      have hbefore := hnone before (by omega)
      have hafter := hnone after (by omega)
      rw [hr, hr', List.filter_append, List.filter_cons, hbefore, hafter, hd, bne_self_eq_false]
      rfl

/-- The lack of a dialect is reported once if an aspect construct is reduced, and otherwise not. -/
theorem count_unavailable {settings : Settings} {stream : TokenStream} {o : ParseOutcome}
    (h : ((Parser.new settings .disabled).parseStream stream).1 = .ok o) :
    o.diagnostics.countP (·.id == .featureUnavailable) =
      if ((Parser.new settings .disabled).reduced stream).any Language.isAspect then 1 else 0 := by
  rw [parseStream_eq] at h
  cases hunit : parseUnit (Parser.new settings .disabled).setup stream.endOffset
      ((Parser.new settings .disabled).start stream) with
  | error e m =>
      rw [hunit] at h
      cases h
  | ok o' m =>
      rw [hunit] at h
      cases h
      rw [diagnostics_of_parseUnit hunit]
      exact (noted_parseUnit hunit).2

/-- The units end alike, unless the errors of the first have used up their budget. -/
theorem placeholder_or_exceeds (settings : Settings) (stream : TokenStream) :
    max settings.maxErrors 1 ≤
        (produced ((Parser.new settings .disabled).parseStream stream)).countP
          Diagnostic.isError ∨
      ((Parser.new settings (.enabled .placeholder)).parseStream stream).1 =
        ((Parser.new settings .disabled).parseStream stream).1.map
          ParseOutcome.withoutUnavailable := by
  have hunit := inStepUnless_parseUnit
    (paired_placeholder settings (max settings.maxErrors 1))
    (inStep_finishAccepted_placeholder _) (fun span m m' ⟨heq, hwork⟩ => by
      rw [heq]
      unfold SameButDiagnostics outcome
      dsimp only
      rw [hwork.values]) stream.endOffset _ _ (apart_start settings stream)
  rw [parseStream_eq, parseStream_eq]
  change Ends _ (parseUnit (Parser.new settings .disabled).setup _ _) ∨
    Alike _ _ (parseUnit (Parser.new settings .disabled).setup _ _)
      (parseUnit (Parser.new settings (.enabled .placeholder)).setup _ _) at hunit
  cases hplain : parseUnit (Parser.new settings .disabled).setup stream.endOffset
      ((Parser.new settings .disabled).start stream) with
  | ok o m =>
      rw [hplain] at hunit
      rcases hunit with hunit | hunit
      · cases hunit with
        | ok hescaped =>
            refine .inl ?_
            unfold produced
            dsimp only
            rw [diagnostics_of_parseUnit hplain]
            exact hescaped
      · generalize hplaceholder :
          parseUnit (Parser.new settings (.enabled .placeholder)).setup _ _ = r at hunit
        cases hunit with
        | @ok _ o' _ m' hsame hbeside =>
            have hdiagnostics := diagnostics_of_apart (noted_parseUnit hplain) hbeside.work.log
            rw [← diagnostics_of_parseUnit hplain, ← diagnostics_of_parseUnit hplaceholder]
              at hdiagnostics
            refine .inr (congrArg Except.ok ?_)
            rw [show o' = _ from hsame, hdiagnostics]
            rfl
  | error e m =>
      rw [hplain] at hunit
      rcases hunit with hunit | hunit
      · cases hunit with
        | error hescaped => exact .inl hescaped
      · generalize parseUnit (Parser.new settings (.enabled .placeholder)).setup _ _ = r
          at hunit
        cases hunit with
        | error _ => exact .inr rfl

end Parser

/-- **Without a dialect a unit is parsed as with the placeholder factory**, with one diagnostic more.
An outcome without a dialect reports the lack of it once if the rule of an aspect construct was
reduced, and otherwise not; and unless its errors have used up their budget, which is at least one,
the placeholder factory gives the same tree, state and repairs, and the other diagnostics. -/
theorem disabled_dialect_is_placeholder (settings : Settings) (stream : TokenStream) :
    (match ((Parser.new settings .disabled).parseStream stream).1 with
      | .ok o => o.diagnostics.countP (·.id == .featureUnavailable) =
          if ((Parser.new settings .disabled).reduced stream).any Language.isAspect then 1 else 0
      | .error _ => True) ∧
    (max settings.maxErrors 1 ≤
        (Parser.produced ((Parser.new settings .disabled).parseStream stream)).countP
          Diagnostic.isError ∨
      ((Parser.new settings (.enabled .placeholder)).parseStream stream).1 =
        ((Parser.new settings .disabled).parseStream stream).1.map
          ParseOutcome.withoutUnavailable) := by
  refine ⟨?_, ?_⟩
  · cases hresult : ((Parser.new settings .disabled).parseStream stream).1 with
    | error e => trivial
    | ok o => exact Parser.count_unavailable hresult
  · exact Parser.placeholder_or_exceeds settings stream

end AspectLang
