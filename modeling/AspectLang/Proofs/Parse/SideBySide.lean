import AspectLang.Parse.Unit
import AspectLang.Proofs.Parse.Lockstep
import AspectLang.Proofs.Parse.Steps

/-! # Machines side by side

Two machines that read the same tokens may build in two ways, each with its own dialect.  They are
`Machine.Beside` each other when they differ in their workspaces only, and a relation `W` between
the workspaces holds.  Where both dialects act alike on such workspaces and repairs come to the same
(`Machine.Paired`), the machines take the same steps and their units end alike
(`Parser.inStepUnless_parseUnit`), unless the reporter of the first comes to a state as `E` says. -/

namespace AspectLang

namespace Machine

/-- Two machines that differ in their workspaces only, and these are as `W` says. -/
structure Beside (W : Workspace → Workspace → Prop) (m m' : Machine) : Prop where
  eq : m' = { m with work := m'.work }
  work : W m.work m'.work

/-- The reporter of a workspace is as `E` says. -/
def Escapes (E : Reporter → Prop) (w : Workspace) : Prop := E w.reporter

/-- The reporter of a machine is as `E` says. -/
def HasEscaped (E : Reporter → Prop) (m : Machine) : Prop := E m.work.reporter

/-- Two dialects that do alike in workspaces as `W` says, unless the reporter of the first comes to a
state as `E` says, in which it stays. -/
structure Paired (E : Reporter → Prop) (W : Workspace → Workspace → Prop) (settings : Settings)
    (d d' : Dialect) : Prop where
  push : ∀ (t : Token) {w w' : Workspace}, W w w' →
    W { w with values := pushValue t w.values } { w' with values := pushValue t w'.values }
  act : ∀ (c : Handle) (action : SemanticAction) (production : Nat) {w w' : Workspace}, W w w' →
    Ends (Escapes E) (Work.act d c action { w with values := w.values.begin production }) ∨
      Alike W Eq (Work.act d c action { w with values := w.values.begin production })
        (Work.act d' c action { w' with values := w'.values.begin production })
  recovers : ∀ (t : Token) {m m' : Machine}, Beside W m m' →
    HasEscaped E (recover ⟨settings, d⟩ t m).2 ∨
      (recover ⟨settings, d'⟩ t m').1 = (recover ⟨settings, d⟩ t m).1 ∧
        Beside W (recover ⟨settings, d⟩ t m).2 (recover ⟨settings, d'⟩ t m').2
  stays_act : ∀ (c : Handle) (action : SemanticAction), Stays (Escapes E) (Work.act d c action)
  stays_recover : ∀ (t : Token) (m : Machine), HasEscaped E m →
    HasEscaped E (recover ⟨settings, d⟩ t m).2

variable {E : Reporter → Prop} {W : Workspace → Workspace → Prop} {settings : Settings}
  {d d' : Dialect} {m m' : Machine}

theorem Beside.of_work (h : m.Beside W m') {w w' : Workspace} (hw : W w w') :
    Beside W { m with work := w } { m' with work := w' } := by
  obtain ⟨heq, _⟩ := h
  refine ⟨?_, hw⟩
  rw [heq]

/-! ### Escapes last -/

namespace Paired

variable (h : Paired E W settings d d')

include h

theorem stays_onWork (c : Handle) (action : SemanticAction) :
    Stays (HasEscaped E) (onWork (Work.act d c action)) := by
  intro m hm
  have h := h.stays_act c action m.work hm
  unfold onWork
  generalize Work.act d c action m.work = r at h
  cases h with
  | ok h => exact .ok h
  | error h => exact .error h

omit h in
theorem stays_stateOnTop : Stays (HasEscaped E) stateOnTop := by
  refine .get_bind fun m => ?_
  split
  · exact .throw _
  · exact .pure _

theorem stays_reduce (production : Nat) (lookahead : Span) :
    Stays (HasEscaped E) (reduce d production lookahead) := by
  unfold reduce
  split
  · exact .throw _
  · refine .get_bind fun m => ?_
    split
    · exact .throw _
    · refine .bind (fun _ hm => .ok hm) fun spans => ?_
      refine .bind (.modifies fun _ hm => hm) fun _ => ?_
      refine .bind (h.stays_onWork _ _) fun _ => ?_
      refine .bind stays_stateOnTop fun top => ?_
      split
      · exact .throw _
      · exact .modifies fun _ hm => hm

omit h in
theorem stays_splitFirst (t : Token) : Stays (HasEscaped E) (splitFirst t) := by
  unfold splitFirst
  split
  · exact .pure _
  · exact .bind (.modifies fun _ hm => hm) fun _ => .pure _
  · exact .throw _

theorem stays_step : Stays (HasEscaped E) (step ⟨settings, d⟩) := by
  refine .bind stays_stateOnTop fun state => ?_
  refine .get_bind fun m => ?_
  refine .match_tokens (.throw _) fun t rest => ?_
  cases Language.tables.action state t.kind with
  | shift target => exact .bind (.modifies fun _ hm => hm) fun _ => .pure _
  | reduce production => exact .bind (h.stays_reduce production t.span) fun _ => .pure _
  | accept => exact .pure _
  | error =>
      have hrepair : ∀ wasSplit : Bool, Stays (HasEscaped E) (if wasSplit then
          pure .running else modifyGet (recover ⟨settings, d⟩ t) : Step Progress) := by
        intro wasSplit
        split
        · exact .pure _
        · exact fun m hm => .ok (h.stays_recover t m hm)
      dsimp only
      split
      · exact hrepair false
      · exact .bind (stays_splitFirst t) hrepair

theorem stays_run (limit gas : Nat) : Stays (HasEscaped E) (run ⟨settings, d⟩ limit gas) := by
  induction gas with
  | zero => exact .throw _
  | succ gas ih =>
      refine .bind h.stays_step fun progress => ?_
      cases progress with
      | running => exact ih
      | accepted | abandoned => exact .pure _

omit h in
theorem stays_attempt {x : Step Unit} (hx : Stays (HasEscaped E) x) :
    Stays (HasEscaped E) (attempt x) := by
  intro m hm
  have h := hx m hm
  unfold attempt
  generalize x m = r at h
  cases h with
  | ok h => exact .ok h
  | error h =>
      dsimp only
      split
      · exact .error h
      · exact .ok h

theorem stays_settle (offset gas : Nat) : Stays (HasEscaped E) (settle d offset gas) := by
  induction gas with
  | zero => exact .pure _
  | succ gas ih =>
      refine .get_bind fun m => ?_
      cases m.pending? with
      | none => exact .pure _
      | some production =>
          refine .bind (stays_attempt (h.stays_reduce production _)) fun succeeded => ?_
          cases succeeded with
          | true => exact ih
          | false => exact .pure _

/-! ### Steps side by side -/

omit h in
theorem inStep_stateOnTop : InStep (Beside W) Eq stateOnTop stateOnTop := by
  refine .get_bind ?_
  rintro m m' ⟨heq, _⟩
  rw [heq]
  dsimp only
  split
  · exact .throw _
  · exact .pure rfl

theorem inStepUnless_begun (production : Nat) (c : Handle) (action : SemanticAction) :
    InStepUnless (HasEscaped E) (Beside W) Eq
      (do
        modify fun m => { m with production, work.values := m.work.values.begin production }
        onWork (Work.act d c action))
      (do
        modify fun m => { m with production, work.values := m.work.values.begin production }
        onWork (Work.act d' c action)) := by
  intro m m' hm
  have hact := h.act c action production hm.work
  rw [modify_bind, modify_bind]
  unfold onWork
  dsimp only
  generalize Work.act d c action _ = r, Work.act d' c action _ = r' at hact
  have hbeside : ∀ {w w' : Workspace}, W w w' →
      Beside W { m with production, work := w } { m' with production, work := w' } := by
    intro w w' hw
    obtain ⟨heq, _⟩ := hm
    refine ⟨?_, hw⟩
    rw [heq]
  rcases hact with hescapes | halike
  · cases hescapes with
    | ok hescapes => exact .inl (.ok hescapes)
    | error hescapes => exact .inl (.error hescapes)
  · cases halike with
    | ok _ hw => exact .inr (.ok rfl (hbeside hw))
    | error hw => exact .inr (.error (hbeside hw))

theorem inStepUnless_reduce (production : Nat) (lookahead : Span) :
    InStepUnless (HasEscaped E) (Beside W) Eq (reduce d production lookahead)
      (reduce d' production lookahead) := by
  unfold reduce
  split
  · exact .of_inStep (.throw _)
  · rename_i rule _
    refine .get_bind ?_
    rintro m m' ⟨heq, _⟩
    rw [heq]
    dsimp only
    split
    · exact .of_inStep (.throw _)
    · have hpop : InStep (Beside W) Eq (popSymbols rule.rhs.length)
          (popSymbols rule.rhs.length) := by
        rintro m m' ⟨heq, hwork⟩
        rw [heq]
        exact .ok rfl ⟨rfl, hwork⟩
      refine .bind_of_inStep hpop ?_
      rintro spans _ rfl
      refine .chain (h.inStepUnless_begun production _ _) ?_ ?_
      · rintro _ _ rfl
        refine .of_inStep (.bind inStep_stateOnTop ?_)
        rintro top _ rfl
        split
        · exact .throw _
        · refine .modifies ?_
          rintro m m' ⟨heq, hwork⟩
          rw [heq]
          exact ⟨rfl, hwork⟩
      · intro _
        refine .bind stays_stateOnTop fun top => ?_
        split
        · exact .throw _
        · exact .modifies fun _ hm => hm

theorem inStepUnless_recover (t : Token) :
    InStepUnless (HasEscaped E) (Beside W) Eq
      (modifyGet (recover ⟨settings, d⟩ t) : Step Progress)
      (modifyGet (recover ⟨settings, d'⟩ t)) := by
  intro m m' hm
  rw [modifyGet_eq, modifyGet_eq]
  rcases h.recovers t hm with hescaped | ⟨hprogress, hbeside⟩
  · exact .inl (.ok hescaped)
  · exact .inr (.ok hprogress.symm hbeside)

omit h in
theorem inStep_splitFirst (t : Token) : InStep (Beside W) Eq (splitFirst t) (splitFirst t) := by
  unfold splitFirst
  split
  · exact .pure rfl
  · refine .bind (.modifies ?_) fun _ _ _ => .pure rfl
    rintro m m' ⟨heq, hwork⟩
    rw [heq]
    exact ⟨rfl, hwork⟩
  · exact .throw _

theorem beside_afterShift (t : Token) (rest : List Token) (target : Nat) (hm : m.Beside W m') :
    Beside W (m.afterShift ⟨settings, d⟩ t rest target)
      (m'.afterShift ⟨settings, d'⟩ t rest target) := by
  obtain ⟨heq, hwork⟩ := hm
  refine ⟨?_, h.push t hwork⟩
  rw [heq]
  rfl

theorem inStepUnless_step :
    InStepUnless (HasEscaped E) (Beside W) Eq (step ⟨settings, d⟩) (step ⟨settings, d'⟩) := by
  refine .bind_of_inStep inStep_stateOnTop ?_
  rintro state _ rfl
  refine .get_bind ?_
  rintro m m' ⟨heq, _⟩
  rw [show m'.rest = m.rest by rw [heq]]
  refine .match_tokens (.of_inStep (.throw _)) fun t rest => ?_
  cases Language.tables.action state t.kind with
  | shift target =>
      exact .of_inStep (.bind (.modifies fun m m' hm => h.beside_afterShift t rest target hm)
        fun _ _ _ => .pure rfl)
  | reduce production =>
      exact .bind (h.inStepUnless_reduce production t.span) (fun _ _ _ => .of_inStep (.pure rfl))
        fun _ => .pure _
  | accept => exact .of_inStep (.pure rfl)
  | error =>
      have hrepair : ∀ wasSplit : Bool, InStepUnless (HasEscaped E) (Beside W) Eq
          (if wasSplit then pure .running
            else modifyGet (recover ⟨settings, d⟩ t) : Step Progress)
          (if wasSplit then pure .running
            else modifyGet (recover ⟨settings, d'⟩ t) : Step Progress) := by
        intro wasSplit
        split
        · exact .of_inStep (.pure rfl)
        · exact h.inStepUnless_recover t
      dsimp only
      split
      · exact hrepair false
      · refine .bind_of_inStep (inStep_splitFirst t) ?_
        rintro wasSplit _ rfl
        exact hrepair wasSplit

theorem inStepUnless_run (limit gas : Nat) :
    InStepUnless (HasEscaped E) (Beside W) Eq (run ⟨settings, d⟩ limit gas)
      (run ⟨settings, d'⟩ limit gas) := by
  induction gas with
  | zero => exact .of_inStep (.throw _)
  | succ gas ih =>
      refine .bind h.inStepUnless_step ?_ ?_
      · rintro progress _ rfl
        cases progress with
        | running => exact ih
        | accepted | abandoned => exact .of_inStep (.pure rfl)
      · intro progress
        cases progress with
        | running => exact h.stays_run limit gas
        | accepted | abandoned => exact .pure _

omit h in
theorem inStepUnless_attempt {x y : Step Unit}
    (hxy : InStepUnless (HasEscaped E) (Beside W) Eq x y) :
    InStepUnless (HasEscaped E) (Beside W) Eq (attempt x) (attempt y) := by
  intro m m' hm
  have h := hxy m m' hm
  unfold attempt
  generalize x m = r, y m' = r' at h
  rcases h with h | h
  · cases h with
    | ok h => exact .inl (.ok h)
    | error h =>
        dsimp only
        split
        · exact .inl (.error h)
        · exact .inl (.ok h)
  · cases h with
    | ok _ hm => exact .inr (.ok rfl hm)
    | error hm =>
        dsimp only
        split
        · exact .inr (.error hm)
        · exact .inr (.ok rfl hm)

theorem inStepUnless_settle (offset gas : Nat) :
    InStepUnless (HasEscaped E) (Beside W) Eq (settle d offset gas) (settle d' offset gas) := by
  induction gas with
  | zero => exact .of_inStep (.pure rfl)
  | succ gas ih =>
      refine .get_bind ?_
      rintro m m' ⟨heq, _⟩
      rw [show m'.pending? = m.pending? by rw [heq]; rfl]
      cases m.pending? with
      | none => exact .of_inStep (.pure rfl)
      | some production =>
          refine .bind (inStepUnless_attempt (h.inStepUnless_reduce production _)) ?_ ?_
          · rintro succeeded _ rfl
            cases succeeded with
            | true => exact ih
            | false => exact .of_inStep (.pure rfl)
          · intro succeeded
            cases succeeded with
            | true => exact h.stays_settle offset gas
            | false => exact .pure _

end Paired

end Machine

namespace Parser

open Machine

/-! ### Units -/

/-- A run of the machine, and its outcome. -/
def parseUnit (p : ParserSetup) (length : Nat) : Step ParseOutcome :=
  run p stepLimit stepLimit >>= finish p.dialect length

theorem parseStream_eq (p : Parser) (stream : TokenStream) :
    p.parseStream stream =
      match parseUnit p.setup stream.endOffset (p.start stream) with
      | .ok o m => (.ok o, p.close m)
      | .error e m => (.error e, p.keep m) := by
  unfold parseStream parseUnit
  dsimp only
  cases hrun : run p.setup stepLimit stepLimit (p.start stream) with
  | error e m => rw [bind_error hrun]
  | ok progress m =>
      rw [bind_ok hrun]
      dsimp only
      cases finish p.setup.dialect stream.endOffset progress m <;> rfl

variable {E : Reporter → Prop} {W : Workspace → Workspace → Prop} {settings : Settings}
  {d d' : Dialect} {Q : ParseOutcome → ParseOutcome → Prop}

theorem stays_finish (h : Paired E W settings d d') (length : Nat) (progress : Progress) :
    Stays (HasEscaped E) (finish d length progress) := by
  have haccepted : Stays (HasEscaped E) (finishAccepted length) := by
    intro m hm
    unfold finishAccepted
    split
    · exact .error hm
    · dsimp only
      split
      · exact .ok hm
      · exact .error hm
  have habandoned : Stays (HasEscaped E) (finishAbandoned d length) := by
    intro m hm
    have h := h.stays_settle length stepLimit m hm
    unfold finishAbandoned
    generalize settle d length stepLimit m = r at h
    cases h with
    | ok h => exact .ok h
    | error h => exact .error h
  cases progress with
  | abandoned => exact habandoned
  | running | accepted => exact haccepted

/-- **Units end alike**, where what machines beside each other have come to gives outcomes as `Q`
says. -/
theorem inStepUnless_parseUnit (h : Paired E W settings d d')
    (haccepted : ∀ length, InStep (Beside W) Q (finishAccepted length) (finishAccepted length))
    (habandoned : ∀ (span : Span) (m m' : Machine), m.Beside W m' →
      Q (outcome (Salvage.ofNodes span m.work.values.nodes.toList) true m)
        (outcome (Salvage.ofNodes span m'.work.values.nodes.toList) true m')) (length : Nat) :
    InStepUnless (HasEscaped E) (Beside W) Q (parseUnit ⟨settings, d⟩ length)
      (parseUnit ⟨settings, d'⟩ length) := by
  have hfinishAbandoned : InStepUnless (HasEscaped E) (Beside W) Q (finishAbandoned d length)
      (finishAbandoned d' length) := by
    intro m m' hm
    have hsettle := h.inStepUnless_settle length stepLimit m m' hm
    unfold finishAbandoned
    generalize settle d length stepLimit m = r, settle d' length stepLimit m' = r' at hsettle
    rcases hsettle with hsettle | hsettle
    · cases hsettle with
      | ok hescaped => exact .inl (.ok hescaped)
      | error hescaped => exact .inl (.error hescaped)
    · cases hsettle with
      | error hm => exact .inr (.error hm)
      | @ok _ _ m m' _ hm =>
          refine .inr (.ok (habandoned _ m m' hm) ?_)
          obtain ⟨heq, hwork⟩ := hm
          rw [heq]
          exact ⟨rfl, hwork⟩
  refine .bind (h.inStepUnless_run stepLimit stepLimit) ?_ fun progress =>
    stays_finish h length progress
  rintro progress _ rfl
  cases progress with
  | abandoned => exact hfinishAbandoned
  | running | accepted => exact .of_inStep (haccepted length)

/-- The outcome tells of every diagnostic that was reported. -/
theorem diagnostics_of_parseUnit {p : ParserSetup} {length : Nat} {m m' : Machine}
    {o : ParseOutcome} (h : parseUnit p length m = .ok o m') :
    o.diagnostics = m'.work.reporter.diagnostics.toList := by
  have haccepted : ∀ last, finishAccepted length last = .ok o m' →
      o.diagnostics = m'.work.reporter.diagnostics.toList := by
    intro last h
    unfold finishAccepted at h
    split at h
    · cases h
    · dsimp only at h
      split at h
      · cases h
        rfl
      · cases h
  have habandoned : ∀ last, finishAbandoned p.dialect length last = .ok o m' →
      o.diagnostics = m'.work.reporter.diagnostics.toList := by
    intro last h
    unfold finishAbandoned at h
    split at h
    · cases h
    · cases h
      rfl
  unfold parseUnit at h
  cases hrun : run p stepLimit stepLimit m with
  | error e last =>
      rw [bind_error hrun] at h
      cases h
  | ok progress last =>
      rw [bind_ok hrun] at h
      cases progress with
      | abandoned => exact habandoned last h
      | running | accepted => exact haccepted last h

/-- The diagnostics of a unit; where it ended in a fault, those that stayed in the parser. -/
def produced : Except Fault ParseOutcome × Parser → List Diagnostic
  | (.ok o, _) => o.diagnostics
  | (.error _, p) => p.reporter.diagnostics.toList

end Parser

end AspectLang

/-! ## Every unit starts afresh

What a unit leaves in a parser does not show in the next one.  `Parser.reset` forgets all of it
but the production that the value stacks name, and that name is only read when a stack fails
in a reduction, which writes it first.  So two machines that differ in it stay alike, step by
step, until the unit is done. -/

namespace AspectLang

namespace Workspace

/-- Two workspaces that differ at most in the production that their stacks name. -/
def SameButTag (w w' : Workspace) : Prop := ∃ k, w' = { w with values := w.values.begin k }

end Workspace

namespace Machine

open Workspace (SameButTag)

/-- Whichever production the stacks name, the same is done: a reduction names its own before it
touches the stacks. -/
theorem paired_tags (settings : Settings) (dialect : Dialect) :
    Paired (fun _ => False) SameButTag settings dialect dialect where
  push t w _ := by
    rintro ⟨k, rfl⟩
    refine ⟨k, ?_⟩
    simp only [pushValue, ValueStacks.begin]
    split
    · rfl
    · split <;> rfl
  act c action production w _ := by
    rintro ⟨k, rfl⟩
    exact .inr (.refl (fun w => ⟨w.values.production, rfl⟩) _)
  recovers t m m' := by
    rintro ⟨heq, k, hwork⟩
    have hkeeps := keeps_recover ⟨settings, dialect⟩ t m
    have hwith : m' = m.withValues (m.work.values.begin k) m.work.unit := by
      rw [heq, hwork]
      rfl
    have hsame : recover ⟨settings, dialect⟩ t m' =
        Prod.map id (withValues (m.work.values.begin k) m.work.unit)
          (recover ⟨settings, dialect⟩ t m) := hwith ▸ recover_withValues t rfl
    rw [hsame]
    refine .inr ⟨rfl, rfl, k, ?_⟩
    change { (recover ⟨settings, dialect⟩ t m).2.work with
      values := m.work.values.begin k, unit := m.work.unit } = _
    rw [← hkeeps.values, ← hkeeps.unit]
  stays_act _ _ _ h := h.elim
  stays_recover _ _ h := h

end Machine

namespace Parser

open Machine

open Workspace (SameButTag)

/-! ### Units -/

theorem sameButTag_finishAccepted (length : Nat) :
    InStep (Beside SameButTag) Eq (finishAccepted length) (finishAccepted length) := by
  rintro m m' ⟨heq, k, hwork⟩
  rw [heq, hwork]
  unfold finishAccepted
  cases hunit : m.work.unit with
  | none => exact .error ⟨rfl, k, by rw [hunit]⟩
  | some unit =>
      dsimp only [ValueStacks.begin, ValueStacks.depths]
      split
      · exact .ok rfl ⟨rfl, k, rfl⟩
      · exact .error ⟨rfl, k, rfl⟩

variable (p : Parser) (stream : TokenStream)

/-- All that a unit finds of earlier ones is the production that the stacks name. -/
theorem sameButTag_start (q : Parser) (hsetup : q.setup = p.setup) :
    Beside SameButTag (p.start stream) (q.start stream) := by
  refine ⟨?_, q.values.production, ?_⟩
  · rfl
  · unfold start reset
    rw [hsetup]
    rfl

/-- Parsers with the same setup give the same for a unit, whatever they have parsed before. -/
theorem parseStream_eq_of_setup {q : Parser} (hsetup : q.setup = p.setup) :
    (q.parseStream stream).1 = (p.parseStream stream).1 := by
  have hunit := inStepUnless_parseUnit (paired_tags p.setup.settings p.setup.dialect)
    sameButTag_finishAccepted (fun span m m' ⟨heq, k, hwork⟩ => by rw [heq, hwork]; rfl)
    stream.endOffset _ _ (p.sameButTag_start stream q hsetup)
  rw [parseStream_eq, parseStream_eq, hsetup]
  change Ends _ (parseUnit p.setup _ _) ∨ Alike _ _ (parseUnit p.setup _ _) (parseUnit p.setup _ _)
    at hunit
  generalize parseUnit p.setup stream.endOffset (p.start stream) = r,
    parseUnit p.setup stream.endOffset (q.start stream) = r' at hunit
  rcases hunit with hescaped | halike
  · cases hescaped with
    | ok h | error h => exact h.elim
  · cases halike with
    | error _ => rfl
    | ok ho _ => rw [ho]

end Parser

/-- **No unit leaves a trace in the next.**  A parser that has parsed anything before, however
that ended, gives for a stream what a new parser with the same settings and dialect gives: the
same tree, diagnostics, state and repairs, or the same fault. -/
theorem parseStream_starts_afresh (p : Parser) (stream : TokenStream) :
    (p.parseStream stream).1 =
      ((Parser.new p.setup.settings p.setup.dialect).parseStream stream).1 :=
  Parser.parseStream_eq_of_setup _ stream rfl

end AspectLang
