import AspectLang.Parse.Unit
import AspectLang.Proofs.Automaton.Completeness
import AspectLang.Proofs.Parse.Steps

/-! # What is accepted is a sentence

`Machine.shifted` lists the kinds that a machine shifts: what is left of the input after splits,
insertions and deletions.  The states of the machine read them all along (`reads_of_step`), so
what an accepted unit consists of is a sentence of the language.  The main theorem says the same
of the driver over the tables of any grammar that was read from rules, together with the fact
that the driver never gets stuck. -/

namespace AspectLang

namespace Machine

variable {p : ParserSetup} {m m' : Machine} {w : List TokenKind}

/-- The kind that the next step shifts, if it shifts one. -/
def nextShift? (m : Machine) : Option TokenKind :=
  m.states.head?.bind fun state => m.rest.head?.bind fun t =>
    match Language.tables.action state t.kind with
    | .shift _ => some t.kind
    | _ => none

/-- The kinds that are shifted in at most `gas` steps. -/
def shifted (p : ParserSetup) : (gas : Nat) → Machine → List TokenKind
  | 0, _ => []
  | gas + 1, m => m.nextShift?.toList ++
    match step p m with
    | .ok .running m' => shifted p gas m'
    | _ => []

/-- A reduction that succeeds leaves states that read the same. -/
theorem reads_of_reduce {state production : Nat} {below : List Nat} {kind : TokenKind}
    {dialect : Dialect} {lookahead : Span} (h : Language.grammar.Reads m.states w)
    (hstates : m.states = state :: below)
    (haction : Language.tables.action state kind = .reduce production)
    (hreduce : reduce dialect production lookahead m = .ok () m') :
    Language.grammar.Reads m'.states w := by
  rw [hstates] at h
  obtain ⟨rule', origin, rest, target, hp, hdrop, hgoto, hreads⟩ :=
    h.reduce Language.wellFormed_grammar Language.startIsolated_grammar haction
  rw [Language.productions_getElem?, Option.map_eq_some_iff] at hp
  obtain ⟨rule, hrule, rfl⟩ := hp
  have hdrop' : m.states.drop rule.rhs.length = origin :: rest := by
    rw [hstates, ← hdrop]
    simp [Rule.production]
  rw [reduce_eq hrule hdrop' hgoto] at hreduce
  split at hreduce
  · cases hreduce
  · cases hreduce
    exact hreads

theorem nextShift?_of_action {state : Nat} {below : List Nat} {t : Token} {rest : List Token}
    (hstates : m.states = state :: below) (hrest : m.rest = t :: rest) :
    m.nextShift? = match Language.tables.action state t.kind with
      | .shift _ => some t.kind
      | _ => none := by
  unfold nextShift?
  rw [hstates, hrest, List.head?_cons, List.head?_cons, Option.bind_some, Option.bind_some]

/-- One step: the states go on reading what was shifted, and at acceptance that is a sentence. -/
theorem reads_of_step {progress : Progress} (h : Language.grammar.Reads m.states w)
    (hstep : step p m = .ok progress m') :
    Language.grammar.Reads m'.states (w ++ m.nextShift?.toList) ∧
      (progress = .accepted → Language.grammar.Sentence (w ++ m.nextShift?.toList)) := by
  obtain ⟨state, below, hstates⟩ := List.exists_cons_of_ne_nil h.ne_nil
  cases hrest : m.rest with
  | nil =>
      rw [step_of_no_tokens hstates hrest] at hstep
      cases hstep
  | cons t rest =>
      have hreads := h
      rw [hstates] at hreads
      rw [nextShift?_of_action hstates hrest]
      cases stepped_of_step hstates hrest hstep with
      | shift haction =>
          rw [haction]
          have hshift := hreads.shift Language.wellFormed_grammar
            Language.startIsolated_grammar haction
          rw [← hstates] at hshift
          exact ⟨hshift, by simp⟩
      | reduce haction hreduce =>
          rw [haction, Option.toList_none, List.append_nil]
          exact ⟨reads_of_reduce h hstates haction hreduce, by simp⟩
      | accept haction =>
          rw [haction, Option.toList_none, List.append_nil]
          exact ⟨h, fun _ => (hreads.accept Language.wellFormed_grammar
            Language.startIsolated_grammar haction).2⟩
      | split haction =>
          rw [haction, Option.toList_none, List.append_nil]
          exact ⟨h, by simp⟩
      | repair haction =>
          rw [haction, Option.toList_none, List.append_nil, (keeps_recover p t m).states]
          exact ⟨h, fun haccepted => absurd haccepted (recover_ne_accepted p t m)⟩

theorem run_succ (p : ParserSetup) (limit gas : Nat) (m : Machine) :
    run p limit (gas + 1) m = match step p m with
      | .ok .running m' => run p limit gas m'
      | .ok progress m' => .ok progress m'
      | .error e m' => .error e m' := by
  rw [run]
  cases hstep : step p m with
  | error e m' => exact bind_error hstep
  | ok progress m' =>
      rw [bind_ok hstep]
      cases progress <;> rfl

/-- A run that ends has not ended in the middle. -/
theorem run_ne_running {limit gas : Nat} {progress : Progress}
    (h : run p limit gas m = .ok progress m') : progress ≠ .running := by
  induction gas generalizing m with
  | zero => cases h
  | succ gas ih =>
      rw [run_succ] at h
      split at h
      · exact ih h
      · rename_i hne hstep
        cases h
        rintro rfl
        exact hne rfl
      · cases h

/-- What an accepting run shifts makes up a sentence. -/
theorem sentence_of_run {limit gas : Nat} (hm : Language.grammar.Reads m.states w)
    (h : run p limit gas m = .ok .accepted m') :
    Language.grammar.Sentence (w ++ shifted p gas m) := by
  induction gas generalizing m w with
  | zero => cases h
  | succ gas ih =>
      rw [run_succ] at h
      unfold shifted
      cases hstep : step p m with
      | error e after => simp [hstep] at h
      | ok progress after =>
          rw [hstep] at h
          obtain ⟨hreads, haccept⟩ := reads_of_step hm hstep
          cases progress with
          | abandoned => cases h
          | accepted =>
              dsimp only
              rw [List.append_nil]
              exact haccept rfl
          | running =>
              dsimp only
              rw [← List.append_assoc]
              exact ih hreads h

end Machine

/-! ### The main theorem -/

namespace Parser

theorem isAbandoned_of_finishAbandoned {dialect : Dialect} {length : Nat} {m m' : Machine}
    {o : ParseOutcome} (h : finishAbandoned dialect length m = .ok o m') :
    o.isAbandoned = true := by
  unfold finishAbandoned at h
  split at h
  · cases h
  · cases h
    rfl

theorem run_of_parsing {p : Parser} {stream : TokenStream} {o : ParseOutcome}
    (h : (p.parseStream stream).1 = .ok o) (hphase : o.phase = .parsing) :
    ∃ m, Machine.run p.setup stepLimit stepLimit (p.start stream) = .ok .accepted m := by
  unfold parseStream at h
  dsimp only at h
  cases hrun : Machine.run p.setup stepLimit stepLimit (p.start stream) with
  | error e m => simp [hrun] at h
  | ok progress m =>
      cases progress with
      | running => exact absurd rfl (Machine.run_ne_running hrun)
      | accepted => exact ⟨m, rfl⟩
      | abandoned =>
          simp only [hrun] at h
          split at h
          · cases h
          · rename_i hfinished
            obtain rfl := Except.ok.inj h
            simp [ParseOutcome.phase, isAbandoned_of_finishAbandoned hfinished] at hphase

end Parser

/-- **Whatever decisions the tables rest on, what is accepted is a sentence.**  For a grammar
read from rules, with an isolated start and no mention of the end of input, the driver never gets
stuck, and the input of a run that accepts is a sentence up to its end.  In particular the kinds
that the parser shifts in a unit that it does not abandon are a sentence of the language. -/
theorem accepted_is_sentence :
    (∀ (rules : List String) (g : Grammar) (t : Tables), Grammar.ofRules rules = .ok g →
      Tables.ofGrammar g = .ok t → g.StartIsolated → g.LacksEof →
      ∀ (w : List TokenKind) (c : Configuration), Automaton.Leads ⟨g, t⟩ ⟨[0], w⟩ c →
        Automaton.turn ⟨g, t⟩ c ≠ .stuck ∧
          (Automaton.turn ⟨g, t⟩ c = .accepted → g.Sentence (w.takeWhile (· != .eof)))) ∧
    ∀ (p : Parser) (stream : TokenStream) (o : ParseOutcome),
      (p.parseStream stream).1 = .ok o → o.phase = .parsing →
        Language.grammar.Sentence
          (Machine.shifted p.setup Parser.stepLimit (p.start stream)) := by
  constructor
  · intro rules g t hrules htables hstart heof w c hleads
    obtain ⟨hne, rfl⟩ := Tables.ofGrammar_eq_ok htables
    have hg := Grammar.wellFormed_of_ofRules hrules hne
    have hread := Grammar.hasRead_of_leads hg hstart heof hleads
    exact ⟨(hread.turn hg hstart heof).1, hread.accepted hg hstart⟩
  · intro p stream o hok hphase
    obtain ⟨m, hrun⟩ := Parser.run_of_parsing hok hphase
    exact Machine.sentence_of_run (Grammar.reads_start _) hrun

/-- Two semicolons are accepted, and so are a sentence. -/
theorem semicolons_read : ∃ c,
    (Automaton.ofGrammar Grammar.semicolons).Leads ⟨[0], [.semicolon, .semicolon]⟩ c ∧
      (Automaton.ofGrammar Grammar.semicolons).turn c = .accepted ∧
      Grammar.semicolons.Sentence [.semicolon, .semicolon] := by
  obtain ⟨c, hleads, haccepted⟩ := Grammar.accepts_of_sentence
    (Grammar.wellFormed_of_ofRules Grammar.semicolons_ofRules rfl)
    Grammar.semicolons_startIsolated Grammar.semicolons_conflicts Grammar.semicolons_sentence
  have heof : Grammar.semicolons.LacksEof := by
    unfold Grammar.LacksEof
    decide
  exact ⟨c, hleads, haccepted, (accepted_is_sentence.1 _ _ _ Grammar.semicolons_ofRules rfl
    Grammar.semicolons_startIsolated heof _ c hleads).2 haccepted⟩

end AspectLang
