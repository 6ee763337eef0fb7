import AspectLang.Proofs.Parse.Reading
import AspectLang.Proofs.Parse.Trials

/-! # Repairs are read as tried

A repair is chosen because the automaton reads what it inserts and the next few kinds after it
(`Automaton.of_repair?`).  The machine then reads the same (`attains_tokens`).  So after a repair it
shifts every inserted token and at least the tokens of the trial, or accepts before, until it looks
for a repair again (`attains_of_nextRepair?`), unless a token crashes it. -/

namespace AspectLang

/-! ### Where the automaton accepts -/

namespace Language

variable {states : List Nat} {symbols : List Symbol}

/-- States are left in order, and only the end of input is accepted. -/
def Sound (kind : TokenKind) : Fate → Prop
  | .shifted states => ∃ symbols, grammar.Spells states symbols
  | .accepted => kind = .eof
  | .rejected => True

theorem sound_of_feedWithin {kind : TokenKind} {gas : Nat} {fate : Fate}
    (h : grammar.Spells states symbols) (hfate : automaton.feedWithin kind gas states = fate) :
    Sound kind fate := by
  induction gas generalizing states symbols with
  | zero =>
      subst hfate
      trivial
  | succ gas ih =>
      obtain ⟨top, below, rfl⟩ := List.exists_cons_of_ne_nil h.ne_nil
      cases haction : tables.action top kind with
      | shift target =>
          rw [feedWithin_of_shift haction] at hfate
          subst hfate
          exact ⟨_, h.shift wellFormed_grammar startIsolated_grammar haction⟩
      | accept =>
          rw [feedWithin_of_accept haction] at hfate
          subst hfate
          exact (h.accept wellFormed_grammar startIsolated_grammar haction).1
      | error =>
          rw [feedWithin_of_error haction] at hfate
          subst hfate
          trivial
      | reduce production =>
          obtain ⟨produced, origin, rest, before, target, kernel, hp, hdrop, _, hgoto, _, _, _,
            hafter⟩ := h.reduce wellFormed_grammar startIsolated_grammar haction
          have hreduce : automaton.reduce? (top :: below) production =
              some (target :: origin :: rest) := Grammar.reduce?_of_goto hp hdrop hgoto
          rw [feedWithin_of_reduce haction hreduce] at hfate
          exact ih hafter hfate

/-- Only the end of input is accepted, also where operators are split. -/
theorem eof_of_feedOrSplit {kind : TokenKind} (h : grammar.Spells states symbols)
    (haccepted : automaton.feedOrSplit states kind = .accepted) :
    kind = .eof ∧ automaton.feed states kind = .accepted := by
  induction hcount : kind.brackets using Nat.strong_induction_on generalizing states symbols kind with
  | _ count ih =>
    rw [Automaton.feedOrSplit] at haccepted
    split at haccepted
    · split at haccepted
      · cases haccepted
      · rename_i first second hhalves
        have hkinds : first ≠ .eof ∧ second ≠ .eof := by
          generalize kind = k at hhalves
          cases k <;> cases hhalves <;> simp
        split at haccepted
        · rename_i after hfeed
          obtain ⟨symbols', hspells⟩ := sound_of_feedWithin h hfeed
          have hlt := TokenKind.brackets_lt_of_halves? hhalves
          exact absurd (ih _ (hcount ▸ hlt) hspells haccepted rfl).1 hkinds.2
        · exact absurd (sound_of_feedWithin h haccepted) hkinds.1
    · exact ⟨sound_of_feedWithin h haccepted, haccepted⟩

end Language

/-! ### What the machine does after a repair -/

namespace Machine

variable {promise : Promise} {p : ParserSetup} {m : Machine} {r : Repair}

/-- Tokens that the automaton reads are shifted in pieces, or the input is accepted at an end of
input among them. -/
theorem attains_tokens {tokens rest : List Token} (h : Leads promise .running m)
    (hrest : m.rest = tokens ++ rest)
    (haccepts : Language.automaton.accepts m.states (tokens.map Token.kind) = true) :
    Attains promise p m fun shifted m' => ∃ consumed left, tokens = consumed ++ left ∧
      Cut consumed shifted ∧ m'.rest = left ++ rest ∧
      (left = [] ∧ Leads promise .running m' ∨ (∃ t more, left = t :: more ∧ t.kind = .eof) ∧
        step p m' = .ok .accepted m') := by
  induction tokens generalizing m with
  | nil => exact .of_reads .done ⟨[], [], rfl, .nil, hrest, .inl ⟨rfl, h⟩⟩
  | cons t tokens ih =>
      rw [List.map_cons, Automaton.accepts] at haccepts
      split at haccepts
      · rename_i states hfeed
        refine (attains_pieces h hrest hfeed).bind ?_
        rintro shifted m' ⟨hcut, hleads, hrest', hstates⟩
        rw [← hstates] at haccepts
        refine (ih hleads hrest' haccepts).mono ?_
        rintro more last ⟨consumed, left, rfl, hmore, hlast, hend⟩
        exact ⟨t :: consumed, left, rfl, hcut.append hmore, hlast, hend⟩
      · rename_i hfeed
        obtain ⟨symbols, hholds⟩ := h.1
        obtain ⟨heof, hfeed⟩ := Language.eof_of_feedOrSplit hholds.spells hfeed
        refine (attains_accept h hrest hfeed).mono ?_
        rintro shifted m' ⟨rfl, hsame, hstep⟩
        exact ⟨[], t :: tokens, rfl, .nil, hsame.trans hrest, .inr ⟨⟨t, tokens, rfl, heof⟩, hstep⟩⟩
      · cases haccepts

/-- Whether nothing keeps the machine from a repair. -/
def mayRepair (p : ParserSetup) (m : Machine) : Bool :=
  decide (m.recovery.phase ≠ .abandoned) && !m.work.reporter.isOutOfBudget &&
    m.allowsRepair p.dialect

/-- The repair that the next step makes, if it makes one. -/
def nextRepair? (p : ParserSetup) (m : Machine) : Option Repair :=
  if m.seeksRepair && m.mayRepair p then
    Language.automaton.repair? p.settings.recoveryWindow m.states (m.rest.map Token.kind)
  else none

theorem step_of_seeksRepair {t : Token} {rest : List Token} (hseeks : m.seeksRepair = true)
    (hrest : m.rest = t :: rest) :
    step p m = .ok (recover p t m).1 (recover p t m).2 := by
  cases hstates : m.states with
  | nil =>
      unfold seeksRepair at hseeks
      rw [hstates] at hseeks
      cases hseeks
  | cons state below =>
      rw [seeksRepair_eq hstates hrest, Bool.and_eq_true, Bool.or_eq_true, decide_eq_true_eq,
        decide_eq_true_eq, decide_eq_true_eq] at hseeks
      obtain ⟨haction, hgt | hwhole⟩ := hseeks
      · rw [step_eq hstates hrest, haction]
        dsimp only
        rw [if_pos hgt]
      · rw [step_eq hstates hrest, haction]
        dsimp only
        rw [hwhole, ite_self]

/-- A token is passed over for want of a repair. -/
theorem recover_of_no_repair {t : Token} (hmay : m.mayRepair p = true)
    (hnone : Language.automaton.repair? p.settings.recoveryWindow m.states
      (m.rest.map Token.kind) = none) :
    recover p t m =
      passOver p.settings.maxRecoveryAttempts t { m with recovery.phase := .recovering } := by
  unfold mayRepair at hmay
  simp only [Bool.and_eq_true, decide_eq_true_eq, Bool.not_eq_true'] at hmay
  obtain ⟨⟨hphase, hbudget⟩, hallows⟩ := hmay
  unfold recover
  rw [if_neg hphase, if_neg (by simp [hbudget]), if_neg (by simp [hallows])]
  dsimp only
  rw [hnone]

/-- A repair edits the tokens that are left. -/
theorem recover_of_repair? {t : Token} (hmay : m.mayRepair p = true)
    (hrepair : Language.automaton.repair? p.settings.recoveryWindow m.states
      (m.rest.map Token.kind) = some r) :
    (recover p t m).1 = .running ∧ ∃ inserted, inserted.map Token.kind = r.kinds ∧
      (recover p t m).2.rest = inserted ++ r.kept m.rest := by
  unfold mayRepair at hmay
  simp only [Bool.and_eq_true, decide_eq_true_eq, Bool.not_eq_true'] at hmay
  obtain ⟨⟨hphase, hbudget⟩, hallows⟩ := hmay
  unfold recover
  rw [if_neg hphase, if_neg (by simp [hbudget]), if_neg (by simp [hallows])]
  dsimp only
  rw [hrepair]
  cases r with
  | insert kinds => exact ⟨rfl, _, by simp [Function.comp_def, Repair.kinds], rfl⟩
  | delete => exact ⟨rfl, [], rfl, rfl⟩

theorem exists_first (h : Leads promise .running m) : ∃ t rest, m.rest = t :: rest := by
  obtain ⟨front, last, hlast, _⟩ := h.2.endsInEof
  exact List.exists_cons_of_ne_nil (by simp [hlast])

/-- What is read after a repair begins with what it inserted. -/
theorem consumed_of_inserted {inserted tried consumed left shifted : List Token}
    (hinserted : ∀ t ∈ inserted, t.kind ≠ .eof ∧ t.kind.halves? = none)
    (htokens : inserted ++ tried = consumed ++ left) (hcut : Cut consumed shifted)
    (hleft : left = [] ∨ ∃ t more, left = t :: more ∧ t.kind = .eof) :
    ∃ own pieces, shifted = inserted ++ pieces ∧ Cut own pieces ∧ tried = own ++ left := by
  obtain ⟨own, rfl, htried⟩ : ∃ own, consumed = inserted ++ own ∧ tried = own ++ left := by
    rcases List.append_eq_append_iff.mp htokens with hmore | ⟨unread, hinside, hunread⟩
    · exact hmore
    · -- only the end of input can be unread, and it is not inserted
      cases unread with
      | nil => exact ⟨[], by simpa using hinside.symm, by simpa using hunread.symm⟩
      | cons u unread =>
          rcases hleft with rfl | ⟨t, more, rfl, heof⟩
          · cases hunread
          · obtain ⟨rfl, _⟩ := List.cons.inj hunread
            exact absurd heof (hinserted t (by simp [hinside])).1
  obtain ⟨first, pieces, rfl, hfirst, hpieces⟩ := hcut.of_append
  rw [hfirst.eq_of_whole fun t ht => (hinserted t ht).2]
  exact ⟨own, pieces, rfl, hpieces, htried⟩

/-- What was inserted is shifted, and of the tokens that were left so many are consumed as a trial
asks for, or the input is accepted before. -/
def ReadsOn (p : ParserSetup) (inserted kept shifted : List Token) (last : Machine) : Prop :=
  ∃ consumed pieces, shifted = inserted ++ pieces ∧ Cut consumed pieces ∧
    kept = consumed ++ last.rest ∧
    (consumed.length = max p.settings.recoveryWindow 1 ∨ step p last = .ok .accepted last)

/-- After a repair the machine reads what the trial has read. -/
theorem attains_of_nextRepair? (h : Leads promise .running m) (hr : m.nextRepair? p = some r) :
    ∃ m' inserted, step p m = .ok .running m' ∧ inserted.map Token.kind = r.kinds ∧
      m'.rest = inserted ++ r.kept m.rest ∧
      Attains promise p m' fun shifted last =>
        ReadsOn p inserted (r.kept m.rest) shifted last := by
  unfold nextRepair? at hr
  split at hr
  · rename_i hseeks
    obtain ⟨hseeks, hmay⟩ := Bool.and_eq_true_iff.mp hseeks
    obtain ⟨t, rest, hrest⟩ := exists_first h
    obtain ⟨haccepts, hkinds⟩ := Automaton.of_repair? hr
    obtain ⟨hrunning, inserted, hinserted, hedited⟩ := recover_of_repair? (t := t) hmay hr
    have hstep := step_of_seeksRepair (p := p) hseeks hrest
    have hleads := leads_recover (p := p) h hrest
    rw [hrunning] at hstep hleads
    refine ⟨_, inserted, hstep, hinserted, hedited, ?_⟩
    rw [← hinserted, ← Repair.map_kept, ← List.map_take, ← List.map_append,
      ← (keeps_recover p t m).states] at haccepts
    have hsplit : (recover p t m).2.rest =
        (inserted ++ (r.kept m.rest).take (max p.settings.recoveryWindow 1)) ++
          (r.kept m.rest).drop (max p.settings.recoveryWindow 1) := by
      rw [hedited, List.append_assoc, List.take_append_drop]
    have hplain : ∀ u ∈ inserted, u.kind ≠ .eof ∧ u.kind.halves? = none := by
      intro u hu
      refine insertable_ne _ (hkinds u.kind ?_)
      rw [← hinserted]
      exact List.mem_map_of_mem hu
    refine (attains_tokens hleads hsplit haccepts).mono ?_
    rintro shifted last ⟨consumed, left, htokens, hcut, hlast, hend⟩
    obtain ⟨own, pieces, rfl, hpieces, htried⟩ := consumed_of_inserted hplain htokens hcut
      (hend.imp And.left And.left)
    refine ⟨own, pieces, rfl, hpieces, ?_, ?_⟩
    · rw [hlast, ← List.append_assoc, ← htried, List.take_append_drop]
    · rcases hend with ⟨rfl, hlast'⟩ | ⟨_, haccept⟩
      · -- the end of input is still left, so the trial was not cut short
        left
        obtain ⟨u, more, hu⟩ := exists_first hlast'
        rw [hu, List.nil_append] at hlast
        have hlength := congrArg List.length hlast
        rw [List.append_nil] at htried
        rw [← htried, List.length_take]
        simp only [List.length_cons, List.length_drop] at hlength
        omega
      · exact .inr haccept
  · cases hr

end Machine

end AspectLang
