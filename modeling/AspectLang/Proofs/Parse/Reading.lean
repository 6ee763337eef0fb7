import AspectLang.Proofs.Automaton.Driver
import AspectLang.Proofs.Parse.AngleBrackets
import AspectLang.Proofs.Parse.Outcomes

/-! # Reading without repairs

`Reads` is a run of the machine that never looks for a repair, together with the tokens that it
shifts.  The automaton reads kinds on states alone; what it can read, the machine reads too.  A
kind that fits leads the machine through the same reductions (`attains_shift`).  A shift operator
that does not fit is first taken as a whole by the machine, which reduces before it; these are the
reductions before a closing bracket as well, so it can still be split (`attains_split`). -/

namespace AspectLang

/-! ### Kinds fed to the automaton -/

namespace Language

variable {kind : TokenKind} {gas top : Nat} {below : List Nat}

theorem feedWithin_of_shift {target : Nat} (h : tables.action top kind = .shift target) :
    automaton.feedWithin kind (gas + 1) (top :: below) = .shifted (target :: top :: below) :=
  Automaton.feedWithin_of_shift (a := automaton) h

theorem feedWithin_of_accept (h : tables.action top kind = .accept) :
    automaton.feedWithin kind (gas + 1) (top :: below) = .accepted :=
  Automaton.feedWithin_of_accept (a := automaton) h

theorem feedWithin_of_error (h : tables.action top kind = .error) :
    automaton.feedWithin kind (gas + 1) (top :: below) = .rejected :=
  Automaton.feedWithin_of_error (a := automaton) h

theorem feedWithin_of_reduce {production : Nat} {states : List Nat}
    (h : tables.action top kind = .reduce production)
    (hreduce : automaton.reduce? (top :: below) production = some states) :
    automaton.feedWithin kind (gas + 1) (top :: below) = automaton.feedWithin kind gas states :=
  Automaton.feedWithin_of_reduce (a := automaton) h hreduce

end Language

open AspectLang.Language (feedWithin_of_shift feedWithin_of_accept feedWithin_of_error feedWithin_of_reduce)

/-! ### Cutting tokens -/

/-- Tokens are made into pieces by splitting shift operators. -/
inductive Cut : (tokens pieces : List Token) → Prop
  | nil : Cut [] []
  | keep {t : Token} {tokens pieces : List Token} : Cut tokens pieces →
      Cut (t :: tokens) (t :: pieces)
  | split {t first second : Token} {tokens pieces : List Token} :
      t.split = .halves first second → Cut (first :: second :: tokens) pieces →
        Cut (t :: tokens) pieces

namespace Cut

variable {a b c d : List Token}

theorem refl (a : List Token) : Cut a a := by
  induction a with
  | nil => exact .nil
  | cons t a ih => exact .keep ih

theorem append (h : Cut a b) (h' : Cut c d) : Cut (a ++ c) (b ++ d) := by
  induction h with
  | nil => exact h'
  | keep _ ih => exact .keep ih
  | split hsplit _ ih => exact .split hsplit ih

/-- The first piece may be split further. -/
theorem split_head {t first second : Token} (hsplit : t.split = .halves first second)
    (h : Cut a (t :: b)) : Cut a (first :: second :: b) := by
  generalize hpieces : t :: b = pieces at h
  induction h with
  | nil => cases hpieces
  | split hother _ ih => exact .split hother (ih hpieces)
  | keep hrest _ =>
      obtain ⟨rfl, rfl⟩ := List.cons.inj hpieces
      exact .split hsplit (.keep (.keep hrest))

theorem trans (h : Cut a b) (h' : Cut b c) : Cut a c := by
  induction h' generalizing a with
  | nil => exact h
  | split hsplit _ ih => exact ih (h.split_head hsplit)
  | @keep t tokens pieces _ ih =>
      generalize hpieces : t :: tokens = b at h
      induction h with
      | nil => cases hpieces
      | split hother _ ih' => exact .split hother (ih' hpieces)
      | keep hrest _ =>
          obtain ⟨rfl, rfl⟩ := List.cons.inj hpieces
          exact .keep (ih hrest)

/-- Tokens in a row are cut one after the other. -/
theorem of_append (h : Cut (a ++ b) c) : ∃ c₁ c₂, c = c₁ ++ c₂ ∧ Cut a c₁ ∧ Cut b c₂ := by
  generalize htokens : a ++ b = tokens at h
  induction h generalizing a with
  | nil =>
      obtain ⟨rfl, rfl⟩ := List.append_eq_nil_iff.mp htokens
      exact ⟨[], [], rfl, .nil, .nil⟩
  | @keep t tokens pieces hcut ih =>
      cases a with
      | nil =>
          obtain rfl : b = t :: tokens := htokens
          exact ⟨[], t :: pieces, rfl, .nil, .keep hcut⟩
      | cons u a =>
          obtain ⟨rfl, rfl⟩ := List.cons.inj htokens
          obtain ⟨c₁, c₂, rfl, h₁, h₂⟩ := ih rfl
          exact ⟨u :: c₁, c₂, rfl, .keep h₁, h₂⟩
  | @split t first second tokens pieces hsplit hcut ih =>
      cases a with
      | nil =>
          obtain rfl : b = t :: tokens := htokens
          exact ⟨[], pieces, rfl, .nil, .split hsplit hcut⟩
      | cons u a =>
          obtain ⟨rfl, rfl⟩ := List.cons.inj htokens
          obtain ⟨c₁, c₂, rfl, h₁, h₂⟩ := ih (a := first :: second :: a) rfl
          exact ⟨c₁, c₂, rfl, .split hsplit h₁, h₂⟩

/-- Tokens that are no shift operators are not cut. -/
theorem eq_of_whole (h : Cut a b) (hwhole : ∀ t ∈ a, t.kind.halves? = none) : b = a := by
  induction h with
  | nil => rfl
  | keep _ ih => rw [ih fun t ht => hwhole t (List.mem_cons_of_mem _ ht)]
  | @split t first second tokens pieces hsplit _ _ =>
      have ht := hwhole t List.mem_cons_self
      obtain ⟨_, _, hkinds, _⟩ := Token.of_split_halves hsplit
      rw [ht] at hkinds
      cases hkinds

end Cut

namespace Machine

variable {promise : Promise} {p : ParserSetup} {m m' : Machine}

/-! ### Steps without repairs -/

/-- Whether the next step looks for a repair: no action fits the first token that is left, and it
is not split either. -/
def seeksRepair (m : Machine) : Bool :=
  match m.states, m.rest with
  | state :: _, t :: _ =>
    decide (Language.tables.action state t.kind = .error) &&
      (decide (Language.tables.action state .gt = .error) || decide (t.split = .whole))
  | _, _ => false

/-- The token that the next step shifts, if it shifts one. -/
def nextShifted (m : Machine) : List Token := if m.nextShift?.isSome then m.rest.take 1 else []

/-- Steps without a repair lead from one machine to another, and shift tokens. -/
inductive Reads (p : ParserSetup) : Machine → (shifted : List Token) → Machine → Prop
  | done {m : Machine} : Reads p m [] m
  | next {m m' last : Machine} {shifted : List Token} : m.seeksRepair = false →
      step p m = .ok .running m' → Reads p m' shifted last →
        Reads p m (m.nextShifted ++ shifted) last

theorem Reads.trans {shifted shifted' : List Token} {last : Machine} (h : Reads p m shifted m')
    (h' : Reads p m' shifted' last) : Reads p m (shifted ++ shifted') last := by
  induction h with
  | done => exact h'
  | next hseeks hstep _ ih =>
      rw [List.append_assoc]
      exact .next hseeks hstep (ih h')

section

variable {state : Nat} {below : List Nat} {t : Token} {rest : List Token}
  (hstates : m.states = state :: below) (hrest : m.rest = t :: rest)

include hstates hrest

theorem seeksRepair_eq : m.seeksRepair =
    (decide (Language.tables.action state t.kind = .error) &&
      (decide (Language.tables.action state .gt = .error) || decide (t.split = .whole))) := by
  unfold seeksRepair
  rw [hstates, hrest]

theorem nextShifted_eq : m.nextShifted = match Language.tables.action state t.kind with
    | .shift _ => [t]
    | _ => [] := by
  unfold nextShifted
  rw [nextShift?_of_action hstates hrest, hrest]
  cases Language.tables.action state t.kind <;> rfl

theorem reads_shift {target : Nat} (haction : Language.tables.action state t.kind = .shift target) :
    Reads p m [t] (m.afterShift p t rest target) := by
  have hseeks : m.seeksRepair = false := by
    rw [seeksRepair_eq hstates hrest, haction, decide_eq_false nofun, Bool.false_and]
  have hstep : step p m = .ok .running (m.afterShift p t rest target) := by
    rw [step_eq hstates hrest, haction]
  have hreads := Reads.next hseeks hstep .done
  rwa [nextShifted_eq hstates hrest, haction] at hreads

theorem reads_reduce {production : Nat}
    (haction : Language.tables.action state t.kind = .reduce production)
    (hreduce : reduce p.dialect production t.span m = .ok () m') : Reads p m [] m' := by
  have hseeks : m.seeksRepair = false := by
    rw [seeksRepair_eq hstates hrest, haction, decide_eq_false nofun, Bool.false_and]
  have hstep : step p m = .ok .running m' := by
    rw [step_eq hstates hrest, haction]
    dsimp only
    rw [hreduce]
  have hreads := Reads.next hseeks hstep .done
  rwa [nextShifted_eq hstates hrest, haction] at hreads

theorem reads_split {first second : Token}
    (haction : Language.tables.action state t.kind = .error)
    (hgt : Language.tables.action state .gt ≠ .error) (hsplit : t.split = .halves first second) :
    Reads p m [] { m with rest := first :: second :: rest } := by
  have hseeks : m.seeksRepair = false := by
    rw [seeksRepair_eq hstates hrest, hsplit]
    simp [hgt]
  have hstep : step p m = .ok .running { m with rest := first :: second :: rest } := by
    rw [step_eq hstates hrest, haction]
    dsimp only
    rw [if_neg hgt, hsplit]
  have hreads := Reads.next hseeks hstep .done
  rwa [nextShifted_eq hstates hrest, haction] at hreads

/-- A token that fits nowhere is split where no repair is looked for. -/
theorem split_of_quiet {progress : Progress}
    (haction : Language.tables.action state t.kind = .error) (hquiet : m.seeksRepair = false)
    (hstep : step p m = .ok progress m') :
    ∃ first second, t.split = .halves first second ∧ progress = .running ∧
      m' = { m with rest := first :: second :: rest } := by
  rw [seeksRepair_eq hstates hrest, decide_eq_true haction, Bool.true_and,
    Bool.or_eq_false_iff, decide_eq_false_iff_not, decide_eq_false_iff_not] at hquiet
  obtain ⟨hgt, hwhole⟩ := hquiet
  rw [step_eq hstates hrest, haction] at hstep
  dsimp only at hstep
  rw [if_neg hgt] at hstep
  cases hsplit : t.split with
  | whole => exact absurd hsplit hwhole
  | crashes =>
      rw [hsplit] at hstep
      cases hstep
  | halves first second =>
      rw [hsplit] at hstep
      cases hstep
      exact ⟨first, second, rfl, rfl, rfl⟩

end

/-- The machine after so many steps, or the one at which it stopped before. -/
def after (p : ParserSetup) : Nat → Machine → Machine
  | 0, m => m
  | n + 1, m =>
    match step p m with
    | .ok .running m' => after p n m'
    | _ => m

/-- As long as it runs, a machine can go on. -/
theorem leads_after (n : Nat) (h : Leads promise .running m) :
    Leads promise .running (m.after p n) := by
  induction n generalizing m with
  | zero => exact h
  | succ n ih =>
      unfold after
      split
      · rename_i m' hstep
        exact ih (leads_of_step h hstep)
      · exact h

/-! ### What the machine attains without repairs -/

/-- The machine comes to a point as `Q` says by shifting tokens, and without a repair; but there
may be a crash on the way that is not excluded. -/
def Attains (promise : Promise) (p : ParserSetup) (m : Machine)
    (Q : List Token → Machine → Prop) : Prop :=
  (∃ shifted m', Reads p m shifted m' ∧ Q shifted m') ∨
    ∃ reason shifted m' m'', promise.Admits reason ∧ Reads p m shifted m' ∧
      step p m' = .error (.crash reason) m''

variable {Q R : List Token → Machine → Prop}

theorem Attains.mono (h : Attains promise p m Q) (hQ : ∀ shifted m', Q shifted m' → R shifted m') :
    Attains promise p m R :=
  h.imp_left fun ⟨shifted, m', hreads, hq⟩ => ⟨shifted, m', hreads, hQ shifted m' hq⟩

theorem Attains.bind (h : Attains promise p m Q) (hQ : ∀ shifted m', Q shifted m' →
    Attains promise p m' fun more last => R (shifted ++ more) last) : Attains promise p m R := by
  rcases h with ⟨shifted, m', hreads, hq⟩ | hcrash
  · rcases hQ shifted m' hq with ⟨more, last, hmore, hr⟩ |
      ⟨reason, more, last, failed, hadmits, hmore, hstep⟩
    · exact .inl ⟨_, last, hreads.trans hmore, hr⟩
    · exact .inr ⟨reason, _, last, failed, hadmits, hreads.trans hmore, hstep⟩
  · exact .inr hcrash

/-- On tokens that promise everything, there is no crash. -/
theorem Attains.of_kept (h : Attains promise p m Q) (hplain : promise.plain) (hlow : promise.low) :
    ∃ shifted m', Reads p m shifted m' ∧ Q shifted m' := by
  rcases h with hattains | ⟨reason, _, _, _, hadmits, _⟩
  · exact hattains
  · exact absurd hadmits (Promise.not_admits hplain hlow reason)

theorem Attains.of_reads {shifted : List Token} (hreads : Reads p m shifted m')
    (hQ : Q shifted m') : Attains promise p m Q := .inl ⟨shifted, m', hreads, hQ⟩

/-- The machine after a reduction: the automaton's states, and the tokens that were left. -/
structure Reduced (promise : Promise) (m : Machine) (production : Nat) (m' : Machine) : Prop where
  leads : Leads promise .running m'
  rest : m'.rest = m.rest
  states : Language.automaton.reduce? m.states production = some m'.states

/-- A reduction of the machine is one of the automaton, and reads no token. -/
theorem reduce?_of_reduce {state production : Nat} {below : List Nat} {symbols : List Symbol}
    {dialect : Dialect} {kind : TokenKind} {lookahead : Span}
    (h : Language.grammar.Spells m.states symbols) (hstates : m.states = state :: below)
    (haction : Language.tables.action state kind = .reduce production)
    (hreduce : reduce dialect production lookahead m = .ok () m') :
    Language.automaton.reduce? m.states production = some m'.states ∧ m'.rest = m.rest := by
  rw [hstates] at h
  obtain ⟨produced, origin, rest, before, target, kernel, hp, hdrop, _, hgoto, _⟩ :=
    h.reduce Language.wellFormed_grammar Language.startIsolated_grammar haction
  have hreduced : Language.automaton.reduce? m.states production =
      some (target :: origin :: rest) := by
    rw [hstates]
    exact Grammar.reduce?_of_goto hp hdrop hgoto
  rw [Language.productions_getElem?, Option.map_eq_some_iff] at hp
  obtain ⟨rule, hrule, rfl⟩ := hp
  have hlength : rule.production.rhs.length = rule.rhs.length := List.length_map ..
  rw [hlength, ← hstates] at hdrop
  rw [reduce_eq hrule hdrop hgoto] at hreduce
  rw [hreduced]
  split at hreduce
  · cases hreduce
  · cases hreduce
    exact ⟨rfl, rfl⟩

section

variable {state : Nat} {below : List Nat} {t : Token} {rest : List Token}
  (h : Leads promise .running m) (hstates : m.states = state :: below) (hrest : m.rest = t :: rest)

include h hstates hrest

theorem attains_reduce {production : Nat}
    (haction : Language.tables.action state t.kind = .reduce production) :
    Attains promise p m fun shifted m' => shifted = [] ∧ Reduced promise m production m' := by
  rcases ensures_reduce p.dialect t.span h.1 hstates haction with
    ⟨_, m', hreduce, hbalanced, hsame⟩ | ⟨hplain, text, m', hreduce⟩
  · obtain ⟨symbols, hholds⟩ := h.1
    refine .of_reads (reads_reduce hstates hrest haction hreduce) ⟨rfl, ⟨hbalanced, ?_, ?_⟩, hsame,
      (reduce?_of_reduce hholds.spells hstates haction hreduce).1⟩
    · unfold EndsInEof
      rw [hsame]
      exact h.2.endsInEof
    · rw [hsame]
      exact h.2.meets
  · refine .inr ⟨.brokenText text, [], m, m', hplain, .done, ?_⟩
    rw [step_eq hstates hrest, haction]
    dsimp only
    rw [hreduce]

theorem attains_shift_of_action {target : Nat}
    (haction : Language.tables.action state t.kind = .shift target) :
    Attains promise p m fun shifted m' => shifted = [t] ∧ Leads promise .running m' ∧
      m'.rest = rest ∧ m'.states = target :: m.states := by
  obtain ⟨symbols, hspells, _⟩ := h.1
  rw [hstates] at hspells
  have heof := hspells.shift_ne_eof Language.wellFormed_grammar Language.startIsolated_grammar
    Language.lacksEof_grammar haction
  have hfed := h.2.tail hrest heof
  exact .of_reads (reads_shift hstates hrest haction)
    ⟨rfl, ⟨balanced_afterShift h.1 hstates (h.2.first hrest).plain haction, hfed.1, hfed.2⟩, rfl, rfl⟩

end

/-! ### Kinds that the automaton reads -/

/-- A machine that goes on has states. -/
theorem exists_states (h : Leads promise .running m) : ∃ state below, m.states = state :: below := by
  obtain ⟨symbols, hholds⟩ := h.1
  exact List.exists_cons_of_ne_nil hholds.spells.ne_nil

section

variable {t : Token} {rest : List Token} {gas : Nat} (h : Leads promise .running m)
  (hrest : m.rest = t :: rest)

include h hrest

/-- What the automaton shifts, the machine shifts. -/
theorem attains_shift {states : List Nat}
    (hfeed : Language.automaton.feedWithin t.kind gas m.states = .shifted states) :
    Attains promise p m fun shifted m' => shifted = [t] ∧ Leads promise .running m' ∧
      m'.rest = rest ∧ m'.states = states := by
  induction gas generalizing m with
  | zero => cases hfeed
  | succ gas ih =>
      obtain ⟨state, below, hstates⟩ := exists_states h
      rw [hstates] at hfeed
      cases haction : Language.tables.action state t.kind with
      | shift target =>
          rw [feedWithin_of_shift haction, Fate.shifted.injEq, ← hstates] at hfeed
          rw [← hfeed]
          exact attains_shift_of_action h hstates hrest haction
      | accept =>
          rw [feedWithin_of_accept haction] at hfeed
          cases hfeed
      | error =>
          rw [feedWithin_of_error haction] at hfeed
          cases hfeed
      | reduce production =>
          refine (attains_reduce h hstates hrest haction).bind ?_
          rintro _ m' ⟨rfl, hreduced⟩
          rw [feedWithin_of_reduce haction (hstates ▸ hreduced.states)] at hfeed
          exact ih hreduced.leads (hreduced.rest.trans hrest) hfeed

/-- Where the automaton accepts, the machine accepts. -/
theorem attains_accept (hfeed : Language.automaton.feedWithin t.kind gas m.states = .accepted) :
    Attains promise p m fun shifted m' => shifted = [] ∧ m'.rest = m.rest ∧
      step p m' = .ok .accepted m' := by
  induction gas generalizing m with
  | zero => cases hfeed
  | succ gas ih =>
      obtain ⟨state, below, hstates⟩ := exists_states h
      rw [hstates] at hfeed
      cases haction : Language.tables.action state t.kind with
      | shift target =>
          rw [feedWithin_of_shift haction] at hfeed
          cases hfeed
      | accept =>
          refine .of_reads .done ⟨rfl, rfl, ?_⟩
          rw [step_eq hstates hrest, haction]
      | error =>
          rw [feedWithin_of_error haction] at hfeed
          cases hfeed
      | reduce production =>
          refine (attains_reduce h hstates hrest haction).bind ?_
          rintro _ m' ⟨rfl, hreduced⟩
          rw [feedWithin_of_reduce haction (hstates ▸ hreduced.states)] at hfeed
          refine (ih hreduced.leads (hreduced.rest.trans hrest) hfeed).mono ?_
          rintro shifted last ⟨rfl, hsame, hstep⟩
          exact ⟨rfl, hsame.trans hreduced.rest, hstep⟩

end

/-! ### Shift operators that do not fit -/

theorem kind_of_halves? {kind first second : TokenKind} (h : kind.halves? = some (first, second)) :
    (kind = .shiftRight ∨ kind = .shiftRightUnsigned) ∧ first = .gt := by
  cases kind <;> cases h <;> simp

theorem split_cases {t : Token} {first second : TokenKind}
    (h : t.kind.halves? = some (first, second)) : (∃ reason, t.split = .crashes reason) ∨
      ∃ u v, t.split = .halves u v ∧ u.kind = first ∧ v.kind = second := by
  unfold Token.split
  rw [h]
  dsimp only
  split
  · exact .inl ⟨_, rfl⟩
  · split
    · exact .inr ⟨_, _, rfl, rfl, rfl⟩
    · exact .inl ⟨_, rfl⟩

/-- A token is split where it does not fit but a closing bracket has an action; then the bracket is
read. -/
theorem attains_halves {t : Token} {rest : List Token} {state gas : Nat} {below states : List Nat}
    {second : TokenKind} (h : Leads promise .running m) (hstates : m.states = state :: below)
    (hrest : m.rest = t :: rest) (hhalves : t.kind.halves? = some (.gt, second))
    (haction : Language.tables.action state t.kind = .error)
    (hgt : Language.tables.action state .gt ≠ .error)
    (hfeed : Language.automaton.feedWithin .gt gas m.states = .shifted states) :
    Attains promise p m fun shifted m' => ∃ u v, t.split = .halves u v ∧ v.kind = second ∧
      shifted = [u] ∧ Leads promise .running m' ∧ m'.rest = v :: rest ∧ m'.states = states := by
  rcases split_cases hhalves with ⟨reason, hcrashes⟩ | ⟨u, v, hsplit, hu, hv⟩
  · refine .inr ⟨reason, [], m, m, (h.2.first hrest).admits hcrashes, .done, ?_⟩
    rw [step_eq hstates hrest, haction]
    dsimp only
    rw [if_neg hgt, hcrashes]
  · obtain ⟨symbols, hholds⟩ := h.1
    have hleads : Leads promise .running { m with rest := u :: v :: rest } :=
      ⟨⟨symbols, hholds.spells, hholds.spans, hholds.fits⟩, h.2.split hrest hsplit⟩
    refine (Attains.of_reads (Q := fun shifted m' => shifted = [] ∧
      m' = { m with rest := u :: v :: rest }) (reads_split hstates hrest haction hgt hsplit)
      ⟨rfl, rfl⟩).bind ?_
    rintro _ _ ⟨rfl, rfl⟩
    rw [← hu] at hfeed
    refine (attains_shift hleads rfl hfeed).mono ?_
    rintro shifted m' ⟨rfl, hm'⟩
    exact ⟨u, v, hsplit, hv, rfl, hm'⟩

/-- A shift operator that the automaton cannot read as a whole, but as brackets, is split by the
machine after the reductions before it. -/
theorem attains_split {t : Token} {rest : List Token} {gas : Nat} {states : List Nat}
    {second : TokenKind} (h : Leads promise .running m) (hrest : m.rest = t :: rest)
    (hhalves : t.kind.halves? = some (.gt, second))
    (hwhole : Language.automaton.feedWithin t.kind gas m.states = .rejected)
    (hfeed : Language.automaton.feedWithin .gt gas m.states = .shifted states) :
    Attains promise p m fun shifted m' => ∃ u v, t.split = .halves u v ∧ v.kind = second ∧
      shifted = [u] ∧ Leads promise .running m' ∧ m'.rest = v :: rest ∧ m'.states = states := by
  induction gas generalizing m with
  | zero => cases hfeed
  | succ gas ih =>
      obtain ⟨state, below, hstates⟩ := exists_states h
      have hgt : Language.tables.action state .gt ≠ .error := by
        intro hgt
        rw [hstates, feedWithin_of_error hgt] at hfeed
        cases hfeed
      cases haction : Language.tables.action state t.kind with
      | shift target =>
          rw [hstates, feedWithin_of_shift haction] at hwhole
          cases hwhole
      | accept =>
          rw [hstates, feedWithin_of_accept haction] at hwhole
          cases hwhole
      | error => exact attains_halves h hstates hrest hhalves haction hgt hfeed
      | reduce production =>
          obtain ⟨symbols, hholds⟩ := h.1
          obtain ⟨kernel, hk⟩ :=
            (hstates ▸ hholds.spells).kernel_top Language.wellFormed_grammar
          -- before a closing bracket the state can only reduce in the same way
          have hsame := (Language.action_gt_of_reduce hk (kind_of_halves? hhalves).1
            haction).resolve_right hgt
          refine (attains_reduce h hstates hrest haction).bind ?_
          rintro _ m' ⟨rfl, hreduced⟩
          have hreduce := hreduced.states
          rw [hstates] at hwhole hfeed hreduce
          rw [feedWithin_of_reduce haction hreduce] at hwhole
          rw [feedWithin_of_reduce hsame hreduce] at hfeed
          exact ih hreduced.leads (hreduced.rest.trans hrest) hwhole hfeed

/-- What the automaton reads, as a whole or as brackets, the machine shifts in pieces. -/
theorem attains_pieces {t : Token} {rest : List Token} {states : List Nat}
    (h : Leads promise .running m) (hrest : m.rest = t :: rest)
    (hfeed : Language.automaton.feedOrSplit m.states t.kind = .shifted states) :
    Attains promise p m fun shifted m' => Cut [t] shifted ∧ Leads promise .running m' ∧
      m'.rest = rest ∧ m'.states = states := by
  induction hcount : t.kind.brackets using Nat.strong_induction_on generalizing m t with
  | _ count ih =>
    rw [Automaton.feedOrSplit] at hfeed
    split at hfeed
    · rename_i hwhole
      split at hfeed
      · cases hfeed
      · rename_i first second hhalves
        obtain rfl := (kind_of_halves? hhalves).2
        split at hfeed
        · rename_i after hfirst
          refine (attains_split h hrest hhalves hwhole hfirst).bind ?_
          rintro _ m' ⟨u, v, hsplit, hv, rfl, hleads, hrest', hstates⟩
          have hlt := TokenKind.brackets_lt_of_halves? hhalves
          rw [← hv] at hfeed hlt
          rw [← hstates] at hfeed
          refine (ih _ (hcount ▸ hlt) hleads hrest' hfeed rfl).mono ?_
          rintro more last ⟨hcut, hlast⟩
          exact ⟨.split hsplit (.keep hcut), hlast⟩
        · rename_i hnot
          exact absurd hfeed (hnot states)
    · refine (attains_shift h hrest hfeed).mono ?_
      rintro shifted m' ⟨rfl, hm'⟩
      exact ⟨.refl _, hm'⟩

end Machine

end AspectLang
