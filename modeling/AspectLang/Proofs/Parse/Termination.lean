import AspectLang.Proofs.Parse.ReductionChains
import AspectLang.Proofs.Parse.TrialRuns

/-! # Parsing stops

Without repairs the machine soon stops or looks for one: shifts and splits use the tokens up, and
reductions between them lower the rank of the stack (`attains_seeking`).  A repair that inserts
tokens is followed by reading what was left before it, and any other leaves a token out, so less of
the input is left when the machine looks for a repair again (`attains_less`).  So the machine stops
after finitely many steps (`ends_of_leads`), unless a token crashes it. -/

namespace AspectLang

/-! ### Tokens that are used up -/

/-- What there is to do for tokens: each can be shifted, and split before. -/
def effort (tokens : List Token) : Nat := (tokens.map fun t => 2 * t.kind.brackets - 1).sum

theorem effort_cons (t : Token) (tokens : List Token) :
    effort (t :: tokens) = 2 * t.kind.brackets - 1 + effort tokens := by
  simp [effort]

theorem effort_append (a b : List Token) : effort (a ++ b) = effort a + effort b := by
  simp [effort]

theorem effort_lt_cons (t : Token) (tokens : List Token) : effort tokens < effort (t :: tokens) := by
  have hpos := t.kind.brackets_pos
  rw [effort_cons]
  omega

theorem effort_halves {t first second : Token} (h : t.split = .halves first second)
    (tokens : List Token) : effort (first :: second :: tokens) < effort (t :: tokens) := by
  obtain ⟨_, hgt, _, hbrackets⟩ := Token.span_halves h
  have hone : TokenKind.gt.brackets = 1 := rfl
  have hpos := second.kind.brackets_pos
  rw [effort_cons, effort_cons, effort_cons, hgt, hone]
  omega

theorem Cut.effort_le {a b : List Token} (h : Cut a b) : effort b ≤ effort a := by
  induction h with
  | nil => exact Nat.le_refl _
  | keep _ ih =>
      rw [effort_cons, effort_cons]
      omega
  | split hsplit _ ih => exact ih.trans (effort_halves hsplit _).le

theorem Cut.ne_nil {a b : List Token} (h : Cut a b) (ha : a ≠ []) : b ≠ [] := by
  induction h with
  | nil => exact ha
  | keep => exact List.cons_ne_nil _ _
  | split _ _ ih => exact ih (List.cons_ne_nil _ _)

/-- Whether an action is a reduction. -/
def Action.isReduction : Action → Bool
  | .reduce _ => true
  | _ => false

namespace Machine

variable {promise : Promise} {p : ParserSetup} {m m' : Machine} {symbols : List Symbol}

/-! ### Reductions in a row -/

/-- Whether the next step is a reduction. -/
def reducesNext (m : Machine) : Bool :=
  match m.states, m.rest with
  | state :: _, t :: _ => (Language.tables.action state t.kind).isReduction
  | _, _ => false

/-- A step that succeeds and is a reduction. -/
def Reduces (p : ParserSetup) (m m' : Machine) : Prop :=
  m.reducesNext = true ∧ step p m = .ok .running m'

theorem reducesNext_eq {state : Nat} {below : List Nat} {t : Token} {rest : List Token}
    (hstates : m.states = state :: below) (hrest : m.rest = t :: rest) :
    m.reducesNext = (Language.tables.action state t.kind).isReduction := by
  unfold reducesNext
  rw [hstates, hrest]

/-- A reduction lowers the rank. -/
theorem Reduces.rank_lt (h : Reduces p m m') (hspells : Language.grammar.Spells m.states symbols) :
    m'.rest = m.rest ∧ ∃ symbols', Language.grammar.Spells m'.states symbols' ∧
      rank symbols' < rank symbols := by
  obtain ⟨hreduces, hstep⟩ := h
  obtain ⟨state, below, hstates⟩ := List.exists_cons_of_ne_nil hspells.ne_nil
  cases hrest : m.rest with
  | nil =>
      unfold reducesNext at hreduces
      rw [hstates, hrest] at hreduces
      cases hreduces
  | cons t rest =>
      rw [reducesNext_eq hstates hrest] at hreduces
      cases haction : Language.tables.action state t.kind with
      | shift target =>
          rw [haction] at hreduces
          cases hreduces
      | accept =>
          rw [haction] at hreduces
          cases hreduces
      | error =>
          rw [haction] at hreduces
          cases hreduces
      | reduce production =>
          rw [step_eq hstates hrest, haction] at hstep
          dsimp only at hstep
          split at hstep
          · rename_i hreduce
            cases hstep
            obtain ⟨hsame, hleft⟩ := reduce?_of_reduce hspells hstates haction hreduce
            rw [hstates] at hspells hsame
            obtain ⟨states, symbols', hreduced, hafter, hlt⟩ :=
              Language.rank_lt_of_reduce hspells haction
            rw [hsame, Option.some.injEq] at hreduced
            exact ⟨hleft.trans hrest, symbols', hreduced ▸ hafter, hlt⟩
          · cases hstep

/-- There is no infinite chain of reductions. -/
theorem exists_not_reduces (chain : Nat → Machine)
    (hspells : Language.grammar.Spells (chain 0).states symbols) :
    ∃ i, ¬ Reduces p (chain i) (chain (i + 1)) := by
  induction hrank : rank symbols using Nat.strong_induction_on generalizing chain symbols with
  | _ n ih =>
    by_cases hfirst : Reduces p (chain 0) (chain 1)
    · obtain ⟨_, symbols', hnext, hlt⟩ := hfirst.rank_lt hspells
      obtain ⟨i, hi⟩ := ih _ (hrank ▸ hlt) (fun i => chain (i + 1)) hnext rfl
      exact ⟨i + 1, hi⟩
    · exact ⟨0, hfirst⟩

/-! ### Steps without repairs use tokens up -/

/-- What a step without a repair does to the tokens that are left. -/
inductive Turned (p : ParserSetup) (m m' : Machine) : Prop
  | shift {t : Token} {rest : List Token} : m.rest = t :: rest → m.nextShifted = [t] →
      m'.rest = rest → Turned p m m'
  | split {t first second : Token} {rest : List Token} : m.rest = t :: rest →
      t.split = .halves first second → m.nextShifted = [] → m'.rest = first :: second :: rest →
        Turned p m m'
  | reduce : Reduces p m m' → m.nextShifted = [] → Turned p m m'

/-- A step without a repair accepts, or goes on, or crashes if that is not excluded. -/
theorem quiet_cases (p : ParserSetup) (h : Leads promise .running m)
    (hseeks : m.seeksRepair = false) :
    step p m = .ok .accepted m ∨ (∃ m', step p m = .ok .running m' ∧ Turned p m m') ∨
      ∃ reason m', promise.Admits reason ∧ step p m = .error (.crash reason) m' := by
  obtain ⟨state, below, hstates⟩ := exists_states h
  obtain ⟨t, rest, hrest⟩ := exists_first h
  have hstep := step_eq (p := p) hstates hrest
  have hshifted := nextShifted_eq hstates hrest
  have hreduces := reducesNext_eq hstates hrest
  rw [seeksRepair_eq hstates hrest] at hseeks
  cases haction : Language.tables.action state t.kind with
  | shift target =>
      rw [haction] at hstep hshifted
      exact .inr (.inl ⟨_, hstep, .shift hrest hshifted rfl⟩)
  | accept =>
      rw [haction] at hstep
      exact .inl hstep
  | reduce production =>
      rw [haction] at hstep hshifted hreduces
      dsimp only at hstep
      rcases ensures_reduce p.dialect t.span h.1 hstates haction with
        ⟨_, m', hreduce, _⟩ | ⟨hplain, text, m', hreduce⟩
      · rw [hreduce] at hstep
        exact .inr (.inl ⟨m', hstep, .reduce ⟨hreduces, hstep⟩ hshifted⟩)
      · rw [hreduce] at hstep
        exact .inr (.inr ⟨.brokenText text, m', hplain, hstep⟩)
  | error =>
      rw [haction, decide_eq_true rfl, Bool.true_and, Bool.or_eq_false_iff, decide_eq_false_iff_not,
        decide_eq_false_iff_not] at hseeks
      rw [haction] at hstep hshifted
      dsimp only at hstep
      rw [if_neg hseeks.1] at hstep
      cases hsplit : t.split with
      | whole => exact absurd hsplit hseeks.2
      | halves first second =>
          rw [hsplit] at hstep
          exact .inr (.inl ⟨_, hstep, .split hrest hsplit hshifted rfl⟩)
      | crashes reason =>
          rw [hsplit] at hstep
          exact .inr (.inr ⟨reason, _, (h.2.first hrest).admits hsplit, hstep⟩)

theorem turned_of_step (h : Leads promise .running m) (hseeks : m.seeksRepair = false)
    (hstep : step p m = .ok .running m') : Turned p m m' := by
  rcases quiet_cases p h hseeks with haccept | ⟨next, hnext, hturned⟩ | ⟨_, _, _, hfault⟩
  · rw [hstep] at haccept
    cases haccept
  · rw [hstep] at hnext
    cases hnext
    exact hturned
  · rw [hstep] at hfault
    cases hfault

theorem Turned.cut (h : Leads promise .running m) (hturned : Turned p m m') :
    Cut m.rest (m.nextShifted ++ m'.rest) := by
  cases hturned with
  | shift hrest hshifted hleft =>
      rw [hrest, hshifted, hleft]
      exact .refl _
  | split hrest hsplit hshifted hleft =>
      rw [hrest, hshifted, hleft]
      exact .split hsplit (.refl _)
  | reduce hreduces hshifted =>
      obtain ⟨symbols, hholds⟩ := h.1
      rw [hshifted, (hreduces.rank_lt hholds.spells).1]
      exact .refl _

/-- What is read without repairs is cut off the tokens that were left. -/
theorem Reads.cut {shifted : List Token} (hreads : Reads p m shifted m')
    (h : Leads promise .running m) :
    Leads promise .running m' ∧ Cut m.rest (shifted ++ m'.rest) := by
  induction hreads with
  | done => exact ⟨h, .refl _⟩
  | next hseeks hstep _ ih =>
      obtain ⟨hlast, hcut⟩ := ih (leads_of_step h hstep)
      refine ⟨hlast, ?_⟩
      rw [List.append_assoc]
      exact ((turned_of_step h hseeks hstep).cut h).trans ((Cut.refl _).append hcut)

/-- Without repairs the machine comes to look for one, or accepts. -/
theorem attains_seeking (p : ParserSetup) (h : Leads promise .running m) :
    Attains promise p m fun _ m' => m'.seeksRepair = true ∨ step p m' = .ok .accepted m' := by
  induction heffort : effort m.rest using Nat.strong_induction_on generalizing m with
  | _ n ihEffort =>
    obtain ⟨symbols, hholds⟩ := h.1
    have hspells := hholds.spells
    clear hholds
    induction hrank : rank symbols using Nat.strong_induction_on generalizing m symbols with
    | _ k ihRank =>
      cases hseeks : m.seeksRepair with
      | true => exact .of_reads .done (.inl hseeks)
      | false =>
          rcases quiet_cases p h hseeks with
            haccept | ⟨m', hstep, hturned⟩ | ⟨reason, m', hadmits, hstep⟩
          · exact .of_reads .done (.inr haccept)
          · have hreads : Attains promise p m fun _ next => next = m' :=
              .of_reads (.next hseeks hstep .done) rfl
            refine hreads.bind ?_
            rintro _ _ rfl
            have hleads := leads_of_step h hstep
            cases hturned with
            | shift hrest _ hleft =>
                refine ihEffort _ ?_ hleads rfl
                rw [← heffort, hrest, hleft]
                exact effort_lt_cons _ _
            | split hrest hsplit _ hleft =>
                refine ihEffort _ ?_ hleads rfl
                rw [← heffort, hrest, hleft]
                exact effort_halves hsplit _
            | reduce hreduces _ =>
                obtain ⟨hsame, symbols', hspells', hlt⟩ := hreduces.rank_lt hspells
                exact ihRank _ (hrank ▸ hlt) hleads (hsame ▸ heffort) symbols' hspells' rfl
          · exact .inr ⟨reason, [], m, m', hadmits, .done, hstep⟩

/-! ### Repairs use tokens up -/

theorem rest_of_passOver {maxFailures : Nat} {t : Token}
    (hrunning : (m.passOver maxFailures t).1 = .running) :
    (m.passOver maxFailures t).2.rest = m.rest.tail := by
  unfold passOver at hrunning ⊢
  dsimp only at hrunning ⊢
  split at hrunning
  · cases hrunning
  · rename_i hkind
    rw [if_neg hkind]
    split at hrunning
    · cases hrunning
    · rename_i hfailures
      rw [if_neg hfailures]
      rfl

/-- Without a repair, the machine goes on by leaving out a token. -/
theorem rest_of_no_repair {t : Token} (hseeks : m.seeksRepair = true)
    (hnone : m.nextRepair? p = none) (hrunning : (recover p t m).1 = .running) :
    (recover p t m).2.rest = m.rest.tail := by
  unfold nextRepair? at hnone
  rw [hseeks, Bool.true_and] at hnone
  unfold recover at hrunning ⊢
  split at hrunning
  · cases hrunning
  · rename_i hphase
    rw [if_neg hphase]
    split at hrunning
    · cases hrunning
    · rename_i hbudget
      rw [if_neg hbudget]
      split at hrunning
      · cases hrunning
      · rename_i hallowed
        rw [if_neg hallowed]
        have hmay : m.mayRepair p = true := by
          rw [Bool.not_eq_true', Bool.not_eq_false] at hallowed
          simp [mayRepair, hphase, hbudget, hallowed]
        rw [if_pos hmay] at hnone
        dsimp only at hrunning ⊢
        rw [hnone] at hrunning ⊢
        exact rest_of_passOver hrunning

/-- After the machine looked for a repair and goes on, less of the tokens is left soon, without
another repair, or it accepts. -/
theorem attains_less (h : Leads promise .running m) (hseeks : m.seeksRepair = true)
    (hstep : step p m = .ok .running m') :
    Attains promise p m' fun _ last => (∃ gone, gone ≠ [] ∧ Cut m.rest (gone ++ last.rest)) ∨
      step p last = .ok .accepted last := by
  obtain ⟨t, rest, hrest⟩ := exists_first h
  cases hr : m.nextRepair? p with
  | none =>
      rw [step_of_seeksRepair hseeks hrest] at hstep
      injection hstep with hrunning hnext
      refine .of_reads .done (.inl ⟨[t], List.cons_ne_nil _ _, ?_⟩)
      rw [← hnext, rest_of_no_repair hseeks hr hrunning, hrest]
      exact .refl _
  | some r =>
      obtain ⟨next, inserted, hnext, _, _, hattains⟩ := attains_of_nextRepair? h hr
      rw [hstep] at hnext
      cases hnext
      refine hattains.mono ?_
      rintro _ last ⟨consumed, pieces, rfl, hcut, hkept, hread | haccept⟩
      · refine .inl ?_
        have hpieces : pieces ≠ [] := by
          refine hcut.ne_nil fun hnil => ?_
          rw [hnil, List.length_nil] at hread
          omega
        have hleft : Cut (r.kept m.rest) (pieces ++ last.rest) := by
          rw [hkept]
          exact hcut.append (.refl _)
        cases r with
        | insert kinds => exact ⟨pieces, hpieces, hleft⟩
        | delete =>
            rw [hrest] at hleft ⊢
            exact ⟨t :: pieces, List.cons_ne_nil _ _, .keep hleft⟩
      · exact .inr haccept

/-! ### From one repair to the next -/

/-- A run without repairs is part of every longer one that cannot go on without a repair. -/
theorem Reads.continues {shifted shifted' : List Token} {last : Machine}
    (h : Reads p m shifted m') (h' : Reads p m shifted' last)
    (hlast : last.seeksRepair = false → ∀ next, step p last ≠ .ok .running next) :
    ∃ more, Reads p m' more last := by
  induction h generalizing shifted' with
  | done => exact ⟨_, h'⟩
  | next hquiet hstep _ ih =>
      cases h' with
      | done => exact absurd hstep (hlast hquiet _)
      | next _ hstep' hmore =>
          rw [hstep] at hstep'
          cases hstep'
          exact ih hmore

/-- A machine from which a repair is looked for does not accept, and meets no fault. -/
theorem Reads.step_ok {shifted : List Token} (hreads : Reads p m shifted m')
    (hseeks : m'.seeksRepair = true) (h : Leads promise .running m) :
    ∃ progress next, step p m = .ok progress next ∧ progress ≠ .accepted := by
  cases hreads with
  | done =>
      obtain ⟨t, rest, hrest⟩ := exists_first h
      exact ⟨_, _, step_of_seeksRepair hseeks hrest, recover_ne_accepted p t m⟩
  | next _ hstep _ => exact ⟨_, _, hstep, nofun⟩

/-- Where the machine looks for a repair again, less of the tokens is left. -/
theorem less_of_reads {last : Machine} {shifted : List Token} (h : Leads promise .running m)
    (hseeks : m.seeksRepair = true) (hstep : step p m = .ok .running m')
    (hreads : Reads p m' shifted last) (hagain : last.seeksRepair = true) :
    ∃ gone, gone ≠ [] ∧ Cut m.rest (gone ++ last.rest) := by
  have hm' := leads_of_step h hstep
  have hlast : last.seeksRepair = false → ∀ next, step p last ≠ .ok .running next := fun hquiet =>
    absurd hagain (Bool.eq_false_iff.mp hquiet)
  rcases attains_less h hseeks hstep with ⟨before, middle, hbefore, hmiddle⟩ |
    ⟨_, before, middle, failed, _, hbefore, hcrash⟩
  · obtain ⟨more, hmore⟩ := hbefore.continues hreads hlast
    have hleads := (hbefore.cut hm').1
    rcases hmiddle with ⟨gone, hgone, hcut⟩ | haccept
    · refine ⟨gone ++ more, by simp [hgone], ?_⟩
      rw [List.append_assoc]
      exact hcut.trans ((Cut.refl gone).append (hmore.cut hleads).2)
    · obtain ⟨progress, next, hnext, hne⟩ := hmore.step_ok hagain hleads
      rw [haccept] at hnext
      cases hnext
      exact absurd rfl hne
  · obtain ⟨more, hmore⟩ := hbefore.continues hreads hlast
    obtain ⟨progress, next, hnext, _⟩ := hmore.step_ok hagain (hbefore.cut hm').1
    rw [hcrash] at hnext
    cases hnext

/-- A machine that came from another without repairs, or from a later one that had to look for a
repair among what is left of the same tokens. -/
inductive Tracked (promise : Promise) (p : ParserSetup) (start : Machine) : Machine → Prop
  | quiet {m : Machine} {shifted : List Token} : Reads p start shifted m → Tracked promise p start m
  | call {call next m : Machine} {gone shifted : List Token} : Leads promise .running call →
      call.seeksRepair = true → Cut start.rest (gone ++ call.rest) →
        step p call = .ok .running next → Reads p next shifted m → Tracked promise p start m

/-- Where a repair is looked for, only tokens are left that were there at the start. -/
theorem Tracked.original {start : Machine} (h : Tracked promise p start m)
    (hstart : Leads promise .running start) (hseeks : m.seeksRepair = true) :
    ∃ gone, Cut start.rest (gone ++ m.rest) := by
  cases h with
  | quiet hreads => exact ⟨_, (hreads.cut hstart).2⟩
  | @call call next _ gone shifted hcall hcalls hcut hnext hreads =>
      obtain ⟨more, _, hmore⟩ := less_of_reads hcall hcalls hnext hreads hseeks
      refine ⟨gone ++ more, ?_⟩
      rw [List.append_assoc]
      exact hcut.trans ((Cut.refl _).append hmore)

theorem Tracked.step {start : Machine} (h : Tracked promise p start m)
    (hstart : Leads promise .running start) (hm : Leads promise .running m)
    (hstep : step p m = .ok .running m') : Tracked promise p start m' := by
  cases hseeks : m.seeksRepair with
  | false =>
      have hnext := Reads.next hseeks hstep .done
      cases h with
      | quiet hreads => exact .quiet (hreads.trans hnext)
      | call hcall hcalls hcut hcallNext hreads =>
          exact .call hcall hcalls hcut hcallNext (hreads.trans hnext)
  | true =>
      obtain ⟨gone, hcut⟩ := h.original hstart hseeks
      exact .call hm hseeks hcut hstep .done

theorem Tracked.after {start : Machine} (n : Nat) (h : Tracked promise p start m)
    (hstart : Leads promise .running start) (hm : Leads promise .running m) :
    Tracked promise p start (m.after p n) := by
  induction n generalizing m with
  | zero => exact h
  | succ n ih =>
      unfold Machine.after
      split
      · rename_i m' hstep
        exact ih (h.step hstart hm hstep) (leads_of_step hm hstep)
      · exact h

/-! ### The machine stops -/

/-- After finitely many steps the machine accepts or gives the unit up. -/
def Stops (p : ParserSetup) (m : Machine) : Prop :=
  ∃ n progress last, step p (m.after p n) = .ok progress last ∧ progress ≠ .running

/-- The machine stops, or there is a crash that is not excluded. -/
def Ends (promise : Promise) (p : ParserSetup) (m : Machine) : Prop :=
  Stops p m ∨
    ∃ reason n last, promise.Admits reason ∧ step p (m.after p n) = .error (.crash reason) last

/-- On tokens that promise everything, the machine stops. -/
theorem Ends.stops (h : Ends promise p m) (hplain : promise.plain) (hlow : promise.low) :
    Stops p m := by
  rcases h with hstops | ⟨reason, _, _, hadmits, _⟩
  · exact hstops
  · exact absurd hadmits (Promise.not_admits hplain hlow reason)

theorem Ends.of_step (hstep : step p m = .ok .running m') (h : Ends promise p m') :
    Ends promise p m := by
  have hafter : ∀ n, m.after p (n + 1) = m'.after p n := fun n => by rw [after, hstep]
  rcases h with ⟨n, progress, last, hlast, hne⟩ | ⟨reason, n, last, hadmits, hcrash⟩
  · exact .inl ⟨n + 1, progress, last, (hafter n).symm ▸ hlast, hne⟩
  · exact .inr ⟨reason, n + 1, last, hadmits, (hafter n).symm ▸ hcrash⟩

theorem Ends.of_reads {shifted : List Token} (hreads : Reads p m shifted m')
    (h : Ends promise p m') : Ends promise p m := by
  induction hreads with
  | done => exact h
  | next _ hstep _ ih => exact (ih h).of_step hstep

theorem Ends.of_attains {Q : List Token → Machine → Prop} (h : Attains promise p m Q)
    (hQ : ∀ shifted m', Reads p m shifted m' → Q shifted m' → Ends promise p m') :
    Ends promise p m := by
  rcases h with ⟨shifted, m', hreads, hq⟩ | ⟨reason, shifted, m', failed, hadmits, hreads, hcrash⟩
  · exact (hQ shifted m' hreads hq).of_reads hreads
  · exact .of_reads hreads (.inr ⟨reason, 0, failed, hadmits, hcrash⟩)

theorem Ends.of_accept (h : step p m = .ok .accepted m) : Ends promise p m :=
  .inl ⟨0, .accepted, m, h, nofun⟩

/-- A machine that looks for a repair comes to an end. -/
theorem ends_of_seeking (h : Leads promise .running m) (hseeks : m.seeksRepair = true) :
    Ends promise p m := by
  induction heffort : effort m.rest using Nat.strong_induction_on generalizing m with
  | _ n ih =>
    obtain ⟨t, rest, hrest⟩ := exists_first h
    have hstep := step_of_seeksRepair (p := p) hseeks hrest
    cases hprogress : (recover p t m).1 with
    | accepted => exact absurd hprogress (recover_ne_accepted p t m)
    | abandoned =>
        rw [hprogress] at hstep
        exact .inl ⟨0, .abandoned, _, hstep, nofun⟩
    | running =>
        rw [hprogress] at hstep
        refine Ends.of_step hstep (Ends.of_attains (attains_less h hseeks hstep) ?_)
        rintro shifted last hreads (⟨gone, hgone, hcut⟩ | haccept)
        · have hlast := (hreads.cut (leads_of_step h hstep)).1
          refine Ends.of_attains (attains_seeking p hlast) ?_
          rintro more again hmore (hagain | haccept)
          · obtain ⟨hleads, hless⟩ := hmore.cut hlast
            refine ih _ ?_ hleads hagain rfl
            obtain ⟨u, others, rfl⟩ := List.exists_cons_of_ne_nil hgone
            have hfirst := hcut.effort_le
            have hsecond := hless.effort_le
            rw [List.cons_append, effort_cons, effort_append] at hfirst
            rw [effort_append] at hsecond
            have hpos := u.kind.brackets_pos
            omega
          · exact .of_accept haccept
        · exact .of_accept haccept

theorem ends_of_leads (h : Leads promise .running m) : Ends promise p m := by
  refine Ends.of_attains (attains_seeking p h) ?_
  rintro shifted m' hreads (hseeks | haccept)
  · exact ends_of_seeking (hreads.cut h).1 hseeks
  · exact .of_accept haccept

end Machine

end AspectLang
