import AspectLang.Proofs.Parse.Balance
import AspectLang.Proofs.Parse.Sentences
import AspectLang.Proofs.Parse.Trials

/-! # What parsing a unit can come to

A machine is `Balanced` when its states spell symbols, and its value stacks hold what these
symbols leave.  Every step keeps that: shifts and reductions change both sides alike, splits and
repairs change neither (`leads_step`).  So a run ends with empty stacks and a finished unit, with
a unit that is given up, or when its steps run out; the only other way is a crash that the promise
about the tokens does not exclude (`leads_run`).  So a unit ends in one of three ways
(`Parser.parseStream_cases`). -/

namespace AspectLang

/-! ### The value stacks of a machine -/

namespace Machine

variable {plain : Prop} {promise : Promise} {p : ParserSetup} {m m' : Machine}

/-- The value stacks hold what the symbols leave that the states spell. -/
structure Holds (plain : Prop) (m : Machine) (symbols : List Symbol) : Prop where
  spells : Language.grammar.Spells m.states symbols
  spans : m.spans.length = m.states.length
  fits : m.work.Fits plain (stackProfile symbols)

/-- The value stacks are in step with the states. -/
def Balanced (plain : Prop) (m : Machine) : Prop := ∃ symbols, m.Holds plain symbols

/-- The tokens that are left end with the end of input, and they are as promised. -/
structure Fed (promise : Promise) (m : Machine) : Prop where
  endsInEof : m.EndsInEof
  meets : ∀ t ∈ m.rest, t.Meets promise

/-- There is a finished unit, and nothing else. -/
structure Complete (m : Machine) : Prop where
  unit : m.work.unit.isSome = true
  depths : m.work.values.depths.isZero = true

/-- What holds of the machine when a step came to some progress. -/
def Leads (promise : Promise) : Progress → Machine → Prop
  | .running, m => m.Balanced promise.plain ∧ m.Fed promise
  | .accepted, m => m.Complete
  | .abandoned, m => m.Balanced promise.plain

/-- From `m`, work on the stacks succeeds as `Q` says; but a text may have to be cut inside a
character, if not all texts are `plain`. -/
def Ensures {α : Type} (plain : Prop) (m : Machine) (a : Step α) (Q : α → Machine → Prop) : Prop :=
  (∃ b m', a m = .ok b m' ∧ Q b m') ∨
    ¬ plain ∧ ∃ text m', a m = .error (.crash (.brokenText text)) m'

/-- From `m`, steps come to a progress and lead to a machine as `Leads` says; but there may be a
crash that is not excluded. -/
def Proceeds (promise : Promise) (m : Machine) (a : Step Progress) : Prop :=
  (∃ progress m', a m = .ok progress m' ∧ Leads promise progress m') ∨
    ∃ reason m', promise.Admits reason ∧ a m = .error (.crash reason) m'

theorem Balanced.of_keeps (h : m.Balanced plain) (hkeeps : m.Keeps m') : m'.Balanced plain := by
  obtain ⟨symbols, hspells, hspans, hfits⟩ := h
  refine ⟨symbols, ?_, ?_, hfits.of_values hkeeps.values hkeeps.unit⟩
  · rw [hkeeps.states]
    exact hspells
  · rw [hkeeps.spans, hkeeps.states]
    exact hspans

/-! ### Shifting -/

theorem fits_pushValue {t : Token} {w : Workspace} {a : Profile} (ht : plain → t.Plain)
    (h : w.Fits plain a) :
    Workspace.Fits plain { w with values := pushValue t w.values } (t.kind.profile.atop a) := by
  unfold pushValue TokenKind.profile
  split
  · exact ⟨h.nodes, h.exprs, h.identifiers.push trivial, h.types, h.ints, h.unit⟩
  · cases hliteral : t.kind.literalKind? with
    | none =>
        rw [if_neg (by simp), Profile.empty_atop]
        exact h
    | some kind =>
        rw [if_pos Option.isSome_some]
        refine ⟨h.nodes, h.exprs.push ?_, h.identifiers, h.types, h.ints, h.unit⟩
        -- only the text of a string is ever cut
        rintro hplain rfl
        refine (ht hplain).literal ?_
        generalize t.kind = tokenKind at hliteral
        cases tokenKind <;> first | rfl | cases hliteral

theorem balanced_afterShift {state target : Nat} {below : List Nat} {t : Token}
    {rest : List Token} (h : m.Balanced plain) (hstates : m.states = state :: below)
    (ht : plain → t.Plain) (haction : Language.tables.action state t.kind = .shift target) :
    (m.afterShift p t rest target).Balanced plain := by
  obtain ⟨symbols, hspells, hspans, hfits⟩ := h
  rw [hstates] at hspells
  have hshift := hspells.shift Language.wellFormed_grammar Language.startIsolated_grammar haction
  rw [← hstates] at hshift
  exact ⟨.terminal t.kind :: symbols, hshift, congrArg (· + 1) hspans, fits_pushValue ht hfits⟩

/-! ### Reducing -/

/-- A reduction in the table finds the right side of its rule spelled, in a place where the rule can
begin. -/
theorem exists_rule_of {P : Rule → Nat → List Symbol → Prop} (hP : Language.Traced P)
    {symbols : List Symbol} {state production : Nat} {below : List Nat} {kind : TokenKind}
    (h : Language.grammar.Spells m.states symbols) (hstates : m.states = state :: below)
    (haction : Language.tables.action state kind = .reduce production) :
    ∃ rule origin rest before target, Language.ruleArray[production]? = some rule ∧
      m.states.drop rule.rhs.length = origin :: rest ∧
      symbols = (rule.rhs.map RuleSymbol.symbol).reverse ++ before ∧
      Language.tables.goto? origin rule.lhs.index = some target ∧ P rule 0 before ∧
      Language.grammar.Spells (target :: origin :: rest)
        (.nonterminal rule.lhs.index :: before) := by
  rw [hstates] at h
  obtain ⟨produced, origin, rest, before, target, kernel, hp, hdrop, hsymbols, hgoto, hbefore, hk,
    hi, hafter⟩ := h.reduce Language.wellFormed_grammar Language.startIsolated_grammar haction
  rw [Language.productions_getElem?, Option.map_eq_some_iff] at hp
  obtain ⟨rule, hrule, rfl⟩ := hp
  have hlength : rule.production.rhs.length = rule.rhs.length := List.length_map ..
  rw [hlength, ← hstates] at hdrop
  exact ⟨rule, origin, rest, before, target, hrule, hdrop, hsymbols, hgoto,
    hP.of_spells hbefore hk hi hrule, hafter⟩

/-- There the declaration that the rule changes is on top. -/
theorem exists_rule {symbols : List Symbol} {state production : Nat} {below : List Nat}
    {kind : TokenKind} (h : Language.grammar.Spells m.states symbols)
    (hstates : m.states = state :: below)
    (haction : Language.tables.action state kind = .reduce production) :
    ∃ rule origin rest before target, Language.ruleArray[production]? = some rule ∧
      m.states.drop rule.rhs.length = origin :: rest ∧
      symbols = (rule.rhs.map RuleSymbol.symbol).reverse ++ before ∧
      Language.tables.goto? origin rule.lhs.index = some target ∧
      rule.lhs.context <+: (stackProfile before).nodes ∧
      Language.grammar.Spells (target :: origin :: rest)
        (.nonterminal rule.lhs.index :: before) :=
  exists_rule_of Language.traced_stands h hstates haction

theorem arity_handle (lookahead : Span) {arity origin : Nat} {rest : List Nat}
    (hspans : m.spans.length = m.states.length) (hdrop : m.states.drop arity = origin :: rest) :
    (m.handle arity lookahead).arity = arity := by
  have hlength := congrArg List.length hdrop
  simp only [List.length_drop, List.length_cons] at hlength
  unfold handle Handle.arity
  rw [List.length_reverse, List.length_take, hspans]
  omega

/-- What the action finds: the values of the right side on top of those below. -/
theorem fits_popped {rhs : List RuleSymbol} {before : List Symbol} (arity production : Nat)
    (h : m.work.Fits plain (stackProfile ((rhs.map RuleSymbol.symbol).reverse ++ before))) :
    (m.popped arity production).work.Fits plain
      ((stackProfile before).followed (rhs.map RuleSymbol.profile)) := by
  rw [← stackProfile_reverse_append]
  exact ⟨h.nodes, h.exprs, h.identifiers, h.types, h.ints, h.unit⟩

/-- A reduction in the table succeeds, and keeps the balance. -/
theorem ensures_reduce (dialect : Dialect) (lookahead : Span) {state production : Nat}
    {below : List Nat} {kind : TokenKind} (h : m.Balanced plain)
    (hstates : m.states = state :: below)
    (haction : Language.tables.action state kind = .reduce production) :
    Ensures plain m (reduce dialect production lookahead) fun _ m' =>
      m'.Balanced plain ∧ m'.rest = m.rest := by
  obtain ⟨symbols, hspells, hspans, hfits⟩ := h
  obtain ⟨rule, origin, rest, before, target, hrule, hdrop, rfl, hgoto, hcontext, hafter⟩ :=
    exists_rule hspells hstates haction
  have harity := arity_handle lookahead hspans hdrop
  have hpopped := fits_popped rule.rhs.length production hfits
  have hact := Work.ensures_act dialect (Language.mem_rules hrule) harity hcontext hpopped
  unfold Work.Ensures at hact
  unfold Ensures
  rw [reduce_eq hrule hdrop hgoto]
  cases hwork : Work.act dialect (m.handle rule.rhs.length lookahead) rule.action
      (m.popped rule.rhs.length production).work with
  | error e w =>
      rw [hwork] at hact
      obtain ⟨hplain, text, rfl⟩ := hact
      exact .inr ⟨hplain, text, _, rfl⟩
  | ok u w =>
      rw [hwork] at hact
      refine .inl ⟨(), _, rfl, ⟨_, hafter, ?_, ?_⟩, rfl⟩
      · have hdropped := congrArg List.length hdrop
        simp only [List.length_cons, List.length_drop] at hdropped ⊢
        omega
      · change w.Fits plain ((Symbol.profile (.nonterminal rule.lhs.index)).atop _)
        rw [rule.lhs.profile_index]
        exact hact

/-! ### Repairing -/

theorem Fed.recover {t : Token} {rest : List Token} (h : m.Fed promise)
    (hrest : m.rest = t :: rest) (hrunning : (recover p t m).1 = .running) :
    (Machine.recover p t m).2.Fed promise := by
  refine ⟨endsInEof_recover hrest h.endsInEof hrunning, fun u hu => ?_⟩
  rcases mem_rest_recover hu with hold | ⟨kind, place, hkind, rfl⟩
  · exact h.meets u hold
  · exact Token.meets_inserted hkind place

theorem leads_recover {t : Token} {rest : List Token} (h : Leads promise .running m)
    (hrest : m.rest = t :: rest) : Leads promise (recover p t m).1 (recover p t m).2 := by
  have hbalanced := h.1.of_keeps (keeps_recover p t m)
  cases hprogress : (recover p t m).1 with
  | running => exact ⟨hbalanced, h.2.recover hrest hprogress⟩
  | accepted => exact absurd hprogress (recover_ne_accepted p t m)
  | abandoned => exact hbalanced

/-! ### Splitting -/

theorem Fed.tail {t : Token} {rest : List Token} (h : m.Fed promise) (hrest : m.rest = t :: rest)
    (ht : t.kind ≠ .eof) : Fed promise { m with rest } := by
  refine ⟨h.endsInEof.tail hrest ht, fun u hu => h.meets u ?_⟩
  rw [hrest]
  exact List.mem_cons_of_mem t hu

theorem Fed.cons {t : Token} (h : m.Fed promise) (ht : t.Meets promise) :
    Fed promise { m with rest := t :: m.rest } := by
  obtain ⟨⟨front, last, hlast, heof⟩, hmeets⟩ := h
  exact ⟨⟨t :: front, last, congrArg (t :: ·) hlast, heof⟩, List.forall_mem_cons.mpr ⟨ht, hmeets⟩⟩

theorem Fed.first {t : Token} {rest : List Token} (h : m.Fed promise)
    (hrest : m.rest = t :: rest) : t.Meets promise := by
  refine h.meets t ?_
  rw [hrest]
  exact List.mem_cons_self

theorem Fed.split {t first second : Token} {rest : List Token} (h : m.Fed promise)
    (hrest : m.rest = t :: rest) (hsplit : t.split = .halves first second) :
    Fed promise { m with rest := first :: second :: rest } := by
  have ht : t.kind ≠ .eof := by
    intro hkind
    obtain ⟨_, _, hkinds, _⟩ := Token.of_split_halves hsplit
    rw [hkind] at hkinds
    cases hkinds
  obtain ⟨hfirst, hsecond⟩ := (h.first hrest).halves hsplit
  exact ((h.tail hrest ht).cons hsecond).cons hfirst

/-! ### Accepting -/

theorem complete_of_fits (h : m.work.Fits plain { unit := true }) : m.Complete := by
  refine ⟨h.unit rfl, ?_⟩
  have hints : m.work.values.ints.length = 0 := h.ints
  unfold ValueStacks.depths
  rw [h.nodes.eq_empty, h.exprs.eq_empty, h.identifiers.eq_empty, h.types.eq_empty, hints]
  rfl

theorem complete_of_accept {state : Nat} {below : List Nat} {kind : TokenKind}
    (h : m.Balanced plain) (hstates : m.states = state :: below)
    (haction : Language.tables.action state kind = .accept) : m.Complete := by
  obtain ⟨symbols, hspells, _, hfits⟩ := h
  rw [hstates] at hspells
  have hsymbols :=
    (hspells.accept Language.wellFormed_grammar Language.startIsolated_grammar haction).2
  have hgoal : Language.grammar.productions[0]? =
      some ⟨Nonterminal.goal.index, [.nonterminal Nonterminal.compilationUnit.index]⟩ := by
    rw [Language.productions_getElem?, Language.ruleArray_zero]
    rfl
  rw [hsymbols, Grammar.rhsOf_eq hgoal, List.reverse_singleton] at hfits
  exact complete_of_fits hfits

/-! ### Steps and runs -/

/-- **A step keeps the balance.** -/
theorem leads_step (p : ParserSetup) (h : Leads promise .running m) :
    Proceeds promise m (step p) := by
  obtain ⟨⟨symbols, hholds⟩, hfed⟩ := h
  obtain ⟨state, below, hstates⟩ := List.exists_cons_of_ne_nil hholds.spells.ne_nil
  obtain ⟨t, rest, hrest⟩ : ∃ t rest, m.rest = t :: rest := by
    obtain ⟨front, last, hlast, _⟩ := hfed.endsInEof
    exact List.exists_cons_of_ne_nil (by simp [hlast])
  have h : m.Balanced promise.plain := ⟨symbols, hholds⟩
  unfold Proceeds
  rw [step_eq hstates hrest]
  cases haction : Language.tables.action state t.kind with
  | shift target =>
      have ht := hholds.spells
      rw [hstates] at ht
      have heof := ht.shift_ne_eof Language.wellFormed_grammar Language.startIsolated_grammar
        Language.lacksEof_grammar haction
      have hshifted : (m.afterShift p t rest target).Fed promise :=
        ⟨(hfed.tail hrest heof).endsInEof, (hfed.tail hrest heof).meets⟩
      exact .inl ⟨_, _, rfl, balanced_afterShift h hstates (hfed.first hrest).plain haction,
        hshifted⟩
  | reduce production =>
      rcases ensures_reduce p.dialect t.span h hstates haction with
        ⟨_, m', hreduce, hbalanced, hsame⟩ | ⟨hplain, text, m', hreduce⟩
      · dsimp only
        rw [hreduce]
        refine .inl ⟨_, _, rfl, hbalanced, ?_, ?_⟩
        · unfold EndsInEof
          rw [hsame]
          exact hfed.endsInEof
        · rw [hsame]
          exact hfed.meets
      · dsimp only
        rw [hreduce]
        exact .inr ⟨.brokenText text, m', hplain, rfl⟩
  | accept => exact .inl ⟨_, _, rfl, complete_of_accept h hstates haction⟩
  | error =>
      dsimp only
      have hrecover := leads_recover (p := p) ⟨h, hfed⟩ hrest
      split
      · exact .inl ⟨_, _, rfl, hrecover⟩
      · cases hsplit : t.split with
        | whole => exact .inl ⟨_, _, rfl, hrecover⟩
        | halves first second => exact .inl ⟨_, _, rfl, ⟨symbols, hholds.spells, hholds.spans,
            hholds.fits⟩, hfed.split hrest hsplit⟩
        | crashes reason => exact .inr ⟨reason, m, (hfed.first hrest).admits hsplit, rfl⟩

/-- So many steps, each of which leaves the machine running, lead to another machine. -/
inductive Walks (p : ParserSetup) : Nat → Machine → Machine → Prop
  | zero {m : Machine} : Walks p 0 m m
  | succ {n : Nat} {m m' last : Machine} : step p m = .ok .running m' → Walks p n m' last →
      Walks p (n + 1) m last

/-- A run goes on from every machine on its way. -/
theorem Walks.run_add {n : Nat} (limit gas : Nat) (h : Walks p n m m') :
    run p limit (gas + n) m = run p limit gas m' := by
  induction h with
  | zero => rfl
  | succ hstep _ ih =>
      rw [← Nat.add_assoc, run_succ, hstep]
      exact ih

theorem run_of_walks {gas : Nat} (limit : Nat) (h : Walks p gas m m') :
    run p limit gas m = .error (.outOfGas limit) m' := by
  rw [← Nat.zero_add gas, h.run_add]
  rfl

/-- A run ends where steps lead to a machine that accepts or gives the unit up. -/
theorem run_of_walks_ok {n gas : Nat} {progress : Progress} {last : Machine} (h : Walks p n m m')
    (hstep : step p m' = .ok progress last) (hstops : progress ≠ .running) (hgas : n < gas)
    (limit : Nat) : run p limit gas m = .ok progress last := by
  obtain ⟨left, rfl⟩ := Nat.exists_eq_add_of_lt hgas
  rw [Nat.add_assoc, Nat.add_comm, h.run_add, run_succ, hstep]
  cases progress with
  | running => exact absurd rfl hstops
  | accepted | abandoned => rfl

/-- A run ends where steps lead to a machine whose next step fails. -/
theorem run_of_walks_error {n gas : Nat} {e : Fault} {last : Machine} (h : Walks p n m m')
    (hstep : step p m' = .error e last) (hgas : n < gas) (limit : Nat) :
    run p limit gas m = .error e last := by
  obtain ⟨left, rfl⟩ := Nat.exists_eq_add_of_lt hgas
  rw [Nat.add_assoc, Nat.add_comm, h.run_add, run_succ, hstep]

/-- **A run keeps the balance**: it ends well, or its steps do not suffice. -/
theorem leads_run (p : ParserSetup) (limit gas : Nat) (h : Leads promise .running m) :
    Proceeds promise m (run p limit gas) ∨ ∃ m', Walks p gas m m' := by
  induction gas generalizing m with
  | zero => exact .inr ⟨m, .zero⟩
  | succ gas ih =>
      unfold Proceeds
      rw [run_succ]
      rcases leads_step p h with ⟨progress, m', hstep, hleads⟩ | ⟨reason, m', hadmits, hstep⟩
      · rw [hstep]
        cases progress with
        | running =>
            rcases ih hleads with hrun | ⟨last, hwalks⟩
            · exact .inl hrun
            · exact .inr ⟨last, .succ hstep hwalks⟩
        | accepted => exact .inl (.inl ⟨_, _, rfl, hleads⟩)
        | abandoned => exact .inl (.inl ⟨_, _, rfl, hleads⟩)
      · rw [hstep]
        exact .inl (.inr ⟨reason, m', hadmits, rfl⟩)

theorem leads_of_step {p : ParserSetup} {progress : Progress} (h : Leads promise .running m)
    (hstep : step p m = .ok progress m') : Leads promise progress m' := by
  rcases leads_step p h with ⟨_, _, hok, hleads⟩ | ⟨_, _, _, hcrash⟩
  · rw [hstep] at hok
    cases hok
    exact hleads
  · rw [hstep] at hcrash
    cases hcrash

/-- What steps keep is kept by a run. -/
theorem run_keeps {P : Machine → Prop} {p : ParserSetup} {limit gas : Nat} {progress : Progress}
    (hkeeps : ∀ (m m' : Machine) (progress : Progress), P m → m.Balanced promise.plain →
      step p m = .ok progress m' → P m')
    (h : P m) (hleads : Leads promise .running m)
    (hrun : run p limit gas m = .ok progress m') : P m' := by
  induction gas generalizing m with
  | zero => cases hrun
  | succ gas ih =>
      rw [run_succ] at hrun
      cases hstep : step p m with
      | error e last =>
          rw [hstep] at hrun
          cases hrun
      | ok next last =>
          rw [hstep] at hrun
          have hlast := hkeeps m last next h hleads.1 hstep
          cases next with
          | running => exact ih hlast (leads_of_step hleads hstep) hrun
          | accepted | abandoned =>
              cases hrun
              exact hlast

/-- What steps keep is kept as long as the machine runs, and so is the balance. -/
theorem Walks.keeps {P : Machine → Prop} {p : ParserSetup} {n : Nat}
    (hkeeps : ∀ (m m' : Machine) (progress : Progress), P m → m.Balanced promise.plain →
      step p m = .ok progress m' → P m')
    (hwalks : Walks p n m m') (h : P m) (hleads : Leads promise .running m) :
    P m' ∧ Leads promise .running m' := by
  induction hwalks with
  | zero => exact ⟨h, hleads⟩
  | succ hstep _ ih =>
      exact ih (hkeeps _ _ _ h hleads.1 hstep) (leads_of_step hleads hstep)

/-- A run that ends goes on from every machine on its way. -/
theorem Walks.exists_run {p : ParserSetup} {limit gas n : Nat} {progress : Progress} {last : Machine}
    (hwalks : Walks p n m m') (hrun : run p limit gas m = .ok progress last) :
    ∃ left, run p limit left m' = .ok progress last := by
  induction hwalks generalizing gas with
  | zero => exact ⟨gas, hrun⟩
  | succ hstep _ ih =>
      cases gas with
      | zero => cases hrun
      | succ gas =>
          rw [run_succ, hstep] at hrun
          exact ih hrun

theorem action_of_pending? {production : Nat} (h : m.pending? = some production) :
    ∃ state below, m.states = state :: below ∧
      Language.tables.action state .rBrace = .reduce production := by
  obtain ⟨state, hstate, hpending⟩ := Option.bind_eq_some_iff.mp h
  obtain ⟨below, hstates⟩ := List.head?_eq_some_iff.mp hstate
  refine ⟨state, below, hstates, ?_⟩
  split at hpending
  · rename_i haction
    rw [haction, Option.some.inj hpending]
  · cases hpending

theorem attempt_of_ok {a : Step Unit} (h : a m = .ok () m') : attempt a m = .ok true m' := by
  unfold attempt
  rw [h]

theorem attempt_of_crash {a : Step Unit} {reason : Crash}
    (h : a m = .error (.crash reason) m') : attempt a m = .error (.crash reason) m' := by
  unfold attempt
  rw [h]
  rfl

/-- The reductions that only waited for a token succeed too. -/
theorem ensures_settle (dialect : Dialect) (offset gas : Nat) (h : m.Balanced plain) :
    Ensures plain m (settle dialect offset gas) fun _ m' => m'.Balanced plain := by
  induction gas generalizing m with
  | zero => exact .inl ⟨(), m, rfl, h⟩
  | succ gas ih =>
      unfold Ensures
      rw [settle, get_bind]
      cases hpending : m.pending? with
      | none => exact .inl ⟨(), m, rfl, h⟩
      | some production =>
          obtain ⟨state, below, hstates, haction⟩ := action_of_pending? hpending
          dsimp only
          rcases ensures_reduce dialect (.point offset) h hstates haction with
            ⟨_, m', hreduce, hbalanced, _⟩ | ⟨hplain, text, m', hreduce⟩
          · rw [bind_ok (attempt_of_ok hreduce), if_pos rfl]
            exact ih hbalanced
          · rw [bind_error (attempt_of_crash hreduce)]
            exact .inr ⟨hplain, text, m', rfl⟩

/-- What reductions keep is kept by those that only waited for a token; of these none fails. -/
theorem settle_keeps {P : Machine → Prop} {dialect : Dialect} {offset gas : Nat}
    (hkeeps : ∀ (m m' : Machine) (state production : Nat) (below : List Nat), P m →
      m.Balanced False → m.states = state :: below →
      Language.tables.action state .rBrace = .reduce production →
      reduce dialect production (.point offset) m = .ok () m' → P m')
    (h : P m) (hbalanced : m.Balanced False) (hsettle : settle dialect offset gas m = .ok () m') :
    P m' := by
  induction gas generalizing m with
  | zero =>
      cases hsettle
      exact h
  | succ gas ih =>
      rw [settle, get_bind] at hsettle
      cases hpending : m.pending? with
      | none =>
          rw [hpending] at hsettle
          cases hsettle
          exact h
      | some production =>
          rw [hpending] at hsettle
          dsimp only at hsettle
          obtain ⟨state, below, hstates, haction⟩ := action_of_pending? hpending
          rcases ensures_reduce dialect (.point offset) hbalanced hstates haction with
            ⟨_, next, hreduce, hnext, _⟩ | ⟨_, text, last, hreduce⟩
          · rw [bind_ok (attempt_of_ok hreduce), if_pos rfl] at hsettle
            exact ih (hkeeps m next state production below h hbalanced hstates haction hreduce)
              hnext hsettle
          · rw [bind_error (attempt_of_crash hreduce)] at hsettle
            cases hsettle

end Machine

/-! ### The main theorem -/

/-- What the tokens of a stream promise. -/
def TokenStream.promise (stream : TokenStream) : Promise where
  plain := ∀ t ∈ stream.tokens, t.Plain
  low := ∀ t ∈ stream.tokens, t.SplitsBelow UInt64.size

theorem TokenStream.meets_promise {stream : TokenStream} {t : Token} (ht : t ∈ stream.tokens) :
    t.Meets stream.promise :=
  ⟨fun hplain => hplain t ht, fun hlow => hlow t ht⟩

namespace Parser

variable {promise : Promise} (p : Parser) (stream : TokenStream)

theorem balanced_start {plain : Prop} : (p.start stream).Balanced plain :=
  ⟨[], .start, rfl, .empty, .empty, .empty, .empty, rfl, nofun⟩

theorem leads_start (h : ∀ t ∈ stream.tokens, t.Meets promise) :
    Machine.Leads promise .running (p.start stream) := by
  refine ⟨p.balanced_start stream, ⟨stream.tokens, Token.eof stream.endOffset, rfl, rfl⟩,
    fun t ht => ?_⟩
  rcases List.mem_append.mp ht with ht | ht
  · exact h t ht
  · obtain rfl := List.mem_singleton.mp ht
    exact Token.meets_eof _

/-- At the start nothing has to be promised. -/
theorem leads_start_nothing : Machine.Leads .nothing .running (p.start stream) :=
  p.leads_start stream fun _ _ => ⟨False.elim, False.elim⟩

variable {p stream}

theorem finishAccepted_of_complete {m : Machine} {length : Nat} (h : m.Complete) :
    ∃ o m', finishAccepted length m = .ok o m' := by
  obtain ⟨unit, hunit⟩ := Option.isSome_iff_exists.mp h.unit
  unfold finishAccepted
  rw [hunit]
  exact ⟨_, _, if_pos h.depths⟩

theorem finishAbandoned_of_balanced {plain : Prop} {m : Machine} {dialect : Dialect} {length : Nat}
    (h : m.Balanced plain) : (∃ o m', finishAbandoned dialect length m = .ok o m') ∨
      ¬ plain ∧ ∃ text m', finishAbandoned dialect length m =
        .error (.crash (.brokenText text)) m' := by
  unfold finishAbandoned
  rcases Machine.ensures_settle dialect length stepLimit h with
    ⟨_, m', hsettle, _⟩ | ⟨hplain, text, m', hsettle⟩
  · rw [hsettle]
    exact .inl ⟨_, _, rfl⟩
  · rw [hsettle]
    exact .inr ⟨hplain, text, m', rfl⟩

theorem finish_of_leads {m : Machine} {dialect : Dialect} {length : Nat} {progress : Progress}
    (h : Machine.Leads promise progress m) (hne : progress ≠ .running) :
    (∃ o m', finish dialect length progress m = .ok o m') ∨
      ∃ reason m', promise.Admits reason ∧
        finish dialect length progress m = .error (.crash reason) m' := by
  cases progress with
  | running => exact absurd rfl hne
  | accepted => exact .inl (finishAccepted_of_complete h)
  | abandoned =>
      rcases finishAbandoned_of_balanced h with hok | ⟨hplain, text, m', hfinish⟩
      · exact .inl hok
      · exact .inr ⟨.brokenText text, m', hplain, hfinish⟩

/-- What the balance of the stacks comes to at the end of a run. -/
theorem leads_of_run {m : Machine} {progress : Progress} {gas bound : Nat}
    (hrun : Machine.run p.setup bound gas (p.start stream) = .ok progress m) :
    Machine.Leads .nothing progress m := by
  rcases Machine.leads_run p.setup bound gas (p.leads_start_nothing stream) with
    (⟨_, _, hok, hleads⟩ | ⟨_, _, _, hcrash⟩) | ⟨_, hwalks⟩
  · rw [hrun] at hok
    cases hok
    exact hleads
  · rw [hrun] at hcrash
    cases hcrash
  · rw [Machine.run_of_walks bound hwalks] at hrun
    cases hrun

theorem parseStream_of_error {e : Fault} {m : Machine}
    (hrun : Machine.run p.setup stepLimit stepLimit (p.start stream) = .error e m) :
    (p.parseStream stream).1 = .error e := by
  unfold parseStream
  rw [hrun]

theorem parseStream_of_finish_ok {progress : Progress} {m m' : Machine} {o : ParseOutcome}
    (hrun : Machine.run p.setup stepLimit stepLimit (p.start stream) = .ok progress m)
    (hfinish : finish p.setup.dialect stream.endOffset progress m = .ok o m') :
    p.parseStream stream = (.ok o, p.close m') := by
  unfold parseStream
  simp only [hrun, hfinish]

theorem parseStream_of_finish_error {progress : Progress} {m m' : Machine} {e : Fault}
    (hrun : Machine.run p.setup stepLimit stepLimit (p.start stream) = .ok progress m)
    (hfinish : finish p.setup.dialect stream.endOffset progress m = .error e m') :
    (p.parseStream stream).1 = .error e := by
  unfold parseStream
  simp only [hrun, hfinish]

/-- More steps than allowed are the end of a unit. -/
theorem parseStream_of_walks {m : Machine}
    (h : Machine.Walks p.setup stepLimit (p.start stream) m) :
    (p.parseStream stream).1 = .error (.outOfGas stepLimit) :=
  parseStream_of_error (Machine.run_of_walks stepLimit h)

variable (p stream)

/-- The three ways in which a unit can end. -/
theorem parseStream_cases :
    (∃ o m, p.parseStream stream = (.ok o, p.close m)) ∨
      (∃ m, Machine.Walks p.setup stepLimit (p.start stream) m) ∨
      ∃ reason, stream.promise.Admits reason ∧
        (p.parseStream stream).1 = .error (.crash reason) := by
  have hstart := p.leads_start stream fun _ ht => TokenStream.meets_promise ht
  rcases Machine.leads_run p.setup stepLimit stepLimit hstart with
    (⟨progress, m, hrun, hleads⟩ | ⟨reason, m, hadmits, hrun⟩) | hwalks
  · rcases finish_of_leads hleads (Machine.run_ne_running hrun) with
      ⟨o, left, hfinish⟩ | ⟨reason, _, hadmits, hfinish⟩
    · exact .inl ⟨o, left, parseStream_of_finish_ok hrun hfinish⟩
    · exact .inr (.inr ⟨reason, hadmits, parseStream_of_finish_error hrun hfinish⟩)
  · exact .inr (.inr ⟨reason, hadmits, parseStream_of_error hrun⟩)
  · exact .inr (.inl hwalks)

/-- A unit only crashes as what its tokens promise admits. -/
theorem admits_of_crash {reason : Crash} (h : (p.parseStream stream).1 = .error (.crash reason)) :
    stream.promise.Admits reason := by
  rcases p.parseStream_cases stream with ⟨o, m, hok⟩ | ⟨m, hwalks⟩ | ⟨_, hadmits, hcrash⟩
  · rw [hok] at h
    cases h
  · rw [parseStream_of_walks hwalks] at h
    cases h
  · rw [h] at hcrash
    cases hcrash
    exact hadmits

/-- **A text does not crash the parser**, unless it is as long as a machine word. -/
theorem parse_ne_crash (source : String) (hsize : Text.byteSize source.toList + 2 ≤ UInt64.size)
    (reason : Crash) : (p.parse source).1 ≠ .error (.crash reason) := fun hcrash =>
  Promise.not_admits (fun _ ht => Scanner.plain_of_mem ht)
    (fun t ht => ((Scanner.inWord_stream hsize).tokens t ht).splitsBelow) reason
    (p.admits_of_crash _ hcrash)

end Parser

end AspectLang
