import AspectLang.Parse.Machine
import AspectLang.Proofs.Automaton.ViablePrefix

/-! # What a step of the machine does

`Machine.reduce` and `Machine.step` are rewritten as plain case distinctions (`reduce_eq`,
`step_eq`), and repairs are shown to leave stacks and values alone (`recover_keeps`).  The grammar
of the language satisfies what the theory of its tables asks for. -/

namespace AspectLang

/-! ### The grammar of the language -/

namespace Language

theorem productions_getElem? (p : Nat) :
    grammar.productions[p]? = (ruleArray[p]?).map Rule.production := by
  unfold grammar ruleArray
  simp

theorem ruleArray_zero : ruleArray[0]? = some ⟨.goal, [.n .compilationUnit], .none⟩ := by
  unfold ruleArray
  rw [List.getElem?_toArray]
  rfl

theorem rules_hasSymbol : ∀ r ∈ rules, r.lhs.index < Nonterminal.all.length ∧
    ∀ s ∈ r.rhs, grammar.HasSymbol s.symbol := by
  decide +kernel

theorem rules_lackEof : ∀ r ∈ rules, RuleSymbol.t .eof ∉ r.rhs := by
  decide +kernel

theorem rules_isolateStart : ∀ r ∈ rules, Symbol.nonterminal Nonterminal.goal.index ∉
    r.rhs.map RuleSymbol.symbol := by
  decide +kernel

theorem wellFormed_grammar : grammar.WellFormed where
  nonempty := by decide +kernel
  lhs_lt := by
    intro production hmem
    obtain ⟨r, hr, rfl⟩ := List.mem_map.mp (List.mem_toArray.mp hmem)
    simpa [grammar, Rule.production] using (rules_hasSymbol r hr).1
  hasSymbol := by
    intro production hmem s hs
    obtain ⟨r, hr, rfl⟩ := List.mem_map.mp (List.mem_toArray.mp hmem)
    obtain ⟨symbol, hsymbol, rfl⟩ := List.mem_map.mp hs
    exact (rules_hasSymbol r hr).2 symbol hsymbol

theorem startIsolated_grammar : grammar.StartIsolated := by
  intro start hstart production hmem
  obtain ⟨r, hr, rfl⟩ := List.mem_map.mp (List.mem_toArray.mp hmem)
  rw [productions_getElem?, ruleArray_zero, Option.map_some, Option.some.injEq] at hstart
  subst hstart
  exact rules_isolateStart r hr

theorem lacksEof_grammar : grammar.LacksEof := by
  intro production hmem hs
  obtain ⟨r, hr, rfl⟩ := List.mem_map.mp (List.mem_toArray.mp hmem)
  obtain ⟨symbol, hsymbol, heq⟩ := List.mem_map.mp hs
  cases symbol with
  | t kind =>
      obtain rfl : kind = .eof := Symbol.terminal.inj heq
      exact rules_lackEof r hr hsymbol
  | n nonterminal => cases heq

end Language

namespace Machine

variable {p : ParserSetup} {m m' : Machine}

/-! ### Steps in a row -/

section

variable {α β : Type} {x : Step α} {f : α → Step β}

theorem bind_ok {a : α} (h : x m = .ok a m') : (x >>= f) m = f a m' := by
  change EStateM.bind x f m = f a m'
  unfold EStateM.bind
  rw [h]

theorem bind_error {e : Fault} (h : x m = .error e m') : (x >>= f) m = .error e m' := by
  change EStateM.bind x f m = .error e m'
  unfold EStateM.bind
  rw [h]

theorem get_bind (f : Machine → Step β) : (get >>= f) m = f m m := rfl

theorem modify_bind (change : Machine → Machine) (f : Unit → Step β) :
    (modify change >>= f) m = f () (change m) := rfl

theorem modifyGet_eq (change : Machine → β × Machine) :
    (modifyGet change : Step β) m = .ok (change m).1 (change m).2 := rfl

end

theorem stateOnTop_of_cons {state : Nat} {below : List Nat} (h : m.states = state :: below) :
    stateOnTop m = .ok state m := by
  unfold stateOnTop
  rw [get_bind, h]
  rfl

theorem onWork_ok {work : Work Unit} {w : Workspace} (h : work m.work = .ok () w) :
    onWork work m = .ok () { m with work := w } := by
  unfold onWork
  rw [h]

theorem onWork_error {work : Work Unit} {e : Fault} {w : Workspace}
    (h : work m.work = .error e w) : onWork work m = .error e { m with work := w } := by
  unfold onWork
  rw [h]

/-! ### Reducing -/

/-- The machine after the right side of a production was taken off. -/
def popped (arity production : Nat) (m : Machine) : Machine :=
  { m with
    states := m.states.drop arity
    spans := m.spans.drop arity
    production
    work.values := m.work.values.begin production }

/-- What the action of a rule is told. -/
def handle (arity : Nat) (lookahead : Span) (m : Machine) : Handle :=
  ⟨(m.spans.take arity).reverse, lookahead⟩

theorem reduce_eq {dialect : Dialect} {production : Nat} {lookahead : Span} {rule : Rule}
    (hrule : Language.ruleArray[production]? = some rule) {top : Nat} {below : List Nat}
    (hstates : m.states.drop rule.rhs.length = top :: below) {target : Nat}
    (hgoto : Language.tables.goto? top rule.lhs.index = some target) :
    reduce dialect production lookahead m =
      match Work.act dialect (m.handle rule.rhs.length lookahead) rule.action
        (m.popped rule.rhs.length production).work with
      | .error e w => .error e { m.popped rule.rhs.length production with work := w }
      | .ok _ w => .ok () { m.popped rule.rhs.length production with
          states := target :: top :: below
          spans := (m.handle rule.rhs.length lookahead).whole? :: m.spans.drop rule.rhs.length
          work := w } := by
  have hlength : ¬ m.states.length ≤ rule.rhs.length := by
    intro hle
    rw [List.drop_eq_nil_of_le hle] at hstates
    cases hstates
  have hpop : popSymbols rule.rhs.length m = .ok (m.spans.take rule.rhs.length).reverse
      { m with states := m.states.drop rule.rhs.length, spans := m.spans.drop rule.rhs.length } :=
    rfl
  unfold reduce
  simp only [hrule]
  rw [get_bind, if_neg hlength, bind_ok hpop, modify_bind]
  change (onWork (Work.act dialect (m.handle rule.rhs.length lookahead) rule.action) >>= _)
    (m.popped rule.rhs.length production) = _
  cases hact : Work.act dialect (m.handle rule.rhs.length lookahead) rule.action
      (m.popped rule.rhs.length production).work with
  | error e w => exact bind_error (onWork_error hact)
  | ok u w =>
      rw [bind_ok (onWork_ok hact), bind_ok (stateOnTop_of_cons hstates)]
      simp only [hgoto]
      change EStateM.Result.ok _ _ = _
      dsimp only [popped]
      rw [hstates]
      rfl

/-! ### Repairing -/

/-- What repairs leave alone: the stacks and the values, and whether a construct was reported. -/
structure Keeps (m m' : Machine) : Prop where
  states : m'.states = m.states
  spans : m'.spans = m.spans
  values : m'.work.values = m.work.values
  unit : m'.work.unit = m.work.unit
  reported : m'.work.unavailableReported = m.work.unavailableReported

/-- The tokens that are left end with the end of input. -/
def EndsInEof (m : Machine) : Prop := ∃ front last, m.rest = front ++ [last] ∧ last.kind = .eof

theorem EndsInEof.tail {t : Token} {rest : List Token} (h : m.EndsInEof) (hrest : m.rest = t :: rest)
    (ht : t.kind ≠ .eof) : ∃ front last, rest = front ++ [last] ∧ last.kind = .eof := by
  obtain ⟨front, last, hlast, heof⟩ := h
  rw [hrest] at hlast
  cases front with
  | nil =>
      obtain ⟨rfl, _⟩ := List.cons.inj hlast
      exact absurd heof ht
  | cons u front => exact ⟨front, last, (List.cons.inj hlast).2, heof⟩

theorem keeps_passOver (maxFailures : Nat) (t : Token) (m : Machine) :
    m.Keeps (m.passOver maxFailures t).2 := by
  unfold passOver
  dsimp only
  split
  · exact ⟨rfl, rfl, rfl, rfl, rfl⟩
  · split
    · exact ⟨rfl, rfl, rfl, rfl, rfl⟩
    · exact ⟨rfl, rfl, rfl, rfl, rfl⟩

theorem keeps_recover (p : ParserSetup) (t : Token) (m : Machine) :
    m.Keeps (recover p t m).2 := by
  unfold recover
  split
  · exact ⟨rfl, rfl, rfl, rfl, rfl⟩
  · split
    · exact ⟨rfl, rfl, rfl, rfl, rfl⟩
    · split
      · exact ⟨rfl, rfl, rfl, rfl, rfl⟩
      · dsimp only
        split
        · exact ⟨rfl, rfl, rfl, rfl, rfl⟩
        · exact ⟨rfl, rfl, rfl, rfl, rfl⟩
        · have h := keeps_passOver p.settings.maxRecoveryAttempts t
            { m with recovery.phase := .recovering }
          exact ⟨h.states, h.spans, h.values, h.unit, h.reported⟩

theorem endsInEof_insert (kinds : List TokenKind) (t : Token) (h : m.EndsInEof) :
    (m.insert kinds t).EndsInEof := by
  obtain ⟨inserted, hinserted⟩ : ∃ inserted, (m.insert kinds t).rest = inserted ++ m.rest :=
    ⟨_, rfl⟩
  obtain ⟨front, last, hlast, hk⟩ := h
  exact ⟨inserted ++ front, last, by rw [hinserted, hlast, List.append_assoc], hk⟩

/-- The end of input is never deleted. -/
theorem repair?_ne_delete {a : Automaton} {window : Nat} {states : List Nat}
    {kinds : List TokenKind} : a.repair? window states (.eof :: kinds) ≠ some .delete := by
  intro h
  unfold Automaton.repair? at h
  dsimp only at h
  split at h
  · cases h
  · rw [if_pos (List.head?_cons ..)] at h
    split at h <;> cases h

theorem passOver_ne_accepted (maxFailures : Nat) (t : Token) (m : Machine) :
    (m.passOver maxFailures t).1 ≠ .accepted := by
  unfold passOver
  dsimp only
  split
  · simp
  · split <;> simp

theorem recover_ne_accepted (p : ParserSetup) (t : Token) (m : Machine) :
    (recover p t m).1 ≠ .accepted := by
  unfold recover
  split
  · simp
  · split
    · simp
    · split
      · simp
      · dsimp only
        split
        · simp
        · simp
        · exact passOver_ne_accepted _ _ _

theorem endsInEof_passOver {maxFailures : Nat} {t : Token} {rest : List Token}
    (hrest : m.rest = t :: rest) (heof : m.EndsInEof)
    (hrunning : (m.passOver maxFailures t).1 = .running) :
    (m.passOver maxFailures t).2.EndsInEof := by
  unfold passOver at hrunning ⊢
  dsimp only at hrunning ⊢
  split at hrunning
  · cases hrunning
  · rename_i hkind
    rw [if_neg hkind]
    split at hrunning
    · cases hrunning
    · rename_i hfailures
      rw [if_neg hfailures]
      obtain ⟨front, last, hlast, hk⟩ := heof.tail hrest hkind
      refine ⟨front, last, ?_, hk⟩
      change m.rest.tail = _
      rw [hrest]
      exact hlast

/-- Where the machine goes on after a repair, its tokens still end. -/
theorem endsInEof_recover {t : Token} {rest : List Token} (hrest : m.rest = t :: rest)
    (heof : m.EndsInEof) (hrunning : (recover p t m).1 = .running) :
    (recover p t m).2.EndsInEof := by
  unfold recover at hrunning ⊢
  split at hrunning
  · cases hrunning
  · rename_i hphase
    rw [if_neg hphase]
    split at hrunning
    · cases hrunning
    · rename_i hbudget
      rw [if_neg hbudget]
      split at hrunning
      · cases hrunning
      · rename_i hallowed
        rw [if_neg hallowed]
        dsimp only at hrunning ⊢
        split at hrunning
        · exact endsInEof_insert _ t heof
        · rename_i hdelete
          rw [hrest, List.map_cons] at hdelete
          have hkind : t.kind ≠ .eof := by
            intro hkind
            rw [hkind] at hdelete
            exact repair?_ne_delete hdelete
          obtain ⟨front, last, hlast, hk⟩ := heof.tail hrest hkind
          refine ⟨front, last, ?_, hk⟩
          change m.rest.tail = _
          rw [hrest]
          exact hlast
        · exact endsInEof_passOver (m := { m with recovery.phase := .recovering }) hrest heof
            hrunning

/-! ### One step -/

-- Rewriting with this leaves the tables unevaluated where the branches mention them.
theorem match_rest_of_cons {β : Type} {t : Token} {rest : List Token} (h : m.rest = t :: rest)
    (b : β) (f : Token → List Token → β) :
    (match m.rest with
      | [] => b
      | t :: rest => f t rest) = f t rest := by
  rw [h]

/-- The machine after a token was shifted. -/
def afterShift (p : ParserSetup) (t : Token) (rest : List Token) (target : Nat) (m : Machine) :
    Machine :=
  { m.shift t target with
    previous := some t
    rest
    recovery := m.recovery.shifted p.settings.recoveryWindow }

theorem step_eq {state : Nat} {below : List Nat} {t : Token} {rest : List Token}
    (hstates : m.states = state :: below) (hrest : m.rest = t :: rest) :
    step p m = match Language.tables.action state t.kind with
      | .shift target => .ok .running (m.afterShift p t rest target)
      | .reduce production =>
        match reduce p.dialect production t.span m with
        | .ok _ m' => .ok .running m'
        | .error e m' => .error e m'
      | .accept => .ok .accepted m
      | .error =>
        if Language.tables.action state .gt = .error then
          .ok (recover p t m).1 (recover p t m).2
        else match t.split with
          | .whole => .ok (recover p t m).1 (recover p t m).2
          | .halves first second => .ok .running { m with rest := first :: second :: rest }
          | .crashes reason => .error (.crash reason) m := by
  unfold step
  rw [bind_ok (stateOnTop_of_cons hstates), get_bind]
  refine (congrFun (match_rest_of_cons hrest _ _) m).trans ?_
  cases Language.tables.action state t.kind with
  | shift target => rfl
  | accept => rfl
  | reduce production =>
      dsimp only
      cases hreduce : reduce p.dialect production t.span m with
      | ok u m' =>
          rw [bind_ok hreduce]
          rfl
      | error e m' => rw [bind_error hreduce]
  | error =>
      dsimp only
      split
      · rw [pure_bind, if_neg Bool.false_ne_true, modifyGet_eq]
      · cases hsplit : t.split with
        | whole =>
            have hfirst : splitFirst t m = .ok false m := by
              unfold splitFirst
              rw [hsplit]
              rfl
            rw [bind_ok hfirst, if_neg Bool.false_ne_true, modifyGet_eq]
        | crashes reason =>
            have hfirst : splitFirst t m = .error (.crash reason) m := by
              unfold splitFirst
              rw [hsplit]
              rfl
            rw [bind_error hfirst]
        | halves first second =>
            have hfirst : splitFirst t m =
                .ok true { m with rest := first :: second :: m.rest.tail } := by
              unfold splitFirst
              rw [hsplit]
              rfl
            rw [bind_ok hfirst, if_pos rfl, hrest]
            rfl

theorem step_of_no_tokens {state : Nat} {below : List Nat} (hstates : m.states = state :: below)
    (hrest : m.rest = []) :
    step p m = .error (.corruptTable "read past end of input") m := by
  unfold step
  rw [bind_ok (stateOnTop_of_cons hstates), get_bind, hrest]
  rfl

/-- What a step does in a state before a token, where it succeeds. -/
inductive Stepped (p : ParserSetup) (m : Machine) (state : Nat) (t : Token) (rest : List Token) :
    Progress → Machine → Prop
  | shift {target : Nat} : Language.tables.action state t.kind = .shift target →
      Stepped p m state t rest .running (m.afterShift p t rest target)
  | reduce {production : Nat} {m' : Machine} :
      Language.tables.action state t.kind = .reduce production →
        reduce p.dialect production t.span m = .ok () m' → Stepped p m state t rest .running m'
  | accept : Language.tables.action state t.kind = .accept → Stepped p m state t rest .accepted m
  | split {first second : Token} : Language.tables.action state t.kind = .error →
      t.split = .halves first second →
        Stepped p m state t rest .running { m with rest := first :: second :: rest }
  | repair : Language.tables.action state t.kind = .error →
      Stepped p m state t rest (recover p t m).1 (recover p t m).2

theorem stepped_of_step {state : Nat} {below : List Nat} {t : Token} {rest : List Token}
    {progress : Progress} (hstates : m.states = state :: below) (hrest : m.rest = t :: rest)
    (h : step p m = .ok progress m') : Stepped p m state t rest progress m' := by
  rw [step_eq hstates hrest] at h
  cases haction : Language.tables.action state t.kind with
  | shift target =>
      rw [haction] at h
      cases h
      exact .shift haction
  | accept =>
      rw [haction] at h
      cases h
      exact .accept haction
  | reduce production =>
      rw [haction] at h
      dsimp only at h
      split at h
      · rename_i hreduce
        cases h
        exact .reduce haction hreduce
      · cases h
  | error =>
      rw [haction] at h
      dsimp only at h
      split at h
      · cases h
        exact .repair haction
      · split at h
        · cases h
          exact .repair haction
        · rename_i hsplit
          cases h
          exact .split haction hsplit
        · cases h

/-- A token that is shifted leaves no node. -/
theorem nodes_pushValue (t : Token) (s : ValueStacks) : (pushValue t s).nodes = s.nodes := by
  unfold pushValue
  split
  · rfl
  · split <;> rfl

end Machine

end AspectLang
