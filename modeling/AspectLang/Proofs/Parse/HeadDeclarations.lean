import AspectLang.Proofs.Parse.ClosingTokens
import AspectLang.Proofs.Parse.Outcomes
import AspectLang.Proofs.Parse.Stages
import AspectLang.Proofs.Parse.TrialRuns
import AspectLang.Proofs.Token.Scanning

/-! # Packages and imports that wait

Behind its semicolon a declaration at the head of a unit waits for a token, and nothing at the head
of a unit is ever followed by a closing brace (`Language.not_looks_rBrace`).  So where the unit is
given up just there, the reductions that are done as if a brace followed do not reach the
declaration (`Machine.EndsHead.pending?`), and it is lost (`Parser.waiting_head_lost`).

A small text shows it.  The automaton reads a declaration at the head by the same four steps
wherever it is expected (`Machine.Known.head`), so the run on a package and an import is followed
up to the import's semicolon without its tables (`known_headSource`). -/

namespace AspectLang

namespace Language

open Grammar GrammarIndex

/-! ### Items of the language -/

/-- The number of a rule. -/
def numberOf (r : Rule) : Nat := rules.idxOf r

theorem ruleArray_numberOf {r : Rule} (hr : r ∈ rules) : ruleArray[numberOf r]? = some r := by
  have hlt : numberOf r < rules.length := List.idxOf_lt_length_iff.mpr hr
  unfold ruleArray
  rw [List.getElem?_toArray, List.getElem?_eq_getElem hlt]
  exact congrArg some (List.getElem_idxOf hlt)

theorem rhsOf_numberOf {r : Rule} (hr : r ∈ rules) :
    grammar.rhsOf (numberOf r) = r.rhs.map RuleSymbol.symbol :=
  rhsOf_eq (productions_of_rule (ruleArray_numberOf hr))

/-- A rule with a dot. -/
def itemOf (r : Rule) (dot : Nat) : Item := ⟨numberOf r, dot⟩

/-- A state looks for a terminal after a rule with a dot. -/
structure Expects (state : Nat) (r : Rule) (dot : Nat) (t : TokenKind) : Prop where
  mem : r ∈ rules
  hasKernel : ∃ kernel, grammar.itemGraph.kernels[state]? = some kernel
  looks : grammar.Looks state (itemOf r dot) t

section

variable {state dot : Nat} {r r' : Rule} {a b t : TokenKind}

/-- What a nonterminal can begin with, by one of its rules. -/
theorem canBegin_of_rule {rest : List Symbol} (hr : r ∈ rules)
    (h : grammar.CanBegin (r.rhs.map RuleSymbol.symbol ++ rest) t) :
    grammar.CanBegin (.nonterminal r.lhs.index :: rest) t :=
  .of_derives ((derives_rhs (productions_of_rule (ruleArray_numberOf hr))).append .refl) h

/-- The rules of the nonterminal after a dot can start. -/
theorem Expects.begin {rest : List RuleSymbol} (r' : Rule) (h : Expects state r dot a)
    (hr : r' ∈ rules) (hdrop : r.rhs.drop dot = .n r'.lhs :: rest)
    (hb : grammar.CanBegin (rest.map RuleSymbol.symbol ++ [.terminal a]) b) :
    Expects state r' 0 b := by
  obtain ⟨kernel, hk⟩ := h.hasKernel
  refine ⟨hr, ⟨kernel, hk⟩, looks_of_inClosure (I := {(itemOf r dot, a)}) (x := (itemOf r' 0, b))
    wellFormed_grammar hk ?_ (.start (.base rfl) ?_ (productions_of_rule (ruleArray_numberOf hr)) hb)⟩
  · intro i c hi
    obtain ⟨rfl, rfl⟩ := Prod.mk.inj hi
    exact h.looks
  · change (grammar.rhsOf (numberOf r)).drop dot = _
    rw [rhsOf_numberOf h.mem, ← List.map_drop, hdrop]
    rfl

theorem Expects.looks_ended (h : Expects state r dot a) (hdot : dot = r.rhs.length) :
    grammar.Looks state (grammar.ended (numberOf r)) a := by
  have hitem : grammar.ended (numberOf r) = itemOf r dot := by
    unfold ended
    rw [rhsOf_numberOf h.mem, List.length_map, ← hdot]
    rfl
  rw [hitem]
  exact h.looks

/-- The symbol after a dot leads on. -/
theorem Expects.advance {s : RuleSymbol} (h : Expects state r dot a) (hs : r.rhs[dot]? = some s) :
    ∃ target, grammar.itemGraph.edge? state s.symbol = some target ∧
      Expects target r (dot + 1) a := by
  obtain ⟨kernel, hk⟩ := h.hasKernel
  have hi := itemOf_of_looks wellFormed_grammar hk h.looks
  have hnext : grammar.next? (itemOf r dot) = some s.symbol := by
    change (grammar.rhsOf (numberOf r))[dot]? = _
    rw [rhsOf_numberOf h.mem, List.getElem?_map, hs]
    rfl
  obtain ⟨target, hedge⟩ := wellFormed_grammar.edge_of_next hk hi hnext
  obtain ⟨kernel', htarget, hnext', _⟩ :=
    wellFormed_grammar.kernel_of_edge hk (wellFormed_grammar.next_hasSymbol hnext) hedge
  exact ⟨target, hedge, h.mem, ⟨kernel', htarget⟩,
    looks_advance wellFormed_grammar hk hedge htarget hnext' hi hnext h.looks⟩

theorem Expects.shift_of_edge {target : Nat} {kind : TokenKind} (h : Expects state r dot a)
    (hkind : kind ∈ TokenKind.all)
    (hedge : grammar.itemGraph.edge? state (RuleSymbol.t kind).symbol = some target) :
    tables.action state kind = .shift target := by
  obtain ⟨kernel, hk⟩ := h.hasKernel
  exact action_of_edge wellFormed_grammar hk hkind hedge

theorem Expects.goto_of_edge {target : Nat} {x : Nonterminal} (h : Expects state r dot a)
    (hedge : grammar.itemGraph.edge? state (RuleSymbol.n x).symbol = some target) :
    tables.goto? state x.index = some target := by
  obtain ⟨kernel, hk⟩ := h.hasKernel
  exact (goto?_eq hk x.index).trans hedge

/-- A rule that is alone in its states is reduced before what is looked for after it. -/
theorem Expects.reduce_of_lone (h : Expects state r dot a) (hdot : dot = r.rhs.length)
    (hlone : grammar.IsLone (grammar.ended (numberOf r))) (ha : a ∈ TokenKind.all)
    (heof : a ≠ .eof) : tables.action state a = .reduce (numberOf r) := by
  obtain ⟨kernel, hk⟩ := h.hasKernel
  have hlooks := h.looks_ended hdot
  have hi := itemOf_of_looks wellFormed_grammar hk hlooks
  have hacts := hlone.action_of_sees wellFormed_grammar startIsolated_grammar hk hi ha
    ⟨state, kernel, hk, hlooks⟩
  exact hacts.trans (if_neg fun hstart => heof hstart.2)

end

/-! ### Nothing at the head is followed by a closing brace -/

/-- The nonterminals that a closing brace never follows. -/
def neverBeforeBrace : List Nonterminal := [.goal, .compilationUnit, .packageDeclarationOpt,
  .packageDeclaration, .importDeclarationsOpt, .importDeclarations, .importDeclaration]

/-- What can vanish; nothing begins with a closing brace. -/
def braceBound : FirstBound := ⟨TokenKind.rBrace.column, vanishing.testBit, fun _ => false⟩

/-- The nonterminals that a closing brace can follow. -/
def beforeBrace (id : Nat) : Bool := !(idSet neverBeforeBrace).testBit id

theorem braces_bounded : ∀ p ∈ productions, braceBound.allows p = true ∧
    followsWithin braceBound beforeBrace p.lhs p.rhs = true := by
  decide +kernel

/-- Declarations at the head of a unit, and what they are the last symbols of. -/
def headEndings : List (Production × Nat) :=
  (rules.zipIdx.filter fun x => x.1.lhs = .packageDeclaration || x.1.lhs = .importDeclaration ||
    x.1.rhs = [.n .packageDeclaration]).map fun x => (x.1.production, x.2)

theorem heads_settle :
    ((headEndings.all fun x => endsAlone closingOnsets 5 productions x.2 x.1) &&
      (!beforeBrace Nonterminal.packageDeclaration.index &&
        !beforeBrace Nonterminal.importDeclaration.index)) = true := by
  decide +kernel

section

variable {state p : Nat} {kernel : List Item} {r : Rule}

theorem isLone_of_headEnding (hr : ruleArray[p]? = some r)
    (h : (r.lhs = .packageDeclaration ∨ r.lhs = .importDeclaration) ∨
      r.rhs = [.n .packageDeclaration]) : grammar.IsLone (grammar.ended p) := by
  have hall := (Bool.and_eq_true_iff.mp heads_settle).1
  have hmem : (r.production, p) ∈ headEndings :=
    List.mem_map.mpr ⟨(r, p), List.mem_filter.mpr ⟨mem_zipIdx_rules hr, by simpa using h⟩, rfl⟩
  exact isLone_of_endsAlone covers_closingOnsets (productions_of_rule hr)
    (List.all_eq_true.mp hall _ hmem)

/-- **No closing brace follows a declaration at the head of a unit.** -/
theorem not_looks_rBrace (hr : ruleArray[p]? = some r)
    (h : r.lhs = .packageDeclaration ∨ r.lhs = .importDeclaration)
    (hk : grammar.itemGraph.kernels[state]? = some kernel) (dot : Nat) :
    ¬ grammar.Looks state ⟨p, dot⟩ .rBrace := by
  rintro ⟨follow, hi, hhas⟩
  have hbound := followBound_of_follows
    (FirstBound.bounds_firstSets fun p hp => (braces_bounded p (mem_productions hp)).1)
    (fun heof => absurd heof (by decide)) fun p hp => (braces_bounded p (mem_productions hp)).2
  have hfollows := hbound.of_mem_stateItems wellFormed_grammar hk hi hhas
  rw [lhsOf_eq (productions_of_rule hr)] at hfollows
  have hnever := (Bool.and_eq_true_iff.mp heads_settle).2
  rw [Bool.and_eq_true, Bool.not_eq_true', Bool.not_eq_true'] at hnever
  rcases h with h | h
  · change beforeBrace r.lhs.index = true at hfollows
    rw [h, hnever.1] at hfollows
    cases hfollows
  · change beforeBrace r.lhs.index = true at hfollows
    rw [h, hnever.2] at hfollows
    cases hfollows

/-- Behind a declaration at the head of a unit a closing brace is an error. -/
theorem action_rBrace_of_head (hr : ruleArray[p]? = some r)
    (h : r.lhs = .packageDeclaration ∨ r.lhs = .importDeclaration)
    (hk : grammar.itemGraph.kernels[state]? = some kernel)
    (hi : grammar.ItemOf kernel (grammar.ended p)) : tables.action state .rBrace = .error := by
  have hlone := isLone_of_headEnding hr (.inl h) kernel (wellFormed_grammar.reached hk) hi
  exact hlone.action_of_not_looks wellFormed_grammar startIsolated_grammar hk (by decide)
    (not_looks_rBrace hr h hk _)

end

end Language

/-! ### Declarations that are lost -/

/-- The machine stands behind the last token of a declaration at the head of a unit: the rule of a
package or an import is in the state on top, with its dot at the end. -/
def Machine.EndsHead (m : Machine) : Prop :=
  ∃ state below kernel p r, m.states = state :: below ∧
    Language.grammar.itemGraph.kernels[state]? = some kernel ∧
      Language.ruleArray[p]? = some r ∧
        (r.lhs = .packageDeclaration ∨ r.lhs = .importDeclaration) ∧
          Language.grammar.ItemOf kernel (Language.grammar.ended p)

/-- Where nothing waits, nothing is reduced when the unit is given up. -/
theorem Machine.settle_of_pending {m : Machine} (h : m.pending? = none) (dialect : Dialect)
    (offset gas : Nat) : settle dialect offset gas m = .ok () m := by
  cases gas with
  | zero => rfl
  | succ gas =>
      rw [settle, get_bind, h]
      rfl

/-- What waits at the head of a unit does not wait for a closing brace. -/
theorem Machine.EndsHead.pending? {m : Machine} (h : m.EndsHead) : m.pending? = none := by
  obtain ⟨state, below, kernel, p, r, hstates, hk, hr, hhead, hi⟩ := h
  unfold Machine.pending?
  rw [hstates, List.head?_cons, Option.bind_some,
    Language.action_rBrace_of_head hr hhead hk hi]

/-- A unit that is given up where nothing waits has what is on the stack. -/
theorem Parser.parseStream_of_pending {p : Parser} {stream : TokenStream} {m : Machine}
    (hrun : Machine.run p.setup stepLimit stepLimit (p.start stream) = .ok .abandoned m)
    (h : m.pending? = none) :
    (p.parseStream stream).1 = .ok (outcome
      (Salvage.ofNodes (spanOfLength stream.endOffset) m.work.values.nodes.toList) true m) := by
  have hfinish : finish p.setup.dialect stream.endOffset .abandoned m = .ok
      (outcome (Salvage.ofNodes (spanOfLength stream.endOffset) m.work.values.nodes.toList) true m)
      { m with states := [], spans := [] } := by
    change finishAbandoned _ _ _ = _
    unfold finishAbandoned
    rw [Machine.settle_of_pending h]
  exact congrArg Prod.fst (parseStream_of_finish_ok hrun hfinish)

/-- **A package or an import that waits for a token is lost** when its unit is abandoned: the unit
has what was on the stack before, and no more. -/
theorem Parser.waiting_head_lost {p : Parser} {stream : TokenStream} {m : Machine}
    (hrun : Machine.run p.setup stepLimit stepLimit (p.start stream) = .ok .abandoned m)
    (h : m.EndsHead) :
    (p.parseStream stream).1 = .ok (outcome
      (Salvage.ofNodes (spanOfLength stream.endOffset) m.work.values.nodes.toList) true m) :=
  parseStream_of_pending hrun h.pending?

/-! ### Reading declarations at the head -/

namespace Language

open Grammar GrammarIndex

/-- The rule of a package declaration. -/
def packageRule : Rule :=
  ⟨.packageDeclaration, [.t .kwPackage, .n .name, .t .semicolon], .packageDecl⟩

/-- The rule of an import of one type. -/
def importRule : Rule :=
  ⟨.importDeclaration, [.t .kwImport, .n .name, .t .semicolon], .importDecl false false⟩

/-- The rule of a name of one word. -/
def nameRule : Rule := ⟨.name, [.t .identifier], .none⟩

theorem mem_all_of_headWord {word : TokenKind} (h : word = .kwPackage ∨ word = .kwImport) :
    word ∈ TokenKind.all := by
  rcases h with rfl | rfl
  · decide
  · decide

/-- The words of declarations at the head stand first in their rules, and names follow them. -/
theorem names_settle : ∀ x ∈ rules.zipIdx,
    (RuleSymbol.t .kwPackage ∉ x.1.rhs.tail ∧ RuleSymbol.t .kwImport ∉ x.1.rhs.tail) ∧
    (x.1.rhs.head? = some (.t .kwPackage) ∨ x.1.rhs.head? = some (.t .kwImport) →
      x.1.rhs[1]? = some (.n .name) ∨ x.1.rhs[1]? = some (.t .kwStatic) ∨ x.1.rhs[1]? = none) ∧
    (x.1.lhs = .name →
      x.1.rhs[0]? = some (.n .name) ∨
        x.1.rhs = [.t .identifier] ∧ x.2 = numberOf nameRule) := by
  decide +kernel

section

variable {source state target : Nat} {kernel : List Item} {word : TokenKind}
  (hword : word = .kwPackage ∨ word = .kwImport)
  (hsource : grammar.itemGraph.kernels[source]? = some kernel)
  (hstate : grammar.itemGraph.edge? source (.terminal word) = some state)

include hword hsource hstate

/-- Behind the word of a declaration at the head stand rules that begin with it, and names. -/
theorem itemOf_behind_word {kernel' : List Item}
    (hk : grammar.itemGraph.kernels[state]? = some kernel') {i : Item}
    (hi : grammar.ItemOf kernel' i) : ∃ r, ruleArray[i.production]? = some r ∧
      (i.dot = 1 ∧ r.rhs.head? = some (.t word) ∨ i.dot = 0 ∧ r.lhs = .name) := by
  have hall : grammar.HasSymbol (.terminal word) := mem_all_of_headWord hword
  obtain ⟨own, hown, hmem, _⟩ := wellFormed_grammar.kernel_of_edge hsource hall hstate
  obtain rfl : own = kernel' := Option.some.inj (hown.symm.trans hk)
  induction hi with
  | kernel hi =>
      obtain ⟨j, _, hnext, rfl⟩ := (hmem _).mp hi
      obtain ⟨r, s, hr, hs, hsymbol⟩ := exists_rule_of_next? hnext
      obtain rfl : s = .t word := by
        cases s with
        | t kind => rw [Symbol.terminal.inj hsymbol]
        | n x => cases hsymbol
      refine ⟨r, hr, .inl ?_⟩
      have hsettle := (names_settle _ (mem_zipIdx_rules hr)).1
      cases hdot : j.dot with
      | zero =>
          rw [hdot] at hs
          exact ⟨congrArg (· + 1) hdot, by rw [← hs, List.head?_eq_getElem?]⟩
      | succ dot =>
          rw [hdot, ← List.getElem?_tail] at hs
          have htail := List.mem_of_getElem? hs
          rcases hword with rfl | rfl
          · exact absurd htail hsettle.1
          · exact absurd htail hsettle.2
  | @start i p production _ hnext hp ih =>
      obtain ⟨r, hr, hcases⟩ := ih
      obtain ⟨r', s, hr', hs, hsymbol⟩ := exists_rule_of_next? hnext
      obtain rfl : r = r' := Option.some.inj (hr.symm.trans hr')
      obtain ⟨own, hown, rfl⟩ : ∃ own, ruleArray[p]? = some own ∧ own.production = production := by
        rw [productions_getElem?, Option.map_eq_some_iff] at hp
        exact hp
      refine ⟨own, hown, .inr ⟨rfl, ?_⟩⟩
      obtain ⟨_, hhead, hname⟩ := names_settle _ (mem_zipIdx_rules hr)
      have hs' : s = .n .name := by
        rcases hcases with ⟨hdot, hbegin⟩ | ⟨hdot, hlhs⟩
        · rw [hdot] at hs
          rcases hhead (by rcases hword with rfl | rfl <;> simp [hbegin]) with h | h | h
          · exact Option.some.inj (hs.symm.trans h)
          · obtain rfl : s = .t .kwStatic := Option.some.inj (hs.symm.trans h)
            cases hsymbol
          · cases hs.symm.trans h
        · rw [hdot] at hs
          rcases hname hlhs with h | ⟨h, _⟩
          · exact Option.some.inj (hs.symm.trans h)
          · rw [h] at hs
            obtain rfl : RuleSymbol.t .identifier = s := Option.some.inj hs
            cases hsymbol
      subst hs'
      exact (Nonterminal.index_injective (Symbol.nonterminal.inj hsymbol)).symm

/-- A single word behind it is a name and nothing else. -/
theorem name_isOnly (htarget : grammar.itemGraph.edge? state (.terminal .identifier) = some target) :
    ∃ kernel', grammar.itemGraph.kernels[target]? = some kernel' ∧
      grammar.IsOnly kernel' (grammar.ended (numberOf nameRule)) := by
  have hall : grammar.HasSymbol (.terminal word) := mem_all_of_headWord hword
  obtain ⟨between, hbetween, _⟩ := wellFormed_grammar.kernel_of_edge hsource hall hstate
  obtain ⟨kernel', hk, hmem, _⟩ :=
    wellFormed_grammar.kernel_of_edge hbetween (s := .terminal .identifier) (by decide) htarget
  refine ⟨kernel', hk, fun j hj => ?_⟩
  induction hj with
  | kernel hj =>
      obtain ⟨i, hi, hnext, rfl⟩ := (hmem _).mp hj
      obtain ⟨r, hr, hcases⟩ := itemOf_behind_word hword hsource hstate hbetween hi
      obtain ⟨r', s, hr', hs, hsymbol⟩ := exists_rule_of_next? hnext
      obtain rfl : r = r' := Option.some.inj (hr.symm.trans hr')
      obtain rfl : s = .t .identifier := by
        cases s with
        | t kind => rw [Symbol.terminal.inj hsymbol]
        | n x => cases hsymbol
      obtain ⟨_, hhead, hname⟩ := names_settle _ (mem_zipIdx_rules hr)
      rcases hcases with ⟨hdot, hbegin⟩ | ⟨hdot, hlhs⟩
      · rw [hdot] at hs
        rcases hhead (by rcases hword with rfl | rfl <;> simp [hbegin]) with h | h | h
        · cases hs.symm.trans h
        · cases hs.symm.trans h
        · cases hs.symm.trans h
      · rw [hdot] at hs
        rcases hname hlhs with h | ⟨_, hnumber⟩
        · cases hs.symm.trans h
        · obtain ⟨number, dot⟩ := i
          obtain rfl : number = numberOf nameRule := hnumber
          obtain rfl : dot = 0 := hdot
          unfold ended
          rw [rhsOf_numberOf (by decide)]
          rfl
  | start _ hnext _ ih =>
      rw [ih, next?_ended] at hnext
      cases hnext

end

end Language

namespace Machine

/-- What is known of a machine on its way: how it got there, and what is on its stacks. -/
structure Known (s : ParserSetup) (start : Machine) (steps : Nat) (states : List Nat)
    (nodes : SegmentStack Node) (words : SegmentStack Identifier) (rest : List Token)
    (m : Machine) : Prop where
  walks : Walks s steps start m
  states : m.states = states
  nodes : m.work.values.nodes = nodes
  words : m.work.values.identifiers = words
  rest : m.rest = rest
  reporter : m.work.reporter = start.work.reporter
  recovery : m.recovery = {}

theorem Walks.snoc {s : ParserSetup} {n : Nat} {m m' last : Machine} (h : Walks s n m m')
    (hstep : step s m' = .ok .running last) : Walks s (n + 1) m last := by
  induction h with
  | zero => exact .succ hstep .zero
  | succ hfirst _ ih => exact .succ hfirst (ih hstep)

section

variable {s : ParserSetup} {start m : Machine} {n state : Nat} {below : List Nat}
  {nodes : SegmentStack Node} {words : SegmentStack Identifier} {t : Token} {rest : List Token}

theorem Known.shift {target : Nat}
    (h : Known s start n (state :: below) nodes words (t :: rest) m)
    (haction : Language.tables.action state t.kind = .shift target) :
    Known s start (n + 1) (target :: state :: below) nodes
      (pushValue t { identifiers := words }).identifiers rest (m.afterShift s t rest target) where
  walks := h.walks.snoc (by rw [step_eq h.states h.rest, haction])
  states := congrArg (target :: ·) h.states
  nodes := (nodes_afterShift t rest target).trans h.nodes
  words := by
    change (pushValue t m.work.values).identifiers = _
    rw [← h.words]
    unfold pushValue
    split
    · rfl
    · split <;> rfl
  rest := rfl
  reporter := h.reporter
  recovery := congrArg (Recovery.shifted _) h.recovery

theorem Known.reduce {production target top : Nat} {lower : List Nat} {r : Rule}
    (nodes' : Handle → SegmentStack Node) (words' : SegmentStack Identifier)
    (h : Known s start n (state :: below) nodes words (t :: rest) m)
    (haction : Language.tables.action state t.kind = .reduce production)
    (hrule : Language.ruleArray[production]? = some r)
    (hdrop : (state :: below).drop r.rhs.length = top :: lower)
    (hgoto : Language.tables.goto? top r.lhs.index = some target)
    (hact : ∀ c w, w.values.nodes = nodes → w.values.identifiers = words →
      ∃ w', Work.act s.dialect c r.action w = .ok () w' ∧ w'.values.nodes = nodes' c ∧
        w'.values.identifiers = words' ∧ w'.reporter = w.reporter) :
    ∃ m' c, Known s start (n + 1) (target :: top :: lower) (nodes' c) words' (t :: rest) m' := by
  obtain ⟨w', hw, hnodes, hwords, hreporter⟩ := hact (m.handle r.rhs.length t.span)
    (m.popped r.rhs.length production).work h.nodes h.words
  have hreduce : Machine.reduce s.dialect production t.span m = _ :=
    reduce_eq hrule (by rw [h.states]; exact hdrop) hgoto
  rw [hw] at hreduce
  dsimp only at hreduce
  refine ⟨{ m.popped r.rhs.length production with
    states := target :: top :: lower
    spans := (m.handle r.rhs.length t.span).whole? :: m.spans.drop r.rhs.length
    work := w' }, m.handle r.rhs.length t.span, h.walks.snoc ?_, rfl, hnodes, hwords, h.rest,
    hreporter.trans h.reporter, h.recovery⟩
  rw [step_eq h.states h.rest, haction]
  dsimp only
  rw [hreduce]

end

end Machine

/-! ### A text whose import is lost -/

section

open AspectLang.Language Grammar

variable {s : ParserSetup} {start m : Machine} {n state : Nat} {below : List Nat}
  {nodes : SegmentStack Node}

/-- A declaration at the head is read up to its semicolon. -/
theorem Machine.Known.head {r : Rule} {a : TokenKind} {first name semicolon : Token}
    {rest : List Token} (word : TokenKind) (h : Known s start n (state :: below) nodes {}
      (first :: name :: semicolon :: rest) m)
    (hword : word = .kwPackage ∨ word = .kwImport)
    (hr : r.rhs = [.t word, .n .name, .t .semicolon]) (hexpects : Expects state r 0 a)
    (hfirst : first.kind = word) (hname : name.kind = .identifier)
    (hsemicolon : semicolon.kind = .semicolon) :
    ∃ m' s₁ s₂ s₃, Known s start (n + 4) (s₃ :: s₂ :: s₁ :: state :: below) nodes
      (SegmentStack.push ⟨name.text, name.span⟩ {}) rest m' ∧ Expects s₃ r 3 a := by
  obtain ⟨kernel, hk⟩ := hexpects.hasKernel
  obtain ⟨s₁, hs₁, hexpects₁⟩ := hexpects.advance (s := .t word) (by rw [hr]; rfl)
  -- the name, which is reduced before the semicolon
  have hstart : Expects s₁ nameRule 0 .semicolon :=
    hexpects₁.begin nameRule (by decide) (by rw [hr]; rfl)
      (canBegin_terminal _ _)
  obtain ⟨s₂, hs₂, hexpects₂⟩ := hstart.advance (s := .t .identifier) rfl
  obtain ⟨kernel₂, hk₂, honly⟩ := name_isOnly hword hk hs₁ hs₂
  obtain ⟨s₃, hs₃, hexpects₃⟩ := hexpects₁.advance (s := .n .name) (by rw [hr]; rfl)
  obtain ⟨s₄, hs₄, hexpects₄⟩ := hexpects₃.advance (s := .t .semicolon) (by rw [hr]; rfl)
  have hname? : tables.action s₂ .semicolon = .reduce (numberOf nameRule) := by
    have hacts := honly.action_of_looks wellFormed_grammar startIsolated_grammar hk₂
      (t := .semicolon) (by decide) (hexpects₂.looks_ended rfl)
    exact hacts.trans (if_neg fun h => nomatch h.2)
  -- four steps: the word, the name, its reduction, and the semicolon
  have hone := h.shift (hfirst ▸ hexpects.shift_of_edge (mem_all_of_headWord hword) hs₁)
  have htwo := hone.shift (hname ▸ hstart.shift_of_edge (by decide) hs₂)
  have hnone : (Machine.pushValue first { identifiers := {} }).identifiers = {} := by
    unfold Machine.pushValue
    rw [hfirst]
    rcases hword with rfl | rfl
    · rfl
    · rfl
  have hpushed : (Machine.pushValue name { identifiers := {} }).identifiers =
      SegmentStack.push ⟨name.text, name.span⟩ {} := by
    unfold Machine.pushValue
    rw [hname]
    rfl
  rw [hnone, hpushed] at htwo
  obtain ⟨m₃, _, hthree⟩ := htwo.reduce (r := nameRule) (fun _ => nodes) _
    (hsemicolon ▸ hname?) (ruleArray_numberOf (by decide)) rfl
    (hexpects₁.goto_of_edge hs₃) fun c w hnodes hwords => ⟨w, rfl, hnodes, hwords, rfl⟩
  have hfour := hthree.shift (hsemicolon ▸ hexpects₃.shift_of_edge (by decide) hs₄)
  have hkeeps : (Machine.pushValue semicolon
      { identifiers := SegmentStack.push ⟨name.text, name.span⟩ {} }).identifiers =
        SegmentStack.push ⟨name.text, name.span⟩ {} := by
    unfold Machine.pushValue
    rw [hsemicolon]
    rfl
  rw [hkeeps] at hfour
  exact ⟨_, s₁, s₃, s₄, hfour, hexpects₄⟩

end

namespace Language

/-! ### The head of a unit -/

/-- The rule of the whole unit. -/
def unitRule : Rule := ⟨.compilationUnit, [.n .packageDeclarationOpt, .n .importDeclarationsOpt,
  .n .typeDeclarationsOpt], .compilationUnit⟩

/-- The rule of a package that is there. -/
def packageOptRule : Rule := ⟨.packageDeclarationOpt, [.n .packageDeclaration], .none⟩

open Grammar

theorem expects_unit : Expects 0 unitRule 0 .eof := by
  have hgoal : Expects 0 ⟨.goal, [.n .compilationUnit], .none⟩ 0 .eof :=
    ⟨by decide, ⟨_, wellFormed_grammar.kernels_zero⟩, looks_start wellFormed_grammar⟩
  exact hgoal.begin unitRule (by decide) rfl (canBegin_terminal _ _)

/-- An import can follow a package. -/
theorem expects_packageOpt : Expects 0 packageOptRule 0 .kwImport := by
  refine expects_unit.begin packageOptRule (by decide) rfl ?_
  refine canBegin_of_rule (r := ⟨.importDeclarationsOpt, [.n .importDeclarations], .none⟩)
    (by decide) ?_
  refine canBegin_of_rule (r := ⟨.importDeclarations, [.n .importDeclaration], .none⟩)
    (by decide) ?_
  exact canBegin_of_rule (r := importRule) (by decide) (canBegin_terminal _ _)

theorem expects_package : Expects 0 packageRule 0 .kwImport :=
  expects_packageOpt.begin packageRule (by decide) rfl (canBegin_terminal _ _)

/-- Behind the package an import can be all of the unit. -/
theorem expects_import {state : Nat} (h : Expects state unitRule 1 .eof) :
    Expects state importRule 0 .eof := by
  have htypes : grammar.CanBegin [.nonterminal Nonterminal.typeDeclarationsOpt.index,
      .terminal .eof] .eof :=
    canBegin_of_rule (r := ⟨.typeDeclarationsOpt, [], .emptyNodes⟩) (by decide)
      (canBegin_terminal _ _)
  have hopt := h.begin ⟨.importDeclarationsOpt, [.n .importDeclarations], .none⟩
    (by decide) rfl htypes
  have hmany := hopt.begin ⟨.importDeclarations, [.n .importDeclaration], .none⟩
    (by decide) rfl (canBegin_terminal _ _)
  exact hmany.begin importRule (by decide) rfl (canBegin_terminal _ _)

end Language

/-- A text with a lexical error behind an import. -/
def headSource : String := "package p; import q; # \x7d"

/-- A parser that gives a unit up where it would make a repair after one error. -/
def strictParser : Parser := .new { maxErrors := 1 } .disabled

/-- The package of the text. -/
def headPackage (c : Handle) : Node := .package ⟨⟨[⟨"p", ⟨8, 8⟩⟩]⟩, c.whole⟩

theorem stream_headSource : (Scanner.stream headSource).tokens =
      [⟨.kwPackage, ⟨0, 6⟩, "package"⟩, ⟨.identifier, ⟨8, 8⟩, "p"⟩, ⟨.semicolon, ⟨9, 9⟩, ";"⟩,
        ⟨.kwImport, ⟨11, 16⟩, "import"⟩, ⟨.identifier, ⟨18, 18⟩, "q"⟩,
        ⟨.semicolon, ⟨19, 19⟩, ";"⟩, ⟨.rBrace, ⟨23, 23⟩, "\x7d"⟩] ∧
    (Scanner.stream headSource).errors = [⟨⟨21, 21⟩, "#"⟩] ∧
      (Scanner.stream headSource).endOffset = 24 := by
  unfold Scanner.stream Scanner.scan
  rw [Scanner.scanFrom_eq_within (n := 24) (by decide)]
  decide +kernel

namespace Machine

theorem seeksRepair_of_error {m : Machine} {state : Nat} {below : List Nat} {t : Token}
    {rest : List Token} (hstates : m.states = state :: below) (hrest : m.rest = t :: rest)
    (haction : Language.tables.action state t.kind = .error) (hwhole : t.split = .whole) :
    m.seeksRepair = true := by
  rw [seeksRepair_eq hstates hrest, decide_eq_true haction, decide_eq_true hwhole, Bool.or_true]
  rfl

end Machine

section

open AspectLang.Language Grammar Machine

theorem act_package (dialect : Dialect) (c : Handle) (w : Workspace)
    (hnodes : w.values.nodes = {}) (hwords : w.values.identifiers =
      SegmentStack.push ⟨"p", ⟨8, 8⟩⟩ {}) :
    ∃ w', Work.act dialect c packageRule.action w = .ok () w' ∧
      w'.values.nodes = SegmentStack.push (headPackage c) {} ∧ w'.values.identifiers = {} ∧
        w'.reporter = w.reporter := by
  obtain ⟨⟨nodes, exprs, identifiers, ints, types, production⟩, reporter, unit, reported⟩ := w
  obtain rfl : nodes = {} := hnodes
  obtain rfl : identifiers = SegmentStack.push ⟨"p", ⟨8, 8⟩⟩ {} := hwords
  exact ⟨_, rfl, rfl, rfl, rfl⟩

/-- The package is reduced before the import, and the import is read up to its semicolon. -/
theorem known_headSource : ∃ c m₁ m₂ s₁ below₁ s₂ below₂,
    Known strictParser.setup (strictParser.start (Scanner.stream headSource)) 6 (s₁ :: below₁)
      (SegmentStack.push (headPackage c) {}) {}
      [⟨.kwImport, ⟨11, 16⟩, "import"⟩, ⟨.identifier, ⟨18, 18⟩, "q"⟩, ⟨.semicolon, ⟨19, 19⟩, ";"⟩,
        ⟨.rBrace, ⟨23, 23⟩, "\x7d"⟩, .eof 24] m₁ ∧
    Known strictParser.setup (strictParser.start (Scanner.stream headSource)) 10 (s₂ :: below₂)
      (SegmentStack.push (headPackage c) {}) (SegmentStack.push ⟨"q", ⟨18, 18⟩⟩ {})
      [⟨.rBrace, ⟨23, 23⟩, "\x7d"⟩, .eof 24] m₂ ∧ Expects s₂ importRule 3 .eof := by
  obtain ⟨htokens, _, hend⟩ := stream_headSource
  have hstart : Known strictParser.setup (strictParser.start (Scanner.stream headSource)) 0 [0] {} {}
      [⟨.kwPackage, ⟨0, 6⟩, "package"⟩, ⟨.identifier, ⟨8, 8⟩, "p"⟩, ⟨.semicolon, ⟨9, 9⟩, ";"⟩,
        ⟨.kwImport, ⟨11, 16⟩, "import"⟩, ⟨.identifier, ⟨18, 18⟩, "q"⟩,
        ⟨.semicolon, ⟨19, 19⟩, ";"⟩, ⟨.rBrace, ⟨23, 23⟩, "\x7d"⟩, .eof 24]
      (strictParser.start (Scanner.stream headSource)) := by
    refine ⟨.zero, rfl, rfl, rfl, ?_, rfl, rfl⟩
    change (Scanner.stream headSource).tokens ++ [Token.eof (Scanner.stream headSource).endOffset] = _
    rw [htokens, hend]
    rfl
  obtain ⟨m₁, a₁, a₂, a₃, hpackage, hexpects⟩ := hstart.head .kwPackage (.inl rfl) rfl
    expects_package rfl rfl rfl
  -- two reductions before the import
  have hlone := isLone_of_headEnding (ruleArray_numberOf (r := packageRule) (by decide))
    (.inl (.inl rfl))
  obtain ⟨b, hb, hexpectsOpt⟩ := expects_packageOpt.advance (s := .n .packageDeclaration) rfl
  obtain ⟨m₂, c, hreduced⟩ := hpackage.reduce (r := packageRule)
    (fun c => SegmentStack.push (headPackage c) {}) {}
    (hexpects.reduce_of_lone rfl hlone (by decide) (by decide))
    (ruleArray_numberOf (by decide)) rfl (expects_packageOpt.goto_of_edge hb)
    (act_package strictParser.setup.dialect)
  have hloneOpt := isLone_of_headEnding
    (ruleArray_numberOf (r := packageOptRule) (by decide)) (.inr rfl)
  obtain ⟨d, hd, hexpectsUnit⟩ := expects_unit.advance (s := .n .packageDeclarationOpt) rfl
  obtain ⟨m₃, _, hopt⟩ := hreduced.reduce (r := packageOptRule)
    (fun _ => SegmentStack.push (headPackage c) {}) {}
    (hexpectsOpt.reduce_of_lone rfl hloneOpt (by decide) (by decide))
    (ruleArray_numberOf (by decide)) rfl (expects_unit.goto_of_edge hd)
    fun _ w hnodes hwords => ⟨w, rfl, hnodes, hwords, rfl⟩
  obtain ⟨m₄, e₁, e₂, e₃, himport, hexpectsImport⟩ := hopt.head .kwImport (.inr rfl) rfl
    (expects_import hexpectsUnit) rfl rfl rfl
  exact ⟨c, m₃, m₄, _, _, _, _, hopt, himport, hexpectsImport⟩

/-- The unit is given up behind the import. -/
theorem run_headSource : ∃ c m₁ m₂ m,
    Walks strictParser.setup 6 (strictParser.start (Scanner.stream headSource)) m₁ ∧
      headPackage c ∈ m₁.work.values.nodes.items ∧
    Walks strictParser.setup 10 (strictParser.start (Scanner.stream headSource)) m₂ ∧
      m₂.rest = [⟨.rBrace, ⟨23, 23⟩, "\x7d"⟩, .eof 24] ∧
    run strictParser.setup Parser.stepLimit Parser.stepLimit
      (strictParser.start (Scanner.stream headSource)) = .ok .abandoned m ∧ m.EndsHead ∧
      m.work.values.nodes = SegmentStack.push (headPackage c) {} := by
  obtain ⟨c, m₁, m₂, s₁, below₁, s₂, below₂, hbefore, hbehind, hexpects⟩ := known_headSource
  obtain ⟨kernel, hk⟩ := hexpects.hasKernel
  have hitem := itemOf_of_looks wellFormed_grammar hk (hexpects.looks_ended rfl)
  have hrule := ruleArray_numberOf (r := importRule) (by decide)
  have herror := action_rBrace_of_head hrule (.inr rfl) hk hitem
  have hbudget : m₂.work.reporter.isOutOfBudget = true := by
    rw [hbehind.reporter]
    change (Parser.reportLexical (Scanner.stream headSource) strictParser.reset.reporter).isOutOfBudget
      = true
    unfold Parser.reportLexical
    rw [stream_headSource.2.1]
    rfl
  have hrecover : recover strictParser.setup ⟨.rBrace, ⟨23, 23⟩, "\x7d"⟩ m₂ =
      (.abandoned, m₂.abandon ⟨23, 23⟩ "too many errors") := by
    unfold recover
    rw [if_neg (by rw [hbehind.recovery]; decide), if_pos hbudget]
  have hstep : step strictParser.setup m₂ =
      .ok .abandoned (m₂.abandon ⟨23, 23⟩ "too many errors") := by
    rw [step_of_seeksRepair (seeksRepair_of_error hbehind.states hbehind.rest herror rfl)
      hbehind.rest, hrecover]
  refine ⟨c, m₁, m₂, m₂.abandon ⟨23, 23⟩ "too many errors", hbefore.walks, ?_, hbehind.walks,
    hbehind.rest, ?_, ?_, hbehind.nodes⟩
  · rw [hbefore.nodes]
    exact List.mem_cons_self
  · exact run_of_walks_ok hbehind.walks hstep nofun (by decide) _
  · exact ⟨s₂, below₂, kernel, _, importRule, hbehind.states, hk, hrule, .inr rfl, hitem⟩

end

end AspectLang
