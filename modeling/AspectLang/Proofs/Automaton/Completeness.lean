import AspectLang.Proofs.Automaton.Driver
import Mathlib.Data.List.Permutation

/-! # Tables without decisions accept every sentence

An item on top of the stack comes with the terminals that may follow it (`OnTop`).  Whatever the
symbols after its dot derive, the driver reads it and leaves the completed item on top, with the
states that it began on below (`completes`): terminals are shifted along their edges, and each
nonterminal is read by completing one of its productions and reducing by it, before a terminal
that the closure of the state has in the set of that production. -/

namespace AspectLang

open GrammarIndex

namespace Grammar

open Automaton (ofGrammar)

variable {g : Grammar}

/-- A state has an item with the given terminals after it. -/
structure OnTop (g : Grammar) (state : Nat) (i : LookaheadItem) : Prop where
  hasKernel : ∃ kernel, g.itemGraph.kernels[state]? = some kernel
  mem : i ∈ stateItems g (followSets g) state

theorem onTop_start (hg : g.WellFormed) :
    ∃ follow, g.OnTop 0 ⟨⟨0, 0⟩, follow⟩ ∧ follow.has TokenKind.eof.column = true := by
  obtain ⟨hfits, _, heof⟩ := lookaheads_stable hg
  have hfirst : [(⟨0, 0⟩ : Item)][0]? = some ⟨0, 0⟩ := rfl
  obtain ⟨follow, hitem, hwithin⟩ := stateItems_keeps hg hfits hg.kernels_zero hfirst
  refine ⟨follow, ⟨⟨_, hg.kernels_zero⟩, Array.mem_of_getElem? hitem⟩, ?_⟩
  exact hwithin _ (heof _ (KindSet.has_ofKind_self .eof))

/-- The symbol after the dot leads to a state with the advanced item. -/
theorem OnTop.advance (hg : g.WellFormed) {state : Nat} {i : Item} {follow : KindSet}
    (h : g.OnTop state ⟨i, follow⟩) {s : Symbol} (hs : g.next? i = some s) :
    ∃ target follow', g.itemGraph.edge? state s = some target ∧
      g.OnTop target ⟨i.advance, follow'⟩ ∧ follow.Within follow' := by
  obtain ⟨⟨kernel, hk⟩, hmem⟩ := h
  obtain ⟨hfits, hstable, _⟩ := lookaheads_stable hg
  have hitem := (mem_stateItems_spec hg hfits hk hmem).1
  obtain ⟨target, hedge⟩ := hg.edge_of_next hk hitem hs
  obtain ⟨kernel', hk', hadvanced, _⟩ := hg.kernel_of_edge hk (hg.next_hasSymbol hs) hedge
  have hin : i.advance ∈ kernel' := (hadvanced _).mpr ⟨i, hitem, hs, rfl⟩
  have hlt : kernel'.idxOf i.advance < kernel'.length := List.idxOf_lt_length_iff.mpr hin
  have hplace : kernel'[kernel'.idxOf i.advance]? = some i.advance := by
    rw [List.getElem?_eq_getElem hlt, List.getElem_idxOf]
  obtain ⟨follow', hkept, hwithin⟩ := stateItems_keeps hg hfits hk' hplace
  have hsent := hstable state (Array.getElem?_eq_some_iff.mp hk).1 _ hmem s target kernel' hs
    hedge hk'
  exact ⟨target, follow', hedge, ⟨⟨kernel', hk'⟩, Array.mem_of_getElem? hkept⟩,
    hsent.trans hwithin⟩

/-- The productions of the nonterminal after the dot can start, before what can follow them. -/
theorem OnTop.start (hg : g.WellFormed) {state p dot q : Nat} {follow : KindSet}
    (h : g.OnTop state ⟨⟨p, dot⟩, follow⟩) {production : Production} {rest : List Symbol}
    (hdrop : (g.rhsOf p).drop dot = .nonterminal production.lhs :: rest)
    (hq : g.productions[q]? = some production) : ∃ follow', g.OnTop state ⟨⟨q, 0⟩, follow'⟩ ∧
      (g.firstSets.ofSymbolsThen rest follow).Within follow' := by
  obtain ⟨⟨kernel, hk⟩, hmem⟩ := h
  obtain ⟨follow', hmem', hwithin⟩ :=
    stateItems_hasStart hg (lookaheads_stable hg).1 hk hmem hdrop hq
  exact ⟨follow', ⟨⟨kernel, hk⟩, hmem'⟩, hwithin⟩

/-- The first kind after what symbols derive is one that can follow them. -/
theorem headD_mem_ofSymbolsThen (hg : g.WellFormed) {rest : List Symbol}
    {u v : List TokenKind} {follow : KindSet} (hu : g.Yields rest u)
    (hv : follow.has (v.headD .eof).column = true) :
    (g.firstSets.ofSymbolsThen rest follow).has ((u ++ v).headD .eof).column = true := by
  have hhead : (u ++ v.headD .eof :: []).head? = some ((u ++ v).headD .eof) := by
    cases u with
    | nil => simp
    | cons k u => rfl
  exact hg.firstSets_closed.ofSymbolsThen hg hu hv hhead

/-- The driver accepts on the way, or comes to a stack that lies above the given one by `n`
states and has the completed item of the production on top. -/
def Completes (g : Grammar) (p n : Nat) (stack : List Nat) (input v : List TokenKind) : Prop :=
  (ofGrammar g).Accepts ⟨stack, input⟩ ∨ ∃ top below follow,
    (ofGrammar g).Leads ⟨stack, input⟩ ⟨top :: below, v⟩ ∧ (top :: below).drop n = stack ∧
      g.OnTop top ⟨⟨p, (g.rhsOf p).length⟩, follow⟩ ∧ follow.has (v.headD .eof).column = true

/-- After one state was put on the stack, completing the item from there completes it. -/
theorem Completes.push {p n target : Nat} {stack : List Nat} {input input' v : List TokenKind}
    (hleads : (ofGrammar g).Leads ⟨stack, input⟩ ⟨target :: stack, input'⟩)
    (h : g.Completes p n (target :: stack) input' v) : g.Completes p (n + 1) stack input v := by
  rcases h with haccepts | ⟨top, below, follow, hleads', hdrop, htop, hfollow⟩
  · exact .inl (hleads.accepts haccepts)
  · refine .inr ⟨top, below, follow, Relation.ReflTransGen.trans hleads hleads', ?_, htop, hfollow⟩
    rw [← List.tail_drop, hdrop]
    rfl

/-- **The driver completes an item** whose rest derives the next kinds, when the kind after them
may follow it. -/
theorem completes (hg : g.WellFormed) (hstart : g.StartIsolated)
    (hnone : (GrammarIndex.of g).tables.stats.conflicts = {}) {symbols : List Symbol}
    {u : List TokenKind} (hu : g.Yields symbols u) {p dot state : Nat} {below : List Nat}
    {follow : KindSet} {v : List TokenKind} (htop : g.OnTop state ⟨⟨p, dot⟩, follow⟩)
    (hdrop : (g.rhsOf p).drop dot = symbols) (hv : follow.has (v.headD .eof).column = true) :
    g.Completes p symbols.length (state :: below) (u ++ v) v := by
  induction hu generalizing p dot state below follow v with
  | nil =>
      obtain ⟨kernel, hk⟩ := htop.hasKernel
      have hitem := (mem_stateItems_spec hg (lookaheads_stable hg).1 hk htop.mem).1
      have hle := (hasItem_of_itemOf hg hk hitem).2
      obtain rfl : dot = (g.rhsOf p).length :=
        Nat.le_antisymm hle (List.drop_eq_nil_iff.mp hdrop)
      exact .inr ⟨state, below, follow, .refl, rfl, htop, hv⟩
  | @terminal k rest w _ ih =>
      have hnext := next?_of_drop (i := ⟨p, dot⟩) hdrop
      obtain ⟨target, follow', hedge, htop', hwithin⟩ := htop.advance hg hnext
      obtain ⟨kernel, hk⟩ := htop.hasKernel
      have hk' := hg.next_hasSymbol hnext
      have hshift : (ofGrammar g).turn ⟨state :: below, k :: w ++ v⟩ =
          .next ⟨target :: state :: below, w ++ v⟩ :=
        Automaton.turn_of_shift (action_of_edge hg hk hk' hedge)
      have hrest : (g.rhsOf p).drop (dot + 1) = rest := by
        rw [← List.tail_drop, hdrop]
        rfl
      exact .push (.single hshift) (ih htop' hrest (hwithin _ hv))
  | @nonterminal q production rest w₁ w₂ hq hown hrest ihown ihrest =>
      obtain ⟨first, hfirst, hwithin⟩ := htop.start hg hdrop hq
      have hahead := hwithin _ (headD_mem_ofSymbolsThen hg hrest hv)
      rw [List.append_assoc]
      have hcompleted : g.Completes q production.rhs.length (state :: below) (w₁ ++ (w₂ ++ v))
          (w₂ ++ v) := ihown hfirst (rhsOf_eq hq) hahead
      rcases hcompleted with haccepts | ⟨top, below', follow', hleads, hdrop', htop', hfollow'⟩
      · exact .inl haccepts
      · obtain ⟨kernel, hk⟩ := htop'.hasKernel
        have hproper := (mem_stateItems_spec hg (lookaheads_stable hg).1 hk htop'.mem).2
        have hkind := mem_all_of_column_lt (hproper _ hfollow')
        rcases action_of_completed hg hk hstart hnone ⟨follow', htop'.mem, hfollow'⟩ hkind with
          haccept | ⟨_, hreduce⟩
        · exact .inl (hleads.accepts
            ⟨_, .refl, Automaton.turn_eq_accepted_iff.mpr haccept⟩)
        · obtain ⟨target, after, hedge, htop'', hwithin'⟩ :=
            htop.advance hg (next?_of_drop (i := ⟨p, dot⟩) hdrop)
          obtain ⟨_, hk'⟩ := htop.hasKernel
          have hstates := reduce?_of_goto hq hdrop' ((goto?_eq hk' _).trans hedge)
          have hturn := Automaton.turn_of_reduce (a := ofGrammar g) hreduce hstates
          have hrest' : (g.rhsOf p).drop (dot + 1) = rest := by
            rw [← List.tail_drop, hdrop]
            rfl
          exact .push (Relation.ReflTransGen.trans hleads (.single hturn))
            (ihrest htop'' hrest' (hwithin' _ hv))

/-- **Every sentence is accepted** by tables that were built without decisions. -/
theorem accepts_of_sentence (hg : g.WellFormed) (hstart : g.StartIsolated)
    (hnone : (GrammarIndex.of g).tables.stats.conflicts = {}) {w : List TokenKind}
    (hw : g.Sentence w) : (ofGrammar g).Accepts ⟨[0], w⟩ := by
  obtain ⟨follow, htop, heof⟩ := onTop_start hg
  have hcompletes : g.Completes 0 (g.rhsOf 0).length [0] (w ++ []) [] :=
    completes hg hstart hnone hw htop rfl heof
  rw [List.append_nil] at hcompletes
  rcases hcompletes with haccepts | ⟨top, below, follow', hleads, _, htop', hfollow'⟩
  · exact haccepts
  · obtain ⟨kernel, hk⟩ := htop'.hasKernel
    rcases action_of_completed hg hk hstart hnone ⟨follow', htop'.mem, hfollow'⟩ (by decide) with
      haccept | ⟨hne, _⟩
    · exact ⟨_, hleads, Automaton.turn_eq_accepted_iff.mpr haccept⟩
    · exact absurd rfl hne

/-- **Every sentence is accepted.**  For a grammar read from rules, with an isolated start, whose
tables were built without a single decision, the driver comes from the start state and any
sentence to acceptance. -/
theorem sentence_accepted {rules : List String} {g : Grammar} {t : Tables}
    (hrules : Grammar.ofRules rules = .ok g) (htables : Tables.ofGrammar g = .ok t)
    (hstart : g.StartIsolated) (hshift : t.stats.conflicts.shiftReduce = 0)
    (hreduce : t.stats.conflicts.reduceReduce = 0) {w : List TokenKind} (hw : g.Sentence w) :
    Automaton.Accepts ⟨g, t⟩ ⟨[0], w⟩ := by
  obtain ⟨hne, rfl⟩ := Tables.ofGrammar_eq_ok htables
  have hg := wellFormed_of_ofRules hrules hne
  have hnone : (GrammarIndex.of g).tables.stats.conflicts = {} :=
    congrArg₂ Conflicts.mk hshift hreduce
  exact accepts_of_sentence hg hstart hnone hw

/-! ### A small grammar -/

/-- Runs of semicolons. -/
def semicolonRules : List String := ["Goal ::= List", "List ::= ;", "List ::= List ;"]

/-- The grammar of runs of semicolons. -/
def semicolons : Grammar where
  nonterminals := #["Goal", "List"]
  productions := #[⟨0, [.nonterminal 1]⟩, ⟨1, [.terminal .semicolon]⟩,
    ⟨1, [.nonterminal 1, .terminal .semicolon]⟩]

theorem semicolons_ofRules : ofRules semicolonRules = .ok semicolons := by decide +kernel

/-- The four states of the grammar of runs of semicolons. -/
def semicolonGraph : ItemGraph :=
  let blank := Array.replicate semicolons.edgeWidth none
  { kernels := #[[⟨0, 0⟩], [⟨1, 1⟩], [⟨0, 1⟩, ⟨2, 1⟩], [⟨2, 2⟩]]
    edges := #[
      (blank.setIfInBounds (Symbol.terminal .semicolon).key (some 1)).setIfInBounds
        (Symbol.nonterminal 1).key (some 2),
      blank,
      blank.setIfInBounds (Symbol.terminal .semicolon).key (some 3),
      blank] }

set_option maxRecDepth 10000 in
theorem semicolons_itemGraph : semicolons.itemGraph = semicolonGraph := by cbv

theorem semicolons_conflicts : (GrammarIndex.of semicolons).tables.stats.conflicts = {} := by
  have hgraph : (GrammarIndex.of semicolons).grammar.itemGraph = semicolonGraph :=
    semicolons_itemGraph
  unfold GrammarIndex.tables
  dsimp only
  rw [hgraph]
  decide +kernel

theorem semicolons_startIsolated : semicolons.StartIsolated := by
  intro start hstart
  obtain rfl : Production.mk 0 [.nonterminal 1] = start := by simpa [semicolons] using hstart
  decide

theorem semicolons_sentence : semicolons.Sentence [.semicolon, .semicolon] := by
  have hbase : semicolons.productions[1]? = some ⟨1, [.terminal .semicolon]⟩ := rfl
  have hmore : semicolons.productions[2]? =
      some ⟨1, [.nonterminal 1, .terminal .semicolon]⟩ := rfl
  have hone : semicolons.Yields [.nonterminal 1] ([.semicolon] ++ []) :=
    .nonterminal hbase (.single_terminal .semicolon) .nil
  exact .nonterminal hmore (hone.append (.single_terminal .semicolon)) .nil

theorem semicolons_accepted :
    ofRules semicolonRules = .ok semicolons ∧
      Automaton.Accepts (ofGrammar semicolons) ⟨[0], [.semicolon, .semicolon]⟩ :=
  ⟨semicolons_ofRules, sentence_accepted semicolons_ofRules rfl semicolons_startIsolated
    (by rw [semicolons_conflicts]) (by rw [semicolons_conflicts]) semicolons_sentence⟩

end Grammar

end AspectLang
