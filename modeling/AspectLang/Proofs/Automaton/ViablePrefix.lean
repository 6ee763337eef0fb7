import AspectLang.Automaton.Feed
import AspectLang.Proofs.Automaton.Proposals

/-! # Stacks of states spell viable prefixes

A stack of states is a path of edges from the start, and spells the symbols of those edges
(`Spells`).  An item of the topmost state has what stands before its dot at the end of the
spelled symbols, and its production began in the state below them (`Spells.item`).  So a
completed item can always be reduced, whatever decisions the tables rest on: `Spells.shift`,
`Spells.reduce` and `Spells.accept` say what the actions of the tables find and leave.  The stack
goes on spelling symbols that derive what was shifted (`Reads`). -/

namespace AspectLang

open GrammarIndex

namespace Grammar

variable {g : Grammar} {states : List Nat} {symbols : List Symbol}

/-! ### Paths of edges -/

/-- A stack of states, the topmost first, spells symbols, the last one first. -/
inductive Spells (g : Grammar) : List Nat → List Symbol → Prop
  | start : Spells g [0] []
  | step {state target : Nat} {below : List Nat} {symbols : List Symbol} {s : Symbol} :
      Spells g (state :: below) symbols → g.HasSymbol s →
        g.itemGraph.edge? state s = some target → Spells g (target :: state :: below) (s :: symbols)

theorem Spells.kernel (hg : g.WellFormed) (h : g.Spells states symbols) :
    ∃ state below kernel, states = state :: below ∧ g.itemGraph.kernels[state]? = some kernel := by
  induction h with
  | start => exact ⟨0, [], _, rfl, hg.kernels_zero⟩
  | step _ hs hedge ih =>
      obtain ⟨state, below, kernel, heq, hk⟩ := ih
      obtain ⟨rfl, rfl⟩ := List.cons.inj heq
      obtain ⟨kernel', hk', _⟩ := hg.kernel_of_edge hk hs hedge
      exact ⟨_, _, kernel', rfl, hk'⟩

theorem Spells.kernel_top (hg : g.WellFormed) {state : Nat} {below : List Nat}
    (h : g.Spells (state :: below) symbols) :
    ∃ kernel, g.itemGraph.kernels[state]? = some kernel := by
  obtain ⟨_, _, kernel, heq, hk⟩ := h.kernel hg
  obtain ⟨rfl, rfl⟩ := List.cons.inj heq
  exact ⟨kernel, hk⟩

theorem Item.advance_injective {i j : Item} (h : i.advance = j.advance) : i = j := by
  obtain ⟨production, dot⟩ := i
  obtain ⟨production', dot'⟩ := j
  simpa [Item.advance] using h

/-- A stack of states spells one row of symbols only: all edges into a state have the same symbol. -/
theorem Spells.unique (hg : g.WellFormed) {symbols' : List Symbol} (h : g.Spells states symbols)
    (h' : g.Spells states symbols') : symbols = symbols' := by
  induction h generalizing symbols' with
  | start =>
      cases h' with
      | start => rfl
  | @step state target below symbols s hprevious hs hedge ih =>
      cases h' with
      | @step _ _ _ symbols' s' hprevious' hs' hedge' =>
          obtain ⟨kernel, hk⟩ := hprevious.kernel_top hg
          obtain ⟨advanced, htarget, hitems, i, hi, hnext⟩ := hg.kernel_of_edge hk hs hedge
          obtain ⟨advanced', htarget', hitems', _⟩ := hg.kernel_of_edge hk hs' hedge'
          obtain rfl : advanced = advanced' := Option.some.inj (htarget.symm.trans htarget')
          obtain ⟨j, _, hnext', hadvance⟩ :=
            (hitems' i.advance).mp ((hitems i.advance).mpr ⟨i, hi, hnext, rfl⟩)
          rw [Item.advance_injective hadvance, hnext] at hnext'
          rw [ih hprevious', Option.some.inj hnext']

/-- What stands before the dot of an item was spelled last, and the production of the item began
in the state before it. -/
theorem Spells.item (hg : g.WellFormed) {state : Nat} {below : List Nat} {kernel : List Item}
    (h : g.Spells (state :: below) symbols) (hk : g.itemGraph.kernels[state]? = some kernel)
    {p dot : Nat} (hi : g.ItemOf kernel ⟨p, dot⟩) :
    ∃ origin rest before first, (state :: below).drop dot = origin :: rest ∧
      symbols = ((g.rhsOf p).take dot).reverse ++ before ∧ g.Spells (origin :: rest) before ∧
      g.itemGraph.kernels[origin]? = some first ∧ g.ItemOf first ⟨p, 0⟩ := by
  induction dot generalizing state below kernel symbols with
  | zero => exact ⟨state, below, symbols, kernel, rfl, by simp, h, hk, hi⟩
  | succ dot ih =>
      -- an item whose dot moved is in the kernel, so the stack has an edge below it
      have hmem : (⟨p, dot + 1⟩ : Item) ∈ kernel := by
        cases hi with
        | kernel hmem => exact hmem
      cases h with
      | start =>
          rw [hg.kernels_zero, Option.some.injEq] at hk
          subst hk
          simp at hmem
      | @step previous _ rest symbols s hprevious hs hedge =>
          obtain ⟨kernel', hk'⟩ := hprevious.kernel_top hg
          obtain ⟨advanced, hadvanced, hitems, _⟩ := hg.kernel_of_edge hk' hs hedge
          rw [hk, Option.some.injEq] at hadvanced
          subst hadvanced
          obtain ⟨⟨q, d⟩, hj, hnext, hadv⟩ := (hitems _).mp hmem
          simp only [Item.advance, Item.mk.injEq, Nat.add_right_cancel_iff] at hadv
          obtain ⟨rfl, rfl⟩ := hadv
          obtain ⟨origin, states, before, first, hdrop, hsymbols, hspells, hfirst, hstart⟩ :=
            ih hprevious hk' hj
          refine ⟨origin, states, before, first, ?_, ?_, hspells, hfirst, hstart⟩
          · rw [List.drop_succ_cons]
            exact hdrop
          · have htake : (g.rhsOf q).take (d + 1) = (g.rhsOf q).take d ++ [s] := by
              rw [List.take_add_one]
              unfold next? at hnext
              rw [hnext]
              rfl
            rw [htake, List.reverse_append, hsymbols]
            rfl

/-- A kernel on the stack has an item at the start of a production only at the very bottom. -/
theorem Spells.eq_start (hg : g.WellFormed) {state : Nat} {below : List Nat} {kernel : List Item}
    (h : g.Spells (state :: below) symbols) (hk : g.itemGraph.kernels[state]? = some kernel)
    {p : Nat} (hmem : ⟨p, 0⟩ ∈ kernel) : p = 0 ∧ symbols = [] := by
  cases h with
  | start =>
      rw [hg.kernels_zero, Option.some.injEq] at hk
      subst hk
      simp only [List.mem_singleton, Item.mk.injEq] at hmem
      exact ⟨hmem.1, rfl⟩
  | step hprevious hs hedge =>
      obtain ⟨kernel', hk'⟩ := hprevious.kernel_top hg
      obtain ⟨advanced, hadvanced, hitems, _⟩ := hg.kernel_of_edge hk' hs hedge
      rw [hk, Option.some.injEq] at hadvanced
      subst hadvanced
      obtain ⟨_, _, _, hadv⟩ := (hitems _).mp hmem
      simp [Item.advance] at hadv

/-- Where a production other than the start begins, its left side leads on. -/
theorem Spells.goto (hg : g.WellFormed) {state : Nat} {below : List Nat} {kernel : List Item}
    (h : g.Spells (state :: below) symbols) (hk : g.itemGraph.kernels[state]? = some kernel)
    {p : Nat} {production : Production} (hp : g.productions[p]? = some production)
    (hi : g.ItemOf kernel ⟨p, 0⟩) (hne : p ≠ 0) :
    ∃ target, g.itemGraph.edge? state (.nonterminal production.lhs) = some target := by
  cases hi with
  | kernel hmem => exact absurd (h.eq_start hg hk hmem).1 hne
  | start hj hnext hq =>
      rw [hp, Option.some.injEq] at hq
      subst hq
      exact hg.edge_of_next hk hj hnext

/-- The start production begins at the bottom only. -/
theorem Spells.start_bottom (hg : g.WellFormed) (hstart : g.StartIsolated) {state : Nat}
    {below : List Nat} {kernel : List Item} (h : g.Spells (state :: below) symbols)
    (hk : g.itemGraph.kernels[state]? = some kernel) (hi : g.ItemOf kernel ⟨0, 0⟩) :
    symbols = [] := by
  cases hi with
  | kernel hmem => exact (h.eq_start hg hk hmem).2
  | @start j _ production hj hnext hp =>
      unfold next? rhsOf at hnext
      cases hq : g.productions[j.production]? with
      | none => simp [hq] at hnext
      | some q =>
          rw [hq] at hnext
          exact absurd (List.mem_of_getElem? hnext)
            (hstart production hp q (Array.mem_of_getElem? hq))

/-! ### What the actions of the tables do to a stack -/

section

variable {state : Nat} {below : List Nat} {kind : TokenKind} (hg : g.WellFormed)
  (hstart : g.StartIsolated) (h : g.Spells (state :: below) symbols)

include hg hstart h

theorem Spells.shift {target : Nat}
    (haction : (GrammarIndex.of g).tables.action state kind = .shift target) :
    g.Spells (target :: state :: below) (.terminal kind :: symbols) := by
  obtain ⟨kernel, hk⟩ := h.kernel_top hg
  obtain ⟨hkind, hedge⟩ := edge_of_shift hg hk hstart haction
  exact .step h hkind hedge

/-- No production mentions the end of input, so it is never shifted. -/
theorem Spells.shift_ne_eof (heof : g.LacksEof) {target : Nat}
    (haction : (GrammarIndex.of g).tables.action state kind = .shift target) : kind ≠ .eof := by
  rintro rfl
  obtain ⟨kernel, hk⟩ := h.kernel_top hg
  obtain ⟨hkind, hedge⟩ := edge_of_shift hg hk hstart haction
  obtain ⟨_, _, _, i, _, hnext⟩ := hg.kernel_of_edge hk (s := .terminal .eof) hkind hedge
  unfold next? rhsOf at hnext
  cases hq : g.productions[i.production]? with
  | none => simp [hq] at hnext
  | some q =>
      rw [hq] at hnext
      exact heof q (Array.mem_of_getElem? hq) (List.mem_of_getElem? hnext)

/-- A reduction in the table finds the right side of its production spelled, and its left side
leads on from the state in which the production began. -/
theorem Spells.reduce {p : Nat}
    (haction : (GrammarIndex.of g).tables.action state kind = .reduce p) :
    ∃ production origin rest before target kernel, g.productions[p]? = some production ∧
      (state :: below).drop production.rhs.length = origin :: rest ∧
      symbols = production.rhs.reverse ++ before ∧
      (GrammarIndex.of g).tables.goto? origin production.lhs = some target ∧
      g.Spells (origin :: rest) before ∧ g.itemGraph.kernels[origin]? = some kernel ∧
      g.ItemOf kernel ⟨p, 0⟩ ∧
      g.Spells (target :: origin :: rest) (.nonterminal production.lhs :: before) := by
  obtain ⟨kernel, hk⟩ := h.kernel_top hg
  obtain ⟨hne, follow, hi, _⟩ := completed_of_reduce hg hk hstart haction
  have hitem := (mem_stateItems_spec hg (lookaheads_stable hg).1 hk hi).1
  have hlt := (hasItem_of_itemOf hg hk hitem).1
  obtain ⟨production, hp⟩ : ∃ production, g.productions[p]? = some production :=
    ⟨_, Array.getElem?_eq_getElem hlt⟩
  obtain ⟨origin, rest, before, first, hdrop, hsymbols, hbefore, hfirst, hbegins⟩ :=
    h.item hg hk hitem
  obtain ⟨target, hedge⟩ := hbefore.goto hg hfirst hp hbegins hne
  rw [rhsOf_eq hp] at hdrop hsymbols
  rw [List.take_length] at hsymbols
  have hlhs : g.HasSymbol (.nonterminal production.lhs) :=
    hg.lhs_lt production (Array.mem_of_getElem? hp)
  exact ⟨production, origin, rest, before, target, first, hp, hdrop, hsymbols,
    (goto?_eq hfirst _).trans hedge, hbefore, hfirst, hbegins, .step hbefore hlhs hedge⟩

/-- At acceptance exactly the start production is spelled. -/
theorem Spells.accept (haction : (GrammarIndex.of g).tables.action state kind = .accept) :
    kind = .eof ∧ symbols = (g.rhsOf 0).reverse := by
  obtain ⟨kernel, hk⟩ := h.kernel_top hg
  obtain ⟨rfl, follow, hi, _⟩ := completed_of_accept hg hk hstart haction
  have hitem := (mem_stateItems_spec hg (lookaheads_stable hg).1 hk hi).1
  obtain ⟨origin, rest, before, first, _, hsymbols, hbefore, hfirst, hbegins⟩ :=
    h.item hg hk hitem
  obtain rfl := hbefore.start_bottom hg hstart hfirst hbegins
  rw [List.take_length, List.append_nil] at hsymbols
  exact ⟨rfl, hsymbols⟩

end

/-! ### What a stack has read -/

/-- The stack spells symbols that derive the kinds that were shifted. -/
def Reads (g : Grammar) (states : List Nat) (w : List TokenKind) : Prop :=
  ∃ symbols, g.Spells states symbols ∧ g.Yields symbols.reverse w

theorem reads_start (g : Grammar) : g.Reads [0] [] := ⟨[], .start, .nil⟩

theorem Spells.length_eq (h : g.Spells states symbols) : states.length = symbols.length + 1 := by
  induction h with
  | start => rfl
  | step _ _ _ ih => exact congrArg (· + 1) ih

theorem Spells.ne_nil (h : g.Spells states symbols) : states ≠ [] := by
  cases h <;> simp

theorem Reads.ne_nil {w : List TokenKind} (h : g.Reads states w) : states ≠ [] := by
  obtain ⟨_, hspells, _⟩ := h
  exact hspells.ne_nil

section

variable {state : Nat} {below : List Nat} {w : List TokenKind} {kind : TokenKind}
  (hg : g.WellFormed) (hstart : g.StartIsolated) (h : g.Reads (state :: below) w)

include hg hstart h

theorem Reads.shift {target : Nat}
    (haction : (GrammarIndex.of g).tables.action state kind = .shift target) :
    g.Reads (target :: state :: below) (w ++ [kind]) := by
  obtain ⟨symbols, hspells, hyields⟩ := h
  refine ⟨.terminal kind :: symbols, hspells.shift hg hstart haction, ?_⟩
  rw [List.reverse_cons]
  exact hyields.append (.single_terminal kind)

theorem Reads.shift_ne_eof (heof : g.LacksEof) {target : Nat}
    (haction : (GrammarIndex.of g).tables.action state kind = .shift target) : kind ≠ .eof := by
  obtain ⟨symbols, hspells, _⟩ := h
  exact hspells.shift_ne_eof hg hstart heof haction

/-- A reduction in the table finds enough states, and its left side leads on. -/
theorem Reads.reduce {p : Nat}
    (haction : (GrammarIndex.of g).tables.action state kind = .reduce p) :
    ∃ production origin rest target, g.productions[p]? = some production ∧
      (state :: below).drop production.rhs.length = origin :: rest ∧
      (GrammarIndex.of g).tables.goto? origin production.lhs = some target ∧
      g.Reads (target :: origin :: rest) w := by
  obtain ⟨symbols, hspells, hyields⟩ := h
  obtain ⟨production, origin, rest, before, target, _, hp, hdrop, rfl, hgoto, _, _, _, hafter⟩ :=
    hspells.reduce hg hstart haction
  refine ⟨production, origin, rest, target, hp, hdrop, hgoto,
    .nonterminal production.lhs :: before, hafter, ?_⟩
  rw [List.reverse_append, List.reverse_reverse] at hyields
  rw [List.reverse_cons]
  exact hyields.reduce hp

/-- At acceptance the start production was spelled, so what was shifted is a sentence. -/
theorem Reads.accept (haction : (GrammarIndex.of g).tables.action state kind = .accept) :
    kind = .eof ∧ g.Sentence w := by
  obtain ⟨symbols, hspells, hyields⟩ := h
  obtain ⟨rfl, rfl⟩ := hspells.accept hg hstart haction
  rw [List.reverse_reverse] at hyields
  exact ⟨rfl, hyields⟩

end

end Grammar

end AspectLang
