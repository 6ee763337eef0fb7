import AspectLang.Proofs.Automaton.SententialForms
import Mathlib.Order.Iterate

/-! # What the computation of first sets comes to

`Grammar.firstSets` goes through the productions in rounds.  Every round that changes something
adds an entry, so after no more rounds than there are entries a round changes nothing
(`FirstSets.exists_iterate`): the rounds end, and the fuel is never what ends them.  Together with
the exactness of closed sets this says what is computed for every grammar that rules describe, the
one without rules included (`Grammar.first_sets_exact`). -/

namespace AspectLang

namespace FirstSets

variable {f : FirstSets} {g : Grammar} {productions : Array Production}

/-! ### Rounds -/

/-- Rounds that change something go on until one changes nothing, and with enough fuel that is
where `saturate` ends. -/
theorem exists_iterate {count fuel : Nat}
    (hproductions : ∀ p ∈ productions, ∀ s ∈ p.rhs, g.HasSymbol s) (hf : f.Sized count)
    (hroom : f.room count < fuel) :
    ∃ n ≤ f.room count, saturate productions fuel f = (round productions)^[n] f ∧
      round productions ((round productions)^[n] f) = (round productions)^[n] f ∧
      ∀ m < n, round productions ((round productions)^[m] f) ≠ (round productions)^[m] f := by
  induction fuel generalizing f with
  | zero => exact absurd hroom (Nat.not_lt_zero _)
  | succ fuel ih =>
      have hlist : ∀ p ∈ productions.toList, ∀ s ∈ p.rhs, g.HasSymbol s :=
        fun p hp => hproductions p (Array.mem_toList_iff.mp hp)
      obtain ⟨hsized, hgrows, -⟩ := round_spec hlist hf
      rw [Array.foldl_toList] at hsized hgrows
      change (round productions f).Sized count at hsized
      change f.Grows (round productions f) at hgrows
      by_cases hsame : round productions f = f
      · refine ⟨0, Nat.zero_le _, ?_, hsame, fun m hm => absurd hm (Nat.not_lt_zero m)⟩
        unfold saturate
        exact if_pos hsame
      · have hless := hgrows.room_lt hf hsized hsame
        obtain ⟨n, hn, hsaturate, hfixed, hbefore⟩ := ih hsized (by omega)
        refine ⟨n + 1, by omega, ?_, ?_, fun m hm => ?_⟩
        · unfold saturate
          rw [Function.iterate_succ_apply, ← hsaturate]
          exact if_neg hsame
        · rw [Function.iterate_succ_apply]
          exact hfixed
        · cases m with
          | zero => exact hsame
          | succ m =>
              rw [Function.iterate_succ_apply]
              exact hbefore m (by omega)

/-- The sets before the first round: nothing vanishes, and nothing begins with a terminal. -/
def none (count : Nat) : FirstSets := ⟨Array.replicate count false, Array.replicate count 0⟩

theorem firstOf_none (count id : Nat) : (none count).firstOf id = 0 := by
  unfold firstOf none
  rcases Nat.lt_or_ge id count with hlt | hge
  · simp [hlt]
  · simp [Nat.not_lt.mpr hge]

theorem sized_none (count : Nat) : (none count).Sized count := by
  refine ⟨Array.size_replicate, Array.size_replicate, fun id => ?_⟩
  rw [firstOf_none]
  exact KindSet.proper_zero

/-- Every entry of a set of a run of symbols is a terminal. -/
theorem exists_kind_of_has {count : Nat} (hf : f.Sized count) {symbols : List Symbol}
    {column : Nat} (h : (f.ofSymbols symbols).1.has column = true) :
    ∃ t : TokenKind, t.column = column := by
  induction symbols with
  | nil => simp [ofSymbols] at h
  | cons s rest ih =>
      cases s with
      | terminal k =>
          rw [ofSymbols, KindSet.has_ofKind, decide_eq_true_eq] at h
          exact ⟨k, h⟩
      | nonterminal id =>
          have hown : (f.firstOf id).has column = true → ∃ t : TokenKind, t.column = column :=
            fun hid => TokenKind.exists_column (hf.proper id column hid)
          unfold ofSymbols at h
          split at h
          · rw [KindSet.has_or, Bool.or_eq_true] at h
            exact h.elim hown ih
          · exact hown h

/-- A run of symbols can vanish if and only if every one of them can. -/
theorem ofSymbols_vanishes_iff (f : FirstSets) (symbols : List Symbol) :
    (f.ofSymbols symbols).2 = true ↔ ∀ s ∈ symbols, (f.ofSymbols [s]).2 = true := by
  induction symbols with
  | nil => simp [ofSymbols]
  | cons s rest ih =>
      rw [List.forall_mem_cons, ← ih]
      change (f.ofSymbols ([s] ++ rest)).2 = true ↔ _
      rw [ofSymbols_append]
      by_cases hs : (f.ofSymbols [s]).2 = true
      · rw [if_pos hs]
        exact (and_iff_right hs).symm
      · rw [if_neg hs]
        exact ⟨fun h => absurd h hs, fun h => absurd h.1 hs⟩

end FirstSets

namespace Grammar

variable {g : Grammar} {symbols : List Symbol} {t : TokenKind}

/-! ### Grammars read from rules -/

/-- In a grammar read from rules every symbol has a place, also when there are no rules. -/
theorem hasSymbol_of_ofRules {rules : List String} (h : ofRules rules = .ok g) :
    ∀ p ∈ g.productions, ∀ s ∈ p.rhs, g.HasSymbol s := by
  cases hempty : g.productions.isEmpty with
  | false => exact (wellFormed_of_ofRules h hempty).hasSymbol
  | true =>
      rw [Array.isEmpty_iff] at hempty
      simp [hempty]

/-- Without productions a form derives itself only. -/
theorem Derives.eq_of_isEmpty {form : List Symbol} (hempty : g.productions.isEmpty = true)
    (h : g.Derives symbols form) : form = symbols := by
  induction h with
  | refl => rfl
  | tail _ hstep _ =>
      obtain ⟨before, after, hp⟩ := hstep
      rw [Array.isEmpty_iff] at hempty
      simp [hempty] at hp

/-- What a run of symbols can vanish to and begin with, for a grammar read from rules. -/
theorem ofSymbols_exact {rules : List String} (hrules : ofRules rules = .ok g)
    (symbols : List Symbol) :
    ((g.firstSets.ofSymbols symbols).2 = true ↔ g.Derives symbols []) ∧
      ∀ t, (g.firstSets.ofSymbols symbols).1.has t.column = true ↔ g.CanBegin symbols t := by
  cases hempty : g.productions.isEmpty with
  | false =>
      have hg := wellFormed_of_ofRules hrules hempty
      exact ⟨hg.vanishes_iff, fun t => hg.has_first_iff⟩
  | true =>
      -- no more is computed than what is derived, whatever the productions are
      refine ⟨⟨fun h => ?_, fun h => ?_⟩, fun t => ⟨fun h => ?_, fun ⟨rest, h⟩ => ?_⟩⟩
      · have hbounds := FirstBound.bounds_firstSets (g.derivedBound_allows .eof)
        exact derives_of_empties ((hbounds.ofSymbols symbols).1 h)
      · rw [← h.eq_of_isEmpty hempty]
        rfl
      · have hbounds := FirstBound.bounds_firstSets (g.derivedBound_allows t)
        exact canBegin_of_starts ((hbounds.ofSymbols symbols).2 h)
      · rw [← h.eq_of_isEmpty hempty]
        exact KindSet.has_ofKind_self t

theorem ofSymbolsThen_exact {rules : List String} (hrules : ofRules rules = .ok g)
    (hsized : g.firstSets.Sized g.nonterminals.size) (symbols : List Symbol) (tail : KindSet)
    (column : Nat) :
    (g.firstSets.ofSymbolsThen symbols tail).has column = true ↔
      (∃ t, t.column = column ∧ g.CanBegin symbols t) ∨
        (∀ s ∈ symbols, g.Derives [s] []) ∧ tail.has column = true := by
  have hown : (g.firstSets.ofSymbols symbols).1.has column = true ↔
      ∃ t, t.column = column ∧ g.CanBegin symbols t := by
    constructor
    · intro h
      obtain ⟨t, rfl⟩ := FirstSets.exists_kind_of_has hsized h
      exact ⟨t, rfl, ((ofSymbols_exact hrules symbols).2 t).mp h⟩
    · rintro ⟨t, rfl, h⟩
      exact ((ofSymbols_exact hrules symbols).2 t).mpr h
  have hvanishes : (g.firstSets.ofSymbols symbols).2 = true ↔ ∀ s ∈ symbols, g.Derives [s] [] := by
    rw [FirstSets.ofSymbols_vanishes_iff]
    exact forall₂_congr fun s _ => (ofSymbols_exact hrules [s]).1
  rw [FirstSets.has_ofSymbolsThen, hown, hvanishes]

/-- **First sets are exact.**  For every grammar read from rules, rounds through the productions,
begun with empty sets, change something until, after no more rounds than there are entries, one
changes nothing, and what is reached there are the first sets.  A nonterminal is marked in them as
vanishing if and only if it derives the empty form, and its set has a terminal if and only if it
derives a form that begins with the terminal.  A run of symbols with a set behind it begins with
what begins a form that the run derives, and with what is in the set if every symbol of the run can
vanish, and with nothing else. -/
theorem first_sets_exact {rules : List String} (hrules : ofRules rules = .ok g) :
    (∃ n ≤ g.nonterminals.size * (TokenKind.columnCount + 1),
      g.firstSets = (FirstSets.round g.productions)^[n] (.none g.nonterminals.size) ∧
      FirstSets.round g.productions g.firstSets = g.firstSets ∧
      ∀ m < n, FirstSets.round g.productions
          ((FirstSets.round g.productions)^[m] (.none g.nonterminals.size)) ≠
        (FirstSets.round g.productions)^[m] (.none g.nonterminals.size)) ∧
    (∀ id, g.firstSets.isNullable id = true ↔ g.Derives [.nonterminal id] []) ∧
    (∀ id t, (g.firstSets.firstOf id).has t.column = true ↔ g.CanBegin [.nonterminal id] t) ∧
    ∀ symbols tail column, (g.firstSets.ofSymbolsThen symbols tail).has column = true ↔
      (∃ t, t.column = column ∧ g.CanBegin symbols t) ∨
        (∀ s ∈ symbols, g.Derives [s] []) ∧ tail.has column = true := by
  have hsymbols := hasSymbol_of_ofRules hrules
  have hstart := FirstSets.sized_none g.nonterminals.size
  have hroom := FirstSets.room_le g.nonterminals.size (.none g.nonterminals.size)
  have hsized := (FirstSets.saturate_spec hsymbols hstart (Nat.lt_succ_of_le hroom)).1
  obtain ⟨n, hn, hsaturate, hfixed, hbefore⟩ :=
    FirstSets.exists_iterate hsymbols hstart (Nat.lt_succ_of_le hroom)
  have hfirst : g.firstSets =
      (FirstSets.round g.productions)^[n] (.none g.nonterminals.size) := hsaturate
  have hnonterminal := FirstSets.ofSymbols_nonterminal g.firstSets
  refine ⟨⟨n, hn.trans hroom, hfirst, ?_, hbefore⟩, fun id => ?_, fun id t => ?_, ?_⟩
  · rw [hfirst]
    exact hfixed
  · rw [← (hnonterminal id).1]
    exact (ofSymbols_exact hrules _).1
  · rw [← (hnonterminal id).2]
    exact (ofSymbols_exact hrules _).2 t
  · exact ofSymbolsThen_exact hrules hsized

/-- Lists that nest to the left and may vanish, also item by item. -/
def nestedListRules : List String :=
  ["Goal ::= List ;", "List ::= List Item", "List ::=", "Item ::= List", "Item ::= , Item ."]

/-- The grammar of nested lists. -/
def nestedLists : Grammar where
  nonterminals := #["Goal", "List", "Item"]
  productions := #[⟨0, [.nonterminal 1, .terminal .semicolon]⟩,
    ⟨1, [.nonterminal 1, .nonterminal 2]⟩, ⟨1, []⟩, ⟨2, [.nonterminal 1]⟩,
    ⟨2, [.terminal .comma, .nonterminal 2, .terminal .dot]⟩]

theorem first_sets_of_nestedLists :
    ofRules nestedListRules = .ok nestedLists ∧ nestedLists.Derives [.nonterminal 2] [] ∧
      nestedLists.CanBegin [.nonterminal 0] .comma ∧
      nestedLists.CanBegin [.nonterminal 1, .nonterminal 2, .terminal .semicolon] .semicolon ∧
      ¬ nestedLists.CanBegin [.nonterminal 1] .semicolon := by
  have hrules : ofRules nestedListRules = .ok nestedLists := by decide +kernel
  obtain ⟨-, hnullable, hfirst, hthen⟩ := first_sets_exact hrules
  refine ⟨hrules, (hnullable 2).mp (by decide +kernel), (hfirst 0 .comma).mp (by decide +kernel),
    ?_, fun h => ?_⟩
  · have hhas : (nestedLists.firstSets.ofSymbolsThen
        [.nonterminal 1, .nonterminal 2, .terminal .semicolon] 0).has
          TokenKind.semicolon.column = true := by decide +kernel
    obtain ⟨t, ht, hbegin⟩ | ⟨-, htail⟩ := (hthen _ _ _).mp hhas
    · exact TokenKind.column_injective ht ▸ hbegin
    · simp at htail
  · exact absurd ((hfirst 1 .semicolon).mpr h) (by decide +kernel)

end Grammar

end AspectLang
