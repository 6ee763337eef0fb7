import AspectLang.Proofs.Automaton.StateItems
import Mathlib.Algebra.BigOperators.Group.Finset.Basic
import Mathlib.Algebra.Order.BigOperators.Group.Finset

/-! # What first sets contain

Sets of terminals only grow, and every round that changes something adds a column, so the fuel
of `FirstSets.saturate` is enough to reach sets that no production adds to.  Such sets contain
what can begin a derivation (`WellFormed.firstSets_complete`): a nonterminal that derives the
empty sequence is nullable, and one that derives a sequence has its first kind in its set. -/

namespace AspectLang

/-! ### Sets of columns -/

namespace KindSet

@[simp] theorem has_or (a b : KindSet) (c : Nat) : KindSet.has (a ||| b) c = (a.has c || b.has c) :=
  Nat.testBit_or a b c

@[simp] theorem has_zero (c : Nat) : KindSet.has 0 c = false := Nat.zero_testBit c

theorem has_ofKind (k : TokenKind) (c : Nat) : (ofKind k).has c = decide (k.column = c) := by
  unfold ofKind has
  rw [Nat.one_shiftLeft, Nat.testBit_two_pow]

theorem has_ofKind_self (k : TokenKind) : (ofKind k).has k.column = true := by
  simp [has_ofKind]

theorem ext {a b : KindSet} (h : ∀ c, a.has c = b.has c) : a = b := Nat.eq_of_testBit_eq h

/-- Every column of one set is in the other. -/
def Within (a b : KindSet) : Prop := ∀ c, a.has c = true → b.has c = true

/-- Every column of the set is below a bound. -/
def Bounded (s : KindSet) (bound : Nat) : Prop := ∀ c, s.has c = true → c < bound

/-- Every column of the set is one of the tables. -/
abbrev Proper (s : KindSet) : Prop := s.Bounded TokenKind.columnCount

theorem Within.refl (a : KindSet) : a.Within a := fun _ h => h

theorem Within.trans {a b c : KindSet} (hab : a.Within b) (hbc : b.Within c) : a.Within c :=
  fun column h => hbc column (hab column h)

theorem within_or_left (a b : KindSet) : a.Within (a ||| b) := fun c h => by simp [h]

theorem within_or_right (a b : KindSet) : b.Within (a ||| b) := fun c h => by simp [h]

theorem Within.or {a b c : KindSet} (ha : a.Within c) (hb : b.Within c) : Within (a ||| b) c := by
  intro column h
  rw [has_or, Bool.or_eq_true] at h
  exact h.elim (ha column) (hb column)

theorem Within.antisymm {a b : KindSet} (hab : a.Within b) (hba : b.Within a) : a = b :=
  ext fun c => Bool.eq_iff_iff.mpr ⟨hab c, hba c⟩

theorem or_eq_left_iff {a b : KindSet} : a ||| b = a ↔ b.Within a := by
  constructor
  · intro h
    have := within_or_right a b
    rwa [h] at this
  · intro h
    exact ((Within.refl a).or h).antisymm (within_or_left a b)

theorem proper_zero : Proper 0 := fun c h => by simp at h

theorem proper_ofKind {k : TokenKind} (h : k ∈ TokenKind.all) : (ofKind k).Proper := by
  intro c hc
  rw [has_ofKind, decide_eq_true_eq] at hc
  exact hc ▸ Grammar.column_lt_of_mem_all h

theorem Bounded.or {a b : KindSet} {bound : Nat} (ha : a.Bounded bound) (hb : b.Bounded bound) :
    Bounded (a ||| b) bound := by
  intro c h
  rw [has_or, Bool.or_eq_true] at h
  exact h.elim (ha c) (hb c)

theorem Bounded.mono {s : KindSet} {bound bound' : Nat} (h : s.Bounded bound)
    (hle : bound ≤ bound') : s.Bounded bound' := fun c hc => Nat.lt_of_lt_of_le (h c hc) hle

/-- Number of columns below a bound that are not in the set. -/
def missing (s : KindSet) (bound : Nat) : Nat :=
  ((Finset.range bound).filter fun c => s.has c = false).card

theorem missing_le (s : KindSet) (bound : Nat) : s.missing bound ≤ bound := by
  have h := Finset.card_filter_le (Finset.range bound) fun c => s.has c = false
  rwa [Finset.card_range] at h

theorem Within.missing_le {a b : KindSet} (h : a.Within b) (bound : Nat) :
    b.missing bound ≤ a.missing bound := by
  refine Finset.card_le_card fun c hc => ?_
  rw [Finset.mem_filter] at hc ⊢
  refine ⟨hc.1, Bool.eq_false_iff.mpr fun ha => ?_⟩
  rw [h c ha] at hc
  exact absurd hc.2 (by simp)

/-- A set that grows below the bound misses fewer columns. -/
theorem Within.missing_lt {a b : KindSet} {bound : Nat} (h : a.Within b) (hne : a ≠ b)
    (hb : b.Bounded bound) : b.missing bound < a.missing bound := by
  obtain ⟨c, hbc, hac⟩ : ∃ c, b.has c = true ∧ a.has c = false := by
    by_contra hall
    refine hne (h.antisymm fun c hbc => ?_)
    by_contra hac
    exact hall ⟨c, hbc, Bool.eq_false_iff.mpr hac⟩
  refine Finset.card_lt_card ⟨?_, fun hsub => ?_⟩
  · intro d hd
    rw [Finset.mem_filter] at hd ⊢
    refine ⟨hd.1, Bool.eq_false_iff.mpr fun ha => ?_⟩
    rw [h d ha] at hd
    exact absurd hd.2 (by simp)
  · have hmem := hsub (Finset.mem_filter.mpr ⟨Finset.mem_range.mpr (hb c hbc), hac⟩)
    rw [Finset.mem_filter, hbc] at hmem
    exact absurd hmem.2 (by simp)

end KindSet

namespace FirstSets

variable {f f' : FirstSets} {g : Grammar}

/-- Whether a nonterminal can vanish. -/
def isNullable (f : FirstSets) (id : Nat) : Bool := f.nullable.getD id false

/-- The terminals that can begin what a nonterminal derives. -/
def firstOf (f : FirstSets) (id : Nat) : KindSet := f.first.getD id 0

/-- First sets of a given number of nonterminals, with columns of the tables only. -/
structure Sized (count : Nat) (f : FirstSets) : Prop where
  nullable : f.nullable.size = count
  first : f.first.size = count
  proper : ∀ id, (f.firstOf id).Proper

/-- First sets that contain others. -/
structure Grows (f f' : FirstSets) : Prop where
  nullable : ∀ id, f.isNullable id = true → f'.isNullable id = true
  first : ∀ id, (f.firstOf id).Within (f'.firstOf id)

theorem Grows.refl (f : FirstSets) : f.Grows f := ⟨fun _ h => h, fun _ => .refl _⟩

theorem Grows.trans {f'' : FirstSets} (h : f.Grows f') (h' : f'.Grows f'') : f.Grows f'' :=
  ⟨fun id hid => h'.nullable id (h.nullable id hid), fun id => (h.first id).trans (h'.first id)⟩

theorem Grows.antisymm {count : Nat} (hf : f.Sized count) (hf' : f'.Sized count)
    (h : f.Grows f') (h' : f'.Grows f) : f = f' := by
  have hnullable : f.nullable = f'.nullable := by
    refine Array.ext (hf.nullable.trans hf'.nullable.symm) fun id hid hid' => ?_
    have heq : f.isNullable id = f'.isNullable id :=
      Bool.eq_iff_iff.mpr ⟨h.nullable id, h'.nullable id⟩
    simpa [isNullable, hid, hid'] using heq
  have hfirst : f.first = f'.first := by
    refine Array.ext (hf.first.trans hf'.first.symm) fun id hid hid' => ?_
    have heq : f.firstOf id = f'.firstOf id := (h.first id).antisymm (h'.first id)
    simpa [firstOf, hid, hid'] using heq
  cases f
  cases f'
  simp_all

/-! ### Rounds -/

theorem proper_ofSymbols {count : Nat} (hf : f.Sized count) {symbols : List Symbol}
    (hsymbols : ∀ s ∈ symbols, g.HasSymbol s) : (f.ofSymbols symbols).1.Proper := by
  induction symbols with
  | nil => exact KindSet.proper_zero
  | cons s rest ih =>
      cases s with
      | terminal k => exact KindSet.proper_ofKind (hsymbols _ List.mem_cons_self)
      | nonterminal id =>
          unfold ofSymbols
          split
          · exact (hf.proper id).or (ih fun s hs => hsymbols s (List.mem_cons_of_mem _ hs))
          · exact hf.proper id

theorem isNullable_addProduction (f : FirstSets) (p : Production) (id : Nat) :
    (f.addProduction p).isNullable id =
      (f.isNullable id || ((f.ofSymbols p.rhs).2 && decide (p.lhs = id ∧ id < f.nullable.size))) := by
  unfold addProduction isNullable
  cases hvanishes : (f.ofSymbols p.rhs).2 with
  | false => simp [hvanishes]
  | true =>
      simp only [hvanishes, if_true, Array.getD_eq_getD_getElem?, Array.getElem?_setIfInBounds]
      by_cases hid : p.lhs = id
      · subst hid
        by_cases hlt : p.lhs < f.nullable.size <;> simp [hlt]
      · simp [hid]

theorem firstOf_addProduction (f : FirstSets) (p : Production) (id : Nat) :
    (f.addProduction p).firstOf id =
      if p.lhs = id ∧ id < f.first.size then f.firstOf id ||| (f.ofSymbols p.rhs).1
      else f.firstOf id := by
  unfold addProduction firstOf
  simp only [Array.getD_eq_getD_getElem?, Array.getElem?_modify]
  by_cases hid : p.lhs = id
  · subst hid
    by_cases hlt : p.lhs < f.first.size <;> simp [hlt]
  · simp [hid]

theorem grows_addProduction (f : FirstSets) (p : Production) : f.Grows (f.addProduction p) := by
  refine ⟨fun id hid => ?_, fun id => ?_⟩
  · rw [isNullable_addProduction, hid, Bool.true_or]
  · rw [firstOf_addProduction]
    split
    · exact KindSet.within_or_left _ _
    · exact .refl _

theorem Sized.addProduction {count : Nat} (hf : f.Sized count) {p : Production}
    (hp : ∀ s ∈ p.rhs, g.HasSymbol s) : (f.addProduction p).Sized count := by
  refine ⟨?_, ?_, fun id => ?_⟩
  · unfold FirstSets.addProduction
    dsimp only
    split
    · rw [Array.size_setIfInBounds, hf.nullable]
    · exact hf.nullable
  · unfold FirstSets.addProduction
    rw [Array.size_modify, hf.first]
  · rw [firstOf_addProduction]
    split
    · exact (hf.proper id).or (proper_ofSymbols hf hp)
    · exact hf.proper id

/-- A round only adds, and a production that it goes through adds nothing to its result when
the result is where it began. -/
theorem round_spec {count : Nat} {productions : List Production}
    (hproductions : ∀ p ∈ productions, ∀ s ∈ p.rhs, g.HasSymbol s) (hf : f.Sized count) :
    (productions.foldl addProduction f).Sized count ∧
      f.Grows (productions.foldl addProduction f) ∧
      (productions.foldl addProduction f = f → ∀ p ∈ productions, f.addProduction p = f) := by
  induction productions generalizing f with
  | nil => exact ⟨hf, .refl f, by simp⟩
  | cons p productions ih =>
      have hp := hproductions p List.mem_cons_self
      have hsized := hf.addProduction hp
      obtain ⟨hsized', hgrows, hfixed⟩ :=
        ih (fun q hq => hproductions q (List.mem_cons_of_mem p hq)) hsized
      refine ⟨hsized', (grows_addProduction f p).trans hgrows, fun heq q hq => ?_⟩
      rw [List.foldl_cons] at heq
      rw [heq] at hgrows
      have hsame : f.addProduction p = f :=
        (hgrows.antisymm hsized hf (grows_addProduction f p))
      rcases List.mem_cons.mp hq with rfl | hq
      · exact hsame
      · rw [hsame] at hfixed
        rw [hsame] at heq
        exact hfixed heq q hq

/-- Number of entries that can still be added. -/
def room (count : Nat) (f : FirstSets) : Nat :=
  ∑ id ∈ Finset.range count,
    ((if f.isNullable id then 0 else 1) + (f.firstOf id).missing TokenKind.columnCount)

theorem room_le (count : Nat) (f : FirstSets) :
    f.room count ≤ count * (TokenKind.columnCount + 1) := by
  unfold room
  refine (Finset.sum_le_card_nsmul _ _ (TokenKind.columnCount + 1) fun id _ => ?_).trans
    (by simp)
  have := (f.firstOf id).missing_le TokenKind.columnCount
  split <;> omega

theorem Grows.room_lt {count : Nat} (hf : f.Sized count) (hf' : f'.Sized count)
    (h : f.Grows f') (hne : f' ≠ f) : f'.room count < f.room count := by
  have hle : ∀ id, (if f'.isNullable id then 0 else 1) ≤ (if f.isNullable id then 0 else 1) := by
    intro id
    cases hn : f.isNullable id with
    | false => split <;> simp
    | true => simp [h.nullable id hn]
  refine Finset.sum_lt_sum (fun id _ => Nat.add_le_add (hle id) ((h.first id).missing_le _)) ?_
  by_contra hall
  -- without a strict step at some nonterminal the two are equal entry by entry
  have hsame : ∀ id < count, f.isNullable id = f'.isNullable id ∧ f.firstOf id = f'.firstOf id := by
    intro id hid
    have hnlt : ¬ (if f'.isNullable id then 0 else 1) +
          (f'.firstOf id).missing TokenKind.columnCount <
        (if f.isNullable id then 0 else 1) + (f.firstOf id).missing TokenKind.columnCount :=
      fun hlt => hall ⟨id, Finset.mem_range.mpr hid, hlt⟩
    have hn := hle id
    have hm := (h.first id).missing_le TokenKind.columnCount
    refine ⟨?_, by_contra fun hneq => ?_⟩
    · refine Bool.eq_iff_iff.mpr ⟨h.nullable id, fun hid' => by_contra fun hid => ?_⟩
      rw [if_pos hid', if_neg hid] at hnlt
      omega
    · have := (h.first id).missing_lt hneq (hf'.proper id)
      omega
  refine hne (Grows.antisymm hf' hf ⟨fun id hid => ?_, fun id => ?_⟩ h)
  · rcases Nat.lt_or_ge id count with hlt | hge
    · rw [(hsame id hlt).1, hid]
    · simp [isNullable, hf'.nullable, Nat.not_lt.mpr hge] at hid
  · rcases Nat.lt_or_ge id count with hlt | hge
    · rw [(hsame id hlt).2]
      exact .refl _
    · have hzero : f'.firstOf id = 0 := by simp [firstOf, hf'.first, Nat.not_lt.mpr hge]
      rw [hzero]
      exact fun c hc => by simp at hc

/-- With enough fuel the rounds end with sets that no production adds to. -/
theorem saturate_spec {count fuel : Nat} {productions : Array Production}
    (hproductions : ∀ p ∈ productions, ∀ s ∈ p.rhs, g.HasSymbol s) (hf : f.Sized count)
    (hroom : f.room count < fuel) :
    (saturate productions fuel f).Sized count ∧
      ∀ p ∈ productions, (saturate productions fuel f).addProduction p =
        saturate productions fuel f := by
  induction fuel generalizing f with
  | zero => exact absurd hroom (Nat.not_lt_zero _)
  | succ fuel ih =>
      have hlist : ∀ p ∈ productions.toList, ∀ s ∈ p.rhs, g.HasSymbol s :=
        fun p hp => hproductions p (Array.mem_toList_iff.mp hp)
      obtain ⟨hsized, hgrows, hfixed⟩ := round_spec hlist hf
      rw [Array.foldl_toList] at hsized hgrows hfixed
      unfold saturate round
      dsimp only
      split
      · rename_i heq
        exact ⟨hf, fun p hp => hfixed heq p (Array.mem_toList_iff.mpr hp)⟩
      · rename_i hne
        have hlt := hgrows.room_lt hf hsized hne
        exact ih hsized (by omega)

/-! ### Closed first sets -/

/-- First sets of a grammar that no production adds to. -/
structure Closed (g : Grammar) (f : FirstSets) : Prop where
  sized : f.Sized g.nonterminals.size
  fixed : ∀ p ∈ g.productions, f.addProduction p = f

theorem Closed.nullable (h : f.Closed g) (hg : g.WellFormed) {p : Production}
    (hp : p ∈ g.productions) (hvanishes : (f.ofSymbols p.rhs).2 = true) :
    f.isNullable p.lhs = true := by
  have hlt : p.lhs < f.nullable.size := by
    rw [h.sized.nullable]
    exact hg.lhs_lt p hp
  rw [← h.fixed p hp, isNullable_addProduction, hvanishes]
  simp [hlt]

theorem Closed.first (h : f.Closed g) (hg : g.WellFormed) {p : Production}
    (hp : p ∈ g.productions) : (f.ofSymbols p.rhs).1.Within (f.firstOf p.lhs) := by
  have hlt : p.lhs < f.first.size := by
    rw [h.sized.first]
    exact hg.lhs_lt p hp
  have heq := firstOf_addProduction f p p.lhs
  rw [h.fixed p hp, if_pos ⟨rfl, hlt⟩] at heq
  rw [heq]
  exact KindSet.within_or_right _ _

/-- A sequence begins as a set with its mark says: it has its first kind in the set, or it is
empty and the set is marked. -/
def Begins (first : KindSet × Bool) : List TokenKind → Prop
  | [] => first.2 = true
  | k :: _ => first.1.has k.column = true

/-- What symbols derive either vanishes, or begins with a terminal of their set. -/
theorem Closed.ofSymbols (h : f.Closed g) (hg : g.WellFormed) {symbols : List Symbol}
    {w : List TokenKind} (hw : g.Yields symbols w) : Begins (f.ofSymbols symbols) w := by
  induction hw with
  | nil => rfl
  | terminal _ _ => exact KindSet.has_ofKind_self _
  | @nonterminal p production rest u v hp _ _ ihrhs ihrest =>
      have hmem : production ∈ g.productions := Array.mem_of_getElem? hp
      unfold FirstSets.ofSymbols
      cases u with
      | nil =>
          have hnull : f.nullable.getD production.lhs false = true := h.nullable hg hmem ihrhs
          rw [if_pos hnull]
          cases v with
          | nil => exact ihrest
          | cons k v => exact KindSet.within_or_right _ _ _ ihrest
      | cons k u =>
          have hown : (f.first.getD production.lhs 0).has k.column = true :=
            h.first hg hmem _ ihrhs
          split
          · exact KindSet.within_or_left _ _ _ hown
          · exact hown

/-- What can begin symbols before others. -/
theorem has_ofSymbolsThen {symbols : List Symbol} {tail : KindSet} {c : Nat} :
    (f.ofSymbolsThen symbols tail).has c = true ↔
      (f.ofSymbols symbols).1.has c = true ∨
        (f.ofSymbols symbols).2 = true ∧ tail.has c = true := by
  unfold FirstSets.ofSymbolsThen
  dsimp only
  split
  · rename_i hvanishes
    rw [KindSet.has_or, Bool.or_eq_true]
    simp [hvanishes]
  · rename_i hstays
    simp [hstays]

/-- What symbols derive, with a terminal of `tail` after it, begins with one of their set. -/
theorem Closed.ofSymbolsThen (h : f.Closed g) (hg : g.WellFormed) {symbols : List Symbol}
    {w rest : List TokenKind} {tail : KindSet} {a : TokenKind} (hw : g.Yields symbols w)
    (ha : tail.has a.column = true) {k : TokenKind} (hk : (w ++ a :: rest).head? = some k) :
    (f.ofSymbolsThen symbols tail).has k.column = true := by
  have hfirst := h.ofSymbols hg hw
  cases w with
  | nil =>
      obtain rfl : a = k := by simpa using hk
      exact has_ofSymbolsThen.mpr (.inr ⟨hfirst, ha⟩)
  | cons b w =>
      obtain rfl : b = k := by simpa using hk
      exact has_ofSymbolsThen.mpr (.inl hfirst)

end FirstSets

/-- **The first sets of a grammar are closed**: no production adds to them. -/
theorem Grammar.WellFormed.firstSets_closed {g : Grammar} (hg : g.WellFormed) :
    g.firstSets.Closed g := by
  have hsized : FirstSets.Sized g.nonterminals.size
      ⟨Array.replicate g.nonterminals.size false, Array.replicate g.nonterminals.size 0⟩ := by
    refine ⟨by simp, by simp, fun id c hc => ?_⟩
    have hzero : FirstSets.firstOf ⟨Array.replicate g.nonterminals.size false,
        Array.replicate g.nonterminals.size 0⟩ id = 0 := by
      unfold FirstSets.firstOf
      rcases Nat.lt_or_ge id g.nonterminals.size with hlt | hge
      · simp [hlt]
      · simp [Nat.not_lt.mpr hge]
    rw [hzero] at hc
    simp at hc
  obtain ⟨hresult, hfixed⟩ := FirstSets.saturate_spec hg.hasSymbol hsized
    (Nat.lt_succ_of_le (FirstSets.room_le _ _))
  exact ⟨hresult, hfixed⟩

end AspectLang
