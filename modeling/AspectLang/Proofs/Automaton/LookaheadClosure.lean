import AspectLang.Automaton.Lookahead
import AspectLang.Proofs.Automaton.FirstSets
import AspectLang.Proofs.Automaton.ItemGraph

/-! # Closures with lookahead

A closure in progress grows: items keep their places, their sets only get larger, and the
places that changed are the ones put on the list to visit (`ClosureState.Grows`).  A visit
either leaves the sets alone or uses up some of what can still be added (`ClosureState.room`),
so the fuel of `GrammarIndex.closure` is enough to reach a closure that is closed under its
visits (`Closing`): each item after whose dot a nonterminal stands has the starts of its
productions beside it, with the terminals that can follow them (`closure_closing`). -/

namespace AspectLang

/-- Every column of the set is one of the tables, or the mark. -/
abbrev KindSet.Markable (s : KindSet) : Prop := s.Bounded (TokenKind.columnCount + 1)

theorem KindSet.Proper.markable {s : KindSet} (h : s.Proper) : s.Markable := h.mono (Nat.le_succ _)

/-- Number of columns that an item's set lacks, that of the mark among them. -/
def LookaheadItem.lacks (i : LookaheadItem) : Nat := i.follow.missing (TokenKind.columnCount + 1)

theorem LookaheadItem.lacks_le (i : LookaheadItem) : i.lacks ≤ TokenKind.columnCount + 1 :=
  i.follow.missing_le _

namespace ClosureState

variable {c c' c'' : ClosureState} {count : Nat}

/-! ### What adding does -/

/-- The places of a closure are those of the starts that it holds. -/
structure Indexed (count : Nat) (c : ClosureState) : Prop where
  size : c.places.size = count
  place : ∀ p n, c.places.getD p none = some n → ∃ follow, c.items[n]? = some ⟨⟨p, 0⟩, follow⟩
  markable : ∀ (n : Nat) (i : LookaheadItem), c.items[n]? = some i → i.follow.Markable

/-- A closure that came out of another one by adding starts of the productions `ps`; `grown`
are the places that changed. -/
structure Grows (c c' : ClosureState) (ps grown : List Nat) : Prop where
  items : ∀ (n : Nat) (i : LookaheadItem), c.items[n]? = some i → ∃ follow,
    c'.items[n]? = some ⟨i.item, follow⟩ ∧ i.follow.Within follow ∧ (n ∉ grown → follow = i.follow)
  places : ∀ p n, c.places.getD p none = some n → c'.places.getD p none = some n
  fresh : ∀ (n : Nat) (i : LookaheadItem), c'.items[n]? = some i → c.items[n]? = none → n ∈ grown
  grown : ∀ n ∈ grown, ∃ p ∈ ps, ∃ follow, c'.items[n]? = some ⟨⟨p, 0⟩, follow⟩

/-- The start of a production is there, with at least the given terminals. -/
def HasStart (c : ClosureState) (p : Nat) (follow : KindSet) : Prop :=
  ∃ n own, c.places.getD p none = some n ∧ c.items[n]? = some ⟨⟨p, 0⟩, own⟩ ∧ follow.Within own

theorem Grows.refl (c : ClosureState) (ps : List Nat) : c.Grows c ps [] where
  items := fun _ i h => ⟨i.follow, h, .refl _, fun _ => rfl⟩
  places := fun _ _ h => h
  fresh := fun _ _ h hnone => by rw [h] at hnone; cases hnone
  grown := fun _ h => by cases h

theorem Grows.trans {ps ps' grown grown' : List Nat} (h : c.Grows c' ps grown)
    (h' : c'.Grows c'' ps' grown') : c.Grows c'' (ps ++ ps') (grown' ++ grown) where
  items := by
    intro n i hi
    obtain ⟨follow, hi', hwithin, hsame⟩ := h.items n i hi
    obtain ⟨follow', hi'', hwithin', hsame'⟩ := h'.items n _ hi'
    refine ⟨follow', hi'', hwithin.trans hwithin', fun hn => ?_⟩
    rw [List.mem_append, not_or] at hn
    rw [hsame' hn.1, hsame hn.2]
  places := fun p n hn => h'.places p n (h.places p n hn)
  fresh := by
    intro n i hi hnone
    cases hmid : c'.items[n]? with
    | none => exact List.mem_append_left _ (h'.fresh n i hi hmid)
    | some j => exact List.mem_append_right _ (h.fresh n j hmid hnone)
  grown := by
    intro n hn
    rcases List.mem_append.mp hn with hn | hn
    · obtain ⟨p, hp, follow, hi⟩ := h'.grown n hn
      exact ⟨p, List.mem_append_right _ hp, follow, hi⟩
    · obtain ⟨p, hp, follow, hi⟩ := h.grown n hn
      obtain ⟨follow', hi', _⟩ := h'.items n _ hi
      exact ⟨p, List.mem_append_left _ hp, follow', hi'⟩

theorem Grows.hasStart {ps grown : List Nat} (h : c.Grows c' ps grown) {p : Nat}
    {follow : KindSet} (hstart : c.HasStart p follow) : c'.HasStart p follow := by
  obtain ⟨n, own, hplace, hitem, hwithin⟩ := hstart
  obtain ⟨own', hitem', hwithin', _⟩ := h.items n _ hitem
  exact ⟨n, own', h.places p n hplace, hitem', hwithin.trans hwithin'⟩

/-- Number of columns and starts that can still be added. -/
def room (c : ClosureState) : Nat :=
  (c.items.toList.map LookaheadItem.lacks).sum +
    c.places.toList.countP (·.isNone) * (TokenKind.columnCount + 2)

/-- The sum of a list in which one entry became smaller. -/
theorem sum_set_lt {l : List Nat} {n a b : Nat} (hn : l[n]? = some a) (h : b < a) :
    (l.set n b).sum < l.sum := by
  induction l generalizing n with
  | nil => simp at hn
  | cons x l ih =>
      cases n with
      | zero =>
          obtain rfl : x = a := by simpa using hn
          simpa using h
      | succ n => simpa using ih (by simpa using hn)

theorem countP_set_lt {l : List (Option Nat)} {n : Nat} (hn : l[n]? = some none) (place : Nat) :
    (l.set n (some place)).countP (·.isNone) + 1 = l.countP (·.isNone) := by
  induction l generalizing n with
  | nil => simp at hn
  | cons x l ih =>
      cases n with
      | zero =>
          obtain rfl : x = none := by simpa using hn
          simp
      | succ n =>
          have := ih (n := n) (by simpa using hn)
          simp only [List.set_cons_succ, List.countP_cons]
          omega

/-- What adding the starts of productions with a set of terminals comes to. -/
structure Added (count : Nat) (c : ClosureState) (ps : List Nat) (follow : KindSet)
    (c' : ClosureState) (grown : List Nat) : Prop where
  indexed : c'.Indexed count
  grows : c.Grows c' ps grown
  hasStart : ∀ p ∈ ps, c'.HasStart p follow
  room : grown.length + c'.room ≤ c.room

theorem getElem?_modify_follow {items : Array LookaheadItem} {n m : Nat} {merged : KindSet} :
    (items.modify n fun i => { i with follow := merged })[m]? =
      if n = m then items[m]?.map fun i => { i with follow := merged } else items[m]? :=
  Array.getElem?_modify

/-- A set that grows takes up room. -/
theorem room_merge {n : Nat} {i : LookaheadItem} {follow : KindSet} (hitem : c.items[n]? = some i)
    (hless : LookaheadItem.lacks ⟨i.item, i.follow ||| follow⟩ < i.lacks) :
    room { c with items := c.items.modify n fun j => { j with follow := i.follow ||| follow } } <
      c.room := by
  have hlt := (Array.getElem?_eq_some_iff.mp hitem).1
  have hset : ((c.items.modify n fun j => { j with follow := i.follow ||| follow }).toList.map
      LookaheadItem.lacks) = (c.items.toList.map LookaheadItem.lacks).set n
        (LookaheadItem.lacks ⟨i.item, i.follow ||| follow⟩) := by
    refine List.ext_getElem? fun m => ?_
    rw [List.getElem?_map, Array.getElem?_toList, getElem?_modify_follow, List.getElem?_set]
    by_cases hnm : n = m
    · subst hnm
      simp [hlt, LookaheadItem.lacks]
    · simp [hnm]
  have hsum := sum_set_lt (l := c.items.toList.map LookaheadItem.lacks) (n := n)
    (by simp [hitem]) hless
  unfold ClosureState.room
  dsimp only
  rw [hset]
  omega

/-- A start that is put behind the items takes up room. -/
theorem room_push {p : Nat} (i : LookaheadItem) (hlt : p < c.places.size)
    (hplace : c.places.getD p none = none) :
    room ⟨c.items.push i, c.places.setIfInBounds p (some c.items.size)⟩ < c.room := by
  have hnone : c.places.toList[p]? = some none := by
    rw [Array.getElem?_toList, Array.getElem?_eq_getElem hlt]
    simpa [Array.getD, hlt] using hplace
  have hcount := countP_set_lt hnone c.items.size
  have hmissing := i.lacks_le
  unfold ClosureState.room
  dsimp only
  rw [Array.toList_push, Array.toList_setIfInBounds, ← hcount, List.map_append, List.sum_append,
    Nat.add_mul]
  simp only [List.map_cons, List.map_nil, List.sum_cons, List.sum_nil]
  omega

/-- Enlarging the set of a start that is there. -/
theorem Indexed.added_merge {p n : Nat} {own follow : KindSet} (h : c.Indexed count)
    (hfollow : follow.Markable) (hplace : c.places.getD p none = some n)
    (hitem : c.items[n]? = some ⟨⟨p, 0⟩, own⟩) (hne : own ||| follow ≠ own) :
    Added count c [p] follow
      { c with items := c.items.modify n fun i => { i with follow := own ||| follow } } [n] := by
  have hitem' : (c.items.modify n fun i => { i with follow := own ||| follow })[n]? =
      some ⟨⟨p, 0⟩, own ||| follow⟩ := by
    rw [getElem?_modify_follow, if_pos rfl, hitem]
    rfl
  refine ⟨⟨h.size, ?_, ?_⟩, ⟨?_, fun _ _ hq => hq, ?_, ?_⟩, ?_, ?_⟩
  · intro q m hq
    obtain ⟨f, hf⟩ := h.place q m hq
    by_cases hnm : n = m
    · subst hnm
      rw [hitem, Option.some.injEq, LookaheadItem.mk.injEq] at hf
      exact ⟨own ||| follow, hf.1 ▸ hitem'⟩
    · exact ⟨f, by rw [getElem?_modify_follow, if_neg hnm, hf]⟩
  · intro m i hi
    rw [getElem?_modify_follow] at hi
    by_cases hnm : n = m
    · subst hnm
      rw [if_pos rfl, hitem] at hi
      obtain rfl : LookaheadItem.mk ⟨p, 0⟩ (own ||| follow) = i := by simpa using hi
      exact (h.markable n _ hitem).or hfollow
    · rw [if_neg hnm] at hi
      exact h.markable m i hi
  · intro m i hi
    by_cases hnm : n = m
    · subst hnm
      obtain rfl : LookaheadItem.mk ⟨p, 0⟩ own = i := by simpa [hitem] using hi
      exact ⟨own ||| follow, hitem', KindSet.within_or_left _ _, fun hn => absurd (by simp) hn⟩
    · exact ⟨i.follow, by rw [getElem?_modify_follow, if_neg hnm, hi], .refl _, fun _ => rfl⟩
  · intro m i hi hnone
    rw [getElem?_modify_follow, hnone] at hi
    simp at hi
  · intro m hm
    obtain rfl := List.mem_singleton.mp hm
    exact ⟨p, by simp, _, hitem'⟩
  · intro q hq
    obtain rfl := List.mem_singleton.mp hq
    exact ⟨n, _, hplace, hitem', KindSet.within_or_right _ _⟩
  · have hless : LookaheadItem.lacks ⟨⟨p, 0⟩, own ||| follow⟩ < LookaheadItem.lacks ⟨⟨p, 0⟩, own⟩ :=
      (KindSet.within_or_left own follow).missing_lt (Ne.symm hne)
        ((h.markable n _ hitem).or hfollow)
    rw [List.length_singleton, Nat.add_comm]
    exact room_merge hitem hless

/-- Adding a start that is not there. -/
theorem Indexed.added_push {p : Nat} {follow : KindSet} (h : c.Indexed count) (hp : p < count)
    (hfollow : follow.Markable) (hplace : c.places.getD p none = none) :
    Added count c [p] follow
      ⟨c.items.push ⟨⟨p, 0⟩, follow⟩, c.places.setIfInBounds p (some c.items.size)⟩
      [c.items.size] := by
  have hlt : p < c.places.size := by rw [h.size]; exact hp
  have hitem' : (c.items.push ⟨⟨p, 0⟩, follow⟩)[c.items.size]? = some ⟨⟨p, 0⟩, follow⟩ :=
    Array.getElem?_push_size
  have hkeep : ∀ (m : Nat) (i : LookaheadItem), c.items[m]? = some i →
      (c.items.push ⟨⟨p, 0⟩, follow⟩)[m]? = some i := by
    intro m i hi
    rw [Array.getElem?_push, if_neg (Nat.ne_of_lt (Array.getElem?_eq_some_iff.mp hi).1), hi]
  have hplaces : ∀ q, (c.places.setIfInBounds p (some c.items.size)).getD q none =
      if p = q then some c.items.size else c.places.getD q none := by
    intro q
    rw [Array.getD_eq_getD_getElem?, Array.getElem?_setIfInBounds]
    by_cases hpq : p = q
    · simp [hpq, hpq ▸ hlt]
    · simp [hpq]
  refine ⟨⟨by simpa using h.size, ?_, ?_⟩, ⟨?_, ?_, ?_, ?_⟩, ?_, ?_⟩
  · intro q m hq
    dsimp only at hq ⊢
    rw [hplaces] at hq
    by_cases hpq : p = q
    · rw [if_pos hpq, Option.some.injEq] at hq
      subst hpq hq
      exact ⟨follow, hitem'⟩
    · rw [if_neg hpq] at hq
      obtain ⟨f, hf⟩ := h.place q m hq
      exact ⟨f, hkeep m _ hf⟩
  · intro m i hi
    dsimp only at hi
    rw [Array.getElem?_push] at hi
    split at hi
    · obtain rfl := Option.some.inj hi
      exact hfollow
    · exact h.markable m i hi
  · exact fun m i hi => ⟨i.follow, hkeep m i hi, .refl _, fun _ => rfl⟩
  · intro q m hq
    dsimp only
    rw [hplaces, if_neg (fun hpq => by rw [← hpq, hplace] at hq; cases hq), hq]
  · intro m i hi hnone
    dsimp only at hi
    rw [Array.getElem?_push, hnone] at hi
    split at hi
    · rename_i hm
      simp [hm]
    · cases hi
  · intro m hm
    obtain rfl := List.mem_singleton.mp hm
    exact ⟨p, by simp, follow, hitem'⟩
  · intro q hq
    obtain rfl := List.mem_singleton.mp hq
    refine ⟨c.items.size, follow, ?_, hitem', .refl _⟩
    dsimp only
    rw [hplaces, if_pos rfl]
  · rw [List.length_singleton, Nat.add_comm]
    exact room_push ⟨⟨p, 0⟩, follow⟩ hlt hplace

theorem Indexed.add {p : Nat} {follow : KindSet} (h : c.Indexed count) (hp : p < count)
    (hfollow : follow.Markable) :
    Added count c [p] follow (c.add p follow).1 (c.add p follow).2.toList := by
  unfold ClosureState.add
  cases hplace : c.places.getD p none with
  | none => exact h.added_push hp hfollow hplace
  | some n =>
      obtain ⟨own, hitem⟩ := h.place p n hplace
      have hget : c.items.getD n default = ⟨⟨p, 0⟩, own⟩ := by
        rw [Array.getD_eq_getD_getElem?, hitem]
        rfl
      dsimp only
      rw [hget]
      split
      · rename_i heq
        refine ⟨h, .refl c [p], fun q hq => ?_, by simp⟩
        obtain rfl := List.mem_singleton.mp hq
        exact ⟨n, own, hplace, hitem, KindSet.or_eq_left_iff.mp heq⟩
      · rename_i hne
        exact h.added_merge hfollow hplace hitem hne

theorem Indexed.addAll {ps : List Nat} {follow : KindSet} (h : c.Indexed count)
    (hps : ∀ p ∈ ps, p < count) (hfollow : follow.Markable) (work : List Nat) :
    ∃ grown, (c.addAll follow ps work).2 = grown ++ work ∧
      Added count c ps follow (c.addAll follow ps work).1 grown := by
  induction ps generalizing c work with
  | nil => exact ⟨[], rfl, h, .refl c [], by simp, by simp [ClosureState.addAll]⟩
  | cons p ps ih =>
      have hone := h.add (hps p List.mem_cons_self) hfollow
      unfold ClosureState.addAll
      generalize c.add p follow = added at *
      obtain ⟨c₁, place⟩ := added
      have hcombine : ∀ (work' : List Nat), work' = place.toList ++ work →
          ∃ grown, (c₁.addAll follow ps work').2 = grown ++ work ∧
            Added count c (p :: ps) follow (c₁.addAll follow ps work').1 grown := by
        rintro work' rfl
        obtain ⟨grown, hwork, hrest⟩ := ih hone.indexed
          (fun q hq => hps q (List.mem_cons_of_mem p hq)) (place.toList ++ work)
        refine ⟨grown ++ place.toList, by rw [hwork, List.append_assoc],
          hrest.indexed, hone.grows.trans hrest.grows, ?_, ?_⟩
        · intro q hq
          rcases List.mem_cons.mp hq with rfl | hq
          · exact hrest.grows.hasStart (hone.hasStart q (by simp))
          · exact hrest.hasStart q hq
        · have h1 := hone.room
          have h2 := hrest.room
          dsimp only at h1 h2
          rw [List.length_append]
          omega
      cases place with
      | none => exact hcombine work rfl
      | some n => exact hcombine (n :: work) rfl

end ClosureState

/-! ### Closures in progress -/

namespace GrammarIndex

variable {g : Grammar} {kernel : List LookaheadItem} {work : List Nat} {c : ClosureState}

/-- An item has beside it what its visit adds: the starts of the productions of the nonterminal
after its dot, with the terminals that can follow them. -/
def Visited (g : Grammar) (c : ClosureState) (i : LookaheadItem) : Prop :=
  ∀ id rest, (g.rhsOf i.item.production).drop i.item.dot = .nonterminal id :: rest →
    ∀ p ∈ g.byLhs.getD id [], c.HasStart p (g.firstSets.ofSymbolsThen rest i.follow)

/-- A closure in progress: the kernel is where it was, and every item either waits for a visit
or has beside it what its visit adds. -/
structure Closing (g : Grammar) (kernel : List LookaheadItem) (work : List Nat)
    (c : ClosureState) : Prop where
  indexed : c.Indexed g.productions.size
  itemOf : ∀ (n : Nat) (i : LookaheadItem), c.items[n]? = some i →
    g.ItemOf (kernel.map LookaheadItem.item) i.item
  keeps : ∀ (n : Nat) (i : LookaheadItem), kernel[n]? = some i →
    ∃ follow, c.items[n]? = some ⟨i.item, follow⟩ ∧ i.follow.Within follow
  start : g.StartIsolated → ∀ (n : Nat) (i : LookaheadItem), c.items[n]? = some i →
    i.item.production = 0 → kernel[n]? = some i
  work_lt : ∀ n ∈ work, n < c.items.size
  visited : ∀ (n : Nat) (i : LookaheadItem), c.items[n]? = some i → n ∈ work ∨ Visited g c i

theorem next?_of_drop {i : Item} {s : Symbol} {rest : List Symbol}
    (h : (g.rhsOf i.production).drop i.dot = s :: rest) : g.next? i = some s := by
  unfold Grammar.next?
  rw [← List.head?_drop, h]
  rfl

/-- The start production is not added by a visit. -/
theorem start_not_visited (hstart : g.StartIsolated) {i : Item} {id : Nat} {rest : List Symbol}
    (hdrop : (g.rhsOf i.production).drop i.dot = .nonterminal id :: rest) :
    0 ∉ g.byLhs.getD id [] := by
  intro hmem
  obtain ⟨production, hproduction, rfl⟩ := Grammar.mem_byLhs hmem
  have hnext := next?_of_drop hdrop
  unfold Grammar.next? Grammar.rhsOf at hnext
  cases hp : g.productions[i.production]? with
  | none => simp [hp] at hnext
  | some q =>
      rw [hp] at hnext
      exact hstart production hproduction q (Array.mem_of_getElem? hp) (List.mem_of_getElem? hnext)

/-- A place whose item has no nonterminal after its dot needs no visit. -/
theorem Closing.skip {n : Nat} (h : Closing g kernel (n :: work) c)
    (hn : ∀ i, c.items[n]? = some i → Visited g c i) : Closing g kernel work c where
  indexed := h.indexed
  itemOf := h.itemOf
  keeps := h.keeps
  start := h.start
  work_lt := fun m hm => h.work_lt m (List.mem_cons_of_mem n hm)
  visited := by
    intro m i hi
    rcases h.visited m i hi with hm | hv
    · rcases List.mem_cons.mp hm with rfl | hm
      · exact .inr (hn i hi)
      · exact .inl hm
    · exact .inr hv

/-- One visit. -/
theorem Closing.visit {n id : Nat} {i : LookaheadItem} {rest : List Symbol}
    {c' : ClosureState} {grown : List Nat} (h : Closing g kernel (n :: work) c)
    (hi : c.items[n]? = some i)
    (hdrop : (g.rhsOf i.item.production).drop i.item.dot = .nonterminal id :: rest)
    (hadded : ClosureState.Added g.productions.size c (g.byLhs.getD id [])
      (g.firstSets.ofSymbolsThen rest i.follow) c' grown) :
    Closing g kernel (grown ++ work) c' := by
  have hnew : ∀ p ∈ g.byLhs.getD id [], g.ItemOf (kernel.map LookaheadItem.item) ⟨p, 0⟩ := by
    intro p hp
    obtain ⟨production, hproduction, rfl⟩ := Grammar.mem_byLhs hp
    exact .start (h.itemOf n i hi) (next?_of_drop hdrop) hproduction
  refine ⟨hadded.indexed, ?_, ?_, ?_, ?_, ?_⟩
  · intro m j hj
    by_cases hm : m ∈ grown
    · obtain ⟨p, hp, follow, hitem⟩ := hadded.grows.grown m hm
      rw [hj, Option.some.injEq] at hitem
      exact hitem ▸ hnew p hp
    · cases hold : c.items[m]? with
      | none => exact absurd (hadded.grows.fresh m j hj hold) hm
      | some k =>
          obtain ⟨follow, hitem, _⟩ := hadded.grows.items m k hold
          rw [hj, Option.some.injEq] at hitem
          exact hitem ▸ h.itemOf m k hold
  · intro m j hj
    obtain ⟨follow, hold, hwithin⟩ := h.keeps m j hj
    obtain ⟨follow', hitem, hwithin', _⟩ := hadded.grows.items m _ hold
    exact ⟨follow', hitem, hwithin.trans hwithin'⟩
  · intro hstart m j hj hzero
    by_cases hm : m ∈ grown
    · obtain ⟨p, hp, follow, hitem⟩ := hadded.grows.grown m hm
      rw [hj, Option.some.injEq] at hitem
      subst hitem
      exact absurd (hzero ▸ hp) (start_not_visited hstart hdrop)
    · cases hold : c.items[m]? with
      | none => exact absurd (hadded.grows.fresh m j hj hold) hm
      | some k =>
          obtain ⟨follow, hitem, _, hsame⟩ := hadded.grows.items m k hold
          rw [hj, hsame hm, Option.some.injEq] at hitem
          subst hitem
          exact h.start hstart m _ hold hzero
  · intro m hm
    rcases List.mem_append.mp hm with hm | hm
    · obtain ⟨_, _, _, hitem⟩ := hadded.grows.grown m hm
      exact (Array.getElem?_eq_some_iff.mp hitem).1
    · have hlt := h.work_lt m (List.mem_cons_of_mem n hm)
      obtain ⟨_, hitem, _⟩ := hadded.grows.items m _ (Array.getElem?_eq_getElem hlt)
      exact (Array.getElem?_eq_some_iff.mp hitem).1
  · intro m j hj
    by_cases hm : m ∈ grown
    · exact .inl (List.mem_append_left _ hm)
    · cases hold : c.items[m]? with
      | none => exact absurd (hadded.grows.fresh m j hj hold) hm
      | some k =>
          obtain ⟨follow, hitem, _, hsame⟩ := hadded.grows.items m k hold
          rw [hj, hsame hm, Option.some.injEq] at hitem
          subst hitem
          rcases h.visited m _ hold with hw | hv
          · rcases List.mem_cons.mp hw with rfl | hw
            · -- the visited place itself: its productions were just added
              obtain rfl : i = k := by rw [hi, Option.some.injEq] at hold; exact hold
              refine .inr fun id' rest' hdrop' p hp => ?_
              dsimp only at hdrop' ⊢
              rw [hdrop, List.cons.injEq, Symbol.nonterminal.injEq] at hdrop'
              obtain ⟨rfl, rfl⟩ := hdrop'
              exact hadded.hasStart p hp
            · exact .inl (List.mem_append_right _ hw)
          · exact .inr fun id' rest' hdrop' p hp =>
              hadded.grows.hasStart (hv id' rest' hdrop' p hp)

/-- What can begin the symbols behind a nonterminal of a right side are terminals. -/
theorem proper_ofSymbols_of_drop (hg : g.WellFormed) {p dot id : Nat} {rest : List Symbol}
    (hdrop : (g.rhsOf p).drop dot = .nonterminal id :: rest) :
    (g.firstSets.ofSymbols rest).1.Proper := by
  have hrest : ∀ s ∈ rest, g.HasSymbol s := by
    intro s hs
    have hmem : s ∈ g.rhsOf p := List.mem_of_mem_drop (hdrop ▸ List.mem_cons_of_mem _ hs)
    obtain ⟨n, hn⟩ := List.mem_iff_getElem?.mp hmem
    exact hg.next_hasSymbol (i := ⟨p, n⟩) hn
  exact FirstSets.proper_ofSymbols hg.firstSets_closed.sized hrest

theorem bounded_ofSymbolsThen (hg : g.WellFormed) {bound : Nat}
    (hbound : TokenKind.columnCount ≤ bound) {p dot id : Nat} {rest : List Symbol}
    {tail : KindSet} (hdrop : (g.rhsOf p).drop dot = .nonterminal id :: rest)
    (htail : tail.Bounded bound) : (g.firstSets.ofSymbolsThen rest tail).Bounded bound := by
  have hown := (proper_ofSymbols_of_drop hg hdrop).mono hbound
  intro c hc
  exact (FirstSets.has_ofSymbolsThen.mp hc).elim (hown c) fun h => htail c h.2

/-- **A visit** adds the productions of the nonterminal after the dot, if there is one, and takes up
room for every place that it puts on the list. -/
theorem Closing.next (hg : g.WellFormed) {n : Nat} (h : Closing g kernel (n :: work) c) :
    (∃ i id rest, c.items[n]? = some i ∧
      (g.rhsOf i.item.production).drop i.item.dot = .nonterminal id :: rest ∧
      (∀ p ∈ g.byLhs.getD id [], p < g.productions.size) ∧
      (g.firstSets.ofSymbolsThen rest i.follow).Markable ∧
      let after := c.addAll (g.firstSets.ofSymbolsThen rest i.follow) (g.byLhs.getD id []) work
      Closing g kernel after.2 after.1 ∧ after.2.length + after.1.room ≤ work.length + c.room ∧
      ∀ fuel, (GrammarIndex.of g).closeFrom (fuel + 1) (n :: work) c =
        (GrammarIndex.of g).closeFrom fuel after.2 after.1) ∨
    Closing g kernel work c ∧ ∀ fuel, (GrammarIndex.of g).closeFrom (fuel + 1) (n :: work) c =
      (GrammarIndex.of g).closeFrom fuel work c := by
  have hlt := h.work_lt n List.mem_cons_self
  have hi := Array.getElem?_eq_getElem hlt
  have hget : c.items.getD n default = c.items[n] := by
    rw [Array.getD_eq_getD_getElem?, hi]
    rfl
  generalize c.items[n] = i at hi hget
  obtain ⟨item, follow⟩ := i
  by_cases hstarts : ∃ id rest, (g.rhsOf item.production).drop item.dot = .nonterminal id :: rest
  · obtain ⟨id, rest, hdrop⟩ := hstarts
    have hmarkable := bounded_ofSymbolsThen hg (Nat.le_succ _) hdrop (h.indexed.markable n _ hi)
    have hbounds : ∀ p ∈ g.byLhs.getD id [], p < g.productions.size := by
      intro p hp
      obtain ⟨_, hproduction, _⟩ := Grammar.mem_byLhs hp
      exact (Array.getElem?_eq_some_iff.mp hproduction).1
    obtain ⟨grown, hwork, hadded⟩ := h.indexed.addAll hbounds hmarkable work
    have hnext := h.visit hi hdrop hadded
    rw [← hwork] at hnext
    have hlength := congrArg List.length hwork
    rw [List.length_append] at hlength
    have hless := hadded.room
    refine .inl ⟨_, id, rest, hi, hdrop, hbounds, hmarkable, hnext, by omega, fun fuel => ?_⟩
    have hdrop' : ((GrammarIndex.of g).grammar.rhsOf item.production).drop item.dot =
        .nonterminal id :: rest := hdrop
    rw [GrammarIndex.closeFrom, hget]
    dsimp only
    rw [hdrop']
    rfl
  · refine .inr ⟨h.skip fun j hj id rest hdrop => ?_, fun fuel => ?_⟩
    · rw [hi, Option.some.injEq] at hj
      subst hj
      exact absurd ⟨id, rest, hdrop⟩ hstarts
    · rw [GrammarIndex.closeFrom, hget]
      dsimp only
      split
      · rename_i id rest hdrop
        exact absurd ⟨id, rest, hdrop⟩ hstarts
      · rfl

/-- With enough fuel, visits go on until no place waits. -/
theorem Closing.closeFrom (hg : g.WellFormed) {fuel : Nat} (h : Closing g kernel work c)
    (hroom : work.length + c.room ≤ fuel) :
    Closing g kernel [] ((GrammarIndex.of g).closeFrom fuel work c) := by
  induction fuel generalizing work c with
  | zero =>
      obtain rfl : work = [] := List.length_eq_zero_iff.mp (by omega)
      exact h
  | succ fuel ih =>
      cases work with
      | nil => exact h
      | cons n work =>
          rw [List.length_cons] at hroom
          rcases h.next hg with ⟨_, _, _, _, _, _, _, hnext, hless, hcloses⟩ | ⟨hnext, hcloses⟩
          · rw [hcloses]
            exact ih hnext (by omega)
          · rw [hcloses]
            exact ih hnext (by omega)

/-! ### The closure of a kernel -/

/-- The places at which a closure begins. -/
theorem places_spec (l : List (LookaheadItem × Nat)) (places : Array (Option Nat)) :
    let after := l.foldl (fun places (i, place) =>
      if i.item.dot = 0 then places.setIfInBounds i.item.production (some place) else places) places
    after.size = places.size ∧ ∀ p n, after.getD p none = some n →
      places.getD p none = some n ∨ ∃ i, (i, n) ∈ l ∧ i.item = ⟨p, 0⟩ := by
  induction l generalizing places with
  | nil => exact ⟨rfl, fun _ _ h => .inl h⟩
  | cons entry l ih =>
      obtain ⟨⟨⟨q, dot⟩, follow⟩, m⟩ := entry
      dsimp only
      rw [List.foldl_cons]
      dsimp only
      by_cases hdot : dot = 0
      · subst hdot
        rw [if_pos rfl]
        obtain ⟨hsize, hplaces⟩ := ih (places.setIfInBounds q (some m))
        refine ⟨by rw [hsize, Array.size_setIfInBounds], fun p n hp => ?_⟩
        rcases hplaces p n hp with hold | ⟨i, hi, hitem⟩
        · by_cases hqp : q = p
          · by_cases hlt : q < places.size
            · rw [← hqp, Grammar.getD_setIfInBounds_same hlt, Option.some.injEq] at hold
              subst hqp hold
              exact .inr ⟨_, List.mem_cons_self, rfl⟩
            · rw [Array.setIfInBounds_eq_of_size_le (Nat.le_of_not_lt hlt)] at hold
              exact .inl hold
          · rw [Grammar.getD_setIfInBounds_other hqp] at hold
            exact .inl hold
        · exact .inr ⟨i, List.mem_cons_of_mem _ hi, hitem⟩
      · rw [if_neg hdot]
        obtain ⟨hsize, hplaces⟩ := ih places
        refine ⟨hsize, fun p n hp => ?_⟩
        rcases hplaces p n hp with hold | ⟨i, hi, hitem⟩
        · exact .inl hold
        · exact .inr ⟨i, List.mem_cons_of_mem _ hi, hitem⟩

theorem closing_start {places : Array (Option Nat)} (hsize : places.size = g.productions.size)
    (hplaces : ∀ p n, places.getD p none = some n → ∃ i, kernel[n]? = some i ∧ i.item = ⟨p, 0⟩)
    (hmarkable : ∀ i ∈ kernel, i.follow.Markable) :
    Closing g kernel (List.range kernel.length).reverse ⟨kernel.toArray, places⟩ where
  indexed := by
    refine ⟨hsize, fun p n hp => ?_, fun n i hi => ?_⟩
    · obtain ⟨⟨item, follow⟩, hi, rfl⟩ := hplaces p n hp
      exact ⟨follow, by simpa using hi⟩
    · exact hmarkable i (List.mem_of_getElem? (by simpa using hi))
  itemOf := fun n i hi => .kernel (List.mem_map_of_mem (List.mem_of_getElem? (by simpa using hi)))
  keeps := fun n i hi => ⟨i.follow, by simpa using hi, .refl _⟩
  start := fun _ n i hi _ => by simpa using hi
  work_lt := by simp
  visited := by
    intro n i hi
    have hlt := (Array.getElem?_eq_some_iff.mp hi).1
    exact .inl (by simpa using hlt)

theorem sum_lacks_le (items : List LookaheadItem) :
    (items.map LookaheadItem.lacks).sum ≤ items.length * (TokenKind.columnCount + 1) := by
  have := List.sum_le_card_nsmul (items.map LookaheadItem.lacks) (TokenKind.columnCount + 1)
    (by simpa using fun i _ => LookaheadItem.lacks_le i)
  simpa using this

/-- Fuel for the visits of a closure. -/
def closureFuel (g : Grammar) (kernel : List LookaheadItem) : Nat :=
  (kernel.length + g.productions.size) * (TokenKind.columnCount + 2)

/-- The closure of a kernel goes on from the kernel alone. -/
theorem closure_eq (hmarkable : ∀ i ∈ kernel, i.follow.Markable) :
    ∃ places : Array (Option Nat), places.size = g.productions.size ∧
      (GrammarIndex.of g).closure kernel = ((GrammarIndex.of g).closeFrom (closureFuel g kernel)
        (List.range kernel.length).reverse ⟨kernel.toArray, places⟩).items ∧
      Closing g kernel (List.range kernel.length).reverse ⟨kernel.toArray, places⟩ := by
  unfold GrammarIndex.closure
  dsimp only
  have hspec := places_spec kernel.zipIdx
    (Array.replicate (GrammarIndex.of g).grammar.productions.size none)
  dsimp only at hspec
  generalize kernel.zipIdx.foldl _ _ = places at hspec
  obtain ⟨hsize, hplaces⟩ := hspec
  have hsize' : places.size = g.productions.size := by rw [hsize, Array.size_replicate]; rfl
  refine ⟨places, hsize', rfl, closing_start hsize' (fun p n hp => ?_) hmarkable⟩
  rcases hplaces p n hp with hnone | ⟨i, hi, hitem⟩
  · rw [Array.getD_eq_getD_getElem?, Array.getElem?_replicate] at hnone
    split at hnone <;> cases hnone
  · exact ⟨i, (List.mem_zipIdx_iff_getElem?).mp hi, hitem⟩

/-- **The closure of a kernel is closed under its visits.** -/
theorem closure_closing (hg : g.WellFormed) (hmarkable : ∀ i ∈ kernel, i.follow.Markable) :
    ∃ c, (GrammarIndex.of g).closure kernel = c.items ∧ Closing g kernel [] c := by
  obtain ⟨places, hsize, hclosure, hstart⟩ := closure_eq (g := g) hmarkable
  refine ⟨_, hclosure, hstart.closeFrom hg ?_⟩
  have hmissing := sum_lacks_le kernel
  have hcount := List.countP_le_length (p := (·.isNone)) (l := places.toList)
  rw [Array.length_toList, hsize] at hcount
  have hmul := Nat.mul_le_mul_right (TokenKind.columnCount + 2) hcount
  unfold ClosureState.room closureFuel
  rw [List.length_reverse, List.length_range]
  dsimp only at hmul ⊢
  rw [Nat.add_mul, Nat.mul_succ kernel.length]
  omega

section

variable (hg : g.WellFormed) (hmarkable : ∀ i ∈ kernel, i.follow.Markable) {i : LookaheadItem}

include hg hmarkable

theorem itemOf_of_mem_closure (hi : i ∈ (GrammarIndex.of g).closure kernel) :
    g.ItemOf (kernel.map LookaheadItem.item) i.item := by
  obtain ⟨c, hc, h⟩ := closure_closing hg hmarkable
  obtain ⟨n, hn⟩ := Array.mem_iff_getElem?.mp (hc ▸ hi)
  exact h.itemOf n i hn

/-- Kernel items stay in front, with sets that may have grown. -/
theorem closure_keeps {n : Nat} (hi : kernel[n]? = some i) : ∃ follow,
    ((GrammarIndex.of g).closure kernel)[n]? = some ⟨i.item, follow⟩ ∧ i.follow.Within follow := by
  obtain ⟨c, hc, h⟩ := closure_closing hg hmarkable
  rw [hc]
  exact h.keeps n i hi

/-- The start production is only in kernels. -/
theorem kernel_of_closure_start (hstart : g.StartIsolated) {n : Nat}
    (hi : ((GrammarIndex.of g).closure kernel)[n]? = some i) (hzero : i.item.production = 0) :
    kernel[n]? = some i := by
  obtain ⟨c, hc, h⟩ := closure_closing hg hmarkable
  rw [hc] at hi
  exact h.start hstart n i hi hzero

/-- The starts of productions of a nonterminal after a dot are there, with what can follow. -/
theorem closure_hasStart {p : Nat} {production : Production} {rest : List Symbol}
    (hi : i ∈ (GrammarIndex.of g).closure kernel)
    (hdrop : (g.rhsOf i.item.production).drop i.item.dot = .nonterminal production.lhs :: rest)
    (hp : g.productions[p]? = some production) :
    ∃ follow, ⟨⟨p, 0⟩, follow⟩ ∈ (GrammarIndex.of g).closure kernel ∧
      (g.firstSets.ofSymbolsThen rest i.follow).Within follow := by
  obtain ⟨c, hc, h⟩ := closure_closing hg hmarkable
  rw [hc] at hi ⊢
  obtain ⟨n, hn⟩ := Array.mem_iff_getElem?.mp hi
  have hvisited := (h.visited n i hn).resolve_left (by simp)
  obtain ⟨m, follow, _, hm, hwithin⟩ := hvisited _ rest hdrop p (hg.mem_byLhs hp)
  exact ⟨follow, Array.mem_of_getElem? hm, hwithin⟩

end

/-! ### What all items of a closure have -/

section

variable {A : LookaheadItem → Prop} {kernel : List LookaheadItem} {c : ClosureState}

/-- Every item of a closure in progress has a property. -/
def AllItems (A : LookaheadItem → Prop) (c : ClosureState) : Prop :=
  ∀ (n : Nat) (i : LookaheadItem), c.items[n]? = some i → A i

/-- Items keep a property when their sets are merged. -/
def Merges (A : LookaheadItem → Prop) : Prop :=
  ∀ item follow follow', A ⟨item, follow⟩ → A ⟨item, follow'⟩ → A ⟨item, follow ||| follow'⟩

/-- A visit of an item with a property adds items with the property. -/
def Spreads (g : Grammar) (A : LookaheadItem → Prop) : Prop :=
  ∀ i id rest, A i → (g.rhsOf i.item.production).drop i.item.dot = .nonterminal id :: rest →
    ∀ p ∈ g.byLhs.getD id [], A ⟨⟨p, 0⟩, g.firstSets.ofSymbolsThen rest i.follow⟩

theorem AllItems.add {count p : Nat} {follow : KindSet} (hmerges : Merges A)
    (hindexed : c.Indexed count) (h : AllItems A c) (hnew : A ⟨⟨p, 0⟩, follow⟩) :
    AllItems A (c.add p follow).1 := by
  unfold ClosureState.add
  cases hplace : c.places.getD p none with
  | none =>
      intro n i hi
      dsimp only at hi
      rw [Array.getElem?_push] at hi
      split at hi
      · obtain rfl := Option.some.inj hi
        exact hnew
      · exact h n i hi
  | some place =>
      obtain ⟨own, hitem⟩ := hindexed.place p place hplace
      have hget : c.items.getD place default = ⟨⟨p, 0⟩, own⟩ := by
        rw [Array.getD_eq_getD_getElem?, hitem]
        rfl
      dsimp only
      rw [hget]
      split
      · exact h
      · intro n i hi
        dsimp only at hi
        rw [ClosureState.getElem?_modify_follow] at hi
        split at hi
        · rename_i hn
          rw [← hn, hitem, Option.map_some, Option.some.injEq] at hi
          rw [← hi]
          exact hmerges _ _ _ (h place _ hitem) hnew
        · exact h n i hi

theorem AllItems.addAll {count : Nat} {ps work : List Nat} {follow : KindSet}
    (hmerges : Merges A) (hindexed : c.Indexed count) (hps : ∀ p ∈ ps, p < count)
    (hfollow : follow.Markable) (h : AllItems A c) (hnew : ∀ p ∈ ps, A ⟨⟨p, 0⟩, follow⟩) :
    AllItems A (c.addAll follow ps work).1 := by
  induction ps generalizing c work with
  | nil => exact h
  | cons p ps ih =>
      have hone := h.add hmerges hindexed (hnew p List.mem_cons_self)
      have hindexed' := (hindexed.add (hps p List.mem_cons_self) hfollow).indexed
      have hps' := fun q hq => hps q (List.mem_cons_of_mem p hq)
      have hnew' := fun q hq => hnew q (List.mem_cons_of_mem p hq)
      unfold ClosureState.addAll
      generalize c.add p follow = added at *
      obtain ⟨c₁, place⟩ := added
      cases place with
      | none => exact ih hindexed' hps' hone hnew'
      | some n => exact ih hindexed' hps' hone hnew'

theorem AllItems.closeFrom (hg : g.WellFormed) (hmerges : Merges A) (hspreads : Spreads g A)
    {fuel : Nat} {work : List Nat} (hclosing : Closing g kernel work c) (h : AllItems A c) :
    AllItems A ((GrammarIndex.of g).closeFrom fuel work c) := by
  induction fuel generalizing work c with
  | zero => exact h
  | succ fuel ih =>
      cases work with
      | nil => exact h
      | cons n work =>
          rcases hclosing.next hg with
            ⟨i, id, rest, hi, hdrop, hbounds, hmarkable, hnext, _, hcloses⟩ | ⟨hnext, hcloses⟩
          · rw [hcloses]
            exact ih hnext (h.addAll hmerges hclosing.indexed hbounds hmarkable
              (hspreads i id rest (h n i hi) hdrop))
          · rw [hcloses]
            exact ih hnext h

/-- What the items of a kernel have, and visits spread, all items of its closure have. -/
theorem forall_mem_closure (hg : g.WellFormed) (hmarkable : ∀ i ∈ kernel, i.follow.Markable)
    (hmerges : Merges A) (hspreads : Spreads g A) (h : ∀ i ∈ kernel, A i) :
    ∀ i ∈ (GrammarIndex.of g).closure kernel, A i := by
  intro i hi
  obtain ⟨places, _, hclosure, hstart⟩ := closure_eq (g := g) hmarkable
  rw [hclosure] at hi
  have hall : AllItems A ⟨kernel.toArray, places⟩ := by
    intro n j hj
    exact h j (List.mem_of_getElem? (by simpa using hj))
  obtain ⟨n, hn⟩ := Array.mem_iff_getElem?.mp hi
  exact hall.closeFrom hg hmerges hspreads hstart n i hn

end

/-- No mark comes into a closure whose kernel has none. -/
theorem proper_of_mem_closure (hg : g.WellFormed) (hproper : ∀ i ∈ kernel, i.follow.Proper) :
    ∀ i ∈ (GrammarIndex.of g).closure kernel, i.follow.Proper := by
  refine forall_mem_closure hg (fun i hi => (hproper i hi).markable) ?_ ?_ hproper
  · exact fun _ _ _ hown hother => hown.or hother
  · exact fun i id rest hi hdrop p _ => bounded_ofSymbolsThen hg le_rfl hdrop hi

end GrammarIndex

end AspectLang
