import AspectLang.Proofs.Grammar.Derivation
import Mathlib.Data.List.Basic

/-! # The items of a state

`g.ItemOf kernel i` says that `i` is an item of the state with the given kernel.  The visits of
`Grammar.expand` keep `Expanding`, which says what is still to be visited, and their fuel is
enough to visit everything; so `Grammar.closure` lists exactly the items of a state
(`mem_closure_iff`). -/

namespace AspectLang.Grammar

variable {g : Grammar} {kernel : List Item}

/-- The items of a state: its kernel, and the start of every production of a nonterminal that
stands after a dot. -/
inductive ItemOf (g : Grammar) (kernel : List Item) : Item → Prop
  | kernel {i : Item} : i ∈ kernel → ItemOf g kernel i
  | start {i : Item} {p : Nat} {production : Production} : ItemOf g kernel i →
      g.next? i = some (.nonterminal production.lhs) → g.productions[p]? = some production →
        ItemOf g kernel ⟨p, 0⟩

theorem ItemOf.mono {g : Grammar} {kernel kernel' : List Item} {i : Item} (h : g.ItemOf kernel i)
    (hsub : ∀ j ∈ kernel, j ∈ kernel') : g.ItemOf kernel' i := by
  induction h with
  | kernel hi => exact .kernel (hsub _ hi)
  | start _ hnext hp ih => exact .start ih hnext hp

/-! ### Productions by their left side -/

/-- The left side of a production by number. -/
def lhsOf (g : Grammar) (p : Nat) : Nat := (g.productions.getD p default).lhs

theorem lhsOf_eq {p : Nat} {production : Production} (h : g.productions[p]? = some production) :
    g.lhsOf p = production.lhs := by
  unfold lhsOf
  rw [Array.getD_eq_getD_getElem?, h]
  rfl

theorem size_foldr_modify (lhs : Nat → Nat) (l : List Nat) (table : Array (List Nat)) :
    (l.foldr (fun p (table : Array (List Nat)) => table.modify (lhs p) (p :: ·)) table).size =
      table.size := by
  induction l with
  | nil => rfl
  | cons p l ih => simpa using ih

theorem getD_foldr_modify (lhs : Nat → Nat) (l : List Nat) {id count : Nat} (hid : id < count) :
    (l.foldr (fun p (table : Array (List Nat)) => table.modify (lhs p) (p :: ·))
      (Array.replicate count [])).getD id [] = l.filter fun p => lhs p = id := by
  induction l with
  | nil => simp [Array.getD, hid]
  | cons p l ih =>
      rw [List.foldr_cons, Array.getD_eq_getD_getElem?, Array.getElem?_modify]
      rw [Array.getD_eq_getD_getElem?] at ih
      by_cases hp : lhs p = id
      · rw [if_pos hp, List.filter_cons_of_pos (by simpa using hp), ← ih,
          Array.getElem?_eq_getElem (by rw [size_foldr_modify, Array.size_replicate]; exact hid)]
        rfl
      · rw [if_neg hp, List.filter_cons_of_neg (by simpa using hp), ← ih]

theorem byLhs_size : g.byLhs.size = g.nonterminals.size :=
  (size_foldr_modify g.lhsOf _ _).trans Array.size_replicate

theorem byLhs_getD {id : Nat} (hid : id < g.nonterminals.size) :
    g.byLhs.getD id [] = (List.range g.productions.size).filter fun p => g.lhsOf p = id :=
  getD_foldr_modify g.lhsOf _ hid

theorem mem_byLhs {id p : Nat} (h : p ∈ g.byLhs.getD id []) :
    ∃ production, g.productions[p]? = some production ∧ production.lhs = id := by
  rcases Nat.lt_or_ge id g.nonterminals.size with hid | hid
  · rw [byLhs_getD hid, List.mem_filter, List.mem_range, decide_eq_true_iff] at h
    have hp : g.productions[p]? = some g.productions[p] := Array.getElem?_eq_getElem h.1
    exact ⟨g.productions[p], hp, (lhsOf_eq hp).symm.trans h.2⟩
  · rw [← byLhs_size] at hid
    simp [Array.getD_eq_getD_getElem?, Array.getElem?_eq_none hid] at h

theorem WellFormed.mem_byLhs (hg : g.WellFormed) {p : Nat} {production : Production}
    (h : g.productions[p]? = some production) : p ∈ g.byLhs.getD production.lhs [] := by
  have hid := hg.lhs_lt production (Array.mem_of_getElem? h)
  rw [byLhs_getD hid, List.mem_filter, List.mem_range, decide_eq_true_iff]
  exact ⟨(Array.getElem?_eq_some_iff.mp h).1, lhsOf_eq h⟩

/-! ### Visits -/

theorem getD_setIfInBounds_self (seen : Array Bool) (id : Nat) :
    (seen.setIfInBounds id true).getD id true = true := by
  rcases Nat.lt_or_ge id seen.size with hlt | hge
  · rw [Array.getD_eq_getD_getElem?, Array.getElem?_setIfInBounds_self_of_lt hlt]
    rfl
  · rw [Array.getD_eq_getD_getElem?, Array.getElem?_eq_none (by simpa using hge)]
    rfl

theorem getD_setIfInBounds_of_ne {seen : Array Bool} {id id' : Nat} (h : id' ≠ id) :
    (seen.setIfInBounds id true).getD id' true = seen.getD id' true := by
  rw [Array.getD_eq_getD_getElem?, Array.getD_eq_getD_getElem?,
    Array.getElem?_setIfInBounds_ne h.symm]

theorem getD_setIfInBounds_of_getD {seen : Array Bool} {id id' : Nat}
    (h : seen.getD id' true = true) : (seen.setIfInBounds id true).getD id' true = true := by
  by_cases heq : id' = id
  · rw [heq]
    exact getD_setIfInBounds_self seen id
  · rw [getD_setIfInBounds_of_ne heq, h]

theorem nextNonterminal?_eq_some {i : Item} {id : Nat} :
    g.nextNonterminal? i = some id ↔ g.next? i = some (.nonterminal id) := by
  unfold nextNonterminal?
  split <;> simp_all

/-- A closure in progress: what is on the list of nonterminals to visit, what was visited, and
the items so far. -/
structure Expanding (g : Grammar) (kernel : List Item) (work : List Nat) (seen : Array Bool)
    (items : Array Item) : Prop where
  size : seen.size = g.nonterminals.size
  kernel_mem : ∀ i ∈ kernel, i ∈ items
  pending : ∀ i ∈ items, ∀ id, g.nextNonterminal? i = some id →
    id ∈ work ∨ seen.getD id true = true
  visited : ∀ id, seen.getD id true = true → ∀ p ∈ g.byLhs.getD id [], ⟨p, 0⟩ ∈ items
  itemOf : ∀ i ∈ items, g.ItemOf kernel i
  work_itemOf : ∀ id ∈ work, ∃ i, g.ItemOf kernel i ∧ g.nextNonterminal? i = some id

/-- Number of productions whose left side was not visited. -/
def unseen (g : Grammar) (seen : Array Bool) : Nat :=
  (List.range g.productions.size).countP fun p => !seen.getD (g.lhsOf p) true

theorem unseen_setIfInBounds {seen : Array Bool} {id : Nat} (hsize : seen.size = g.nonterminals.size)
    (hid : seen.getD id true = false) :
    g.unseen (seen.setIfInBounds id true) + (g.byLhs.getD id []).length = g.unseen seen := by
  have hlt : id < seen.size := by
    by_contra h
    simp [Array.getD_eq_getD_getElem?, Array.getElem?_eq_none (Nat.le_of_not_lt h)] at hid
  rw [byLhs_getD (by omega), ← List.countP_eq_length_filter]
  unfold unseen
  induction List.range g.productions.size with
  | nil => rfl
  | cons p l ih =>
      simp only [List.countP_cons]
      by_cases hp : g.lhsOf p = id
      · have h1 : (seen.setIfInBounds id true).getD (g.lhsOf p) true = true := by
          rw [hp, getD_setIfInBounds_self]
        have h2 : seen.getD (g.lhsOf p) true = false := by rw [hp, hid]
        rw [h1, h2]
        simp only [hp, Bool.not_true, Bool.not_false, Bool.false_eq_true, decide_true, if_true,
          if_false]
        omega
      · rw [getD_setIfInBounds_of_ne hp]
        simp only [hp, decide_false, Bool.false_eq_true, if_false]
        omega

/-- Passing over a nonterminal that was visited before. -/
theorem Expanding.skip {id : Nat} {work : List Nat} {seen : Array Bool} {items : Array Item}
    (h : g.Expanding kernel (id :: work) seen items) (hid : seen.getD id true = true) :
    g.Expanding kernel work seen items where
  size := h.size
  kernel_mem := h.kernel_mem
  pending := by
    intro i hi id' hnext
    rcases h.pending i hi id' hnext with hw | hs
    · rcases List.mem_cons.mp hw with rfl | hw
      · exact .inr hid
      · exact .inl hw
    · exact .inr hs
  visited := h.visited
  itemOf := h.itemOf
  work_itemOf := fun id' hid' => h.work_itemOf id' (List.mem_cons_of_mem id hid')

/-- The starts of the productions of a nonterminal. -/
def startsOf (g : Grammar) (id : Nat) : List Item := (g.byLhs.getD id []).map fun p => ⟨p, 0⟩

theorem Expanding.starts_itemOf {id : Nat} {work : List Nat} {seen : Array Bool}
    {items : Array Item} (h : g.Expanding kernel (id :: work) seen items) :
    ∀ i ∈ g.startsOf id, g.ItemOf kernel i := by
  intro i hi
  obtain ⟨p, hp, rfl⟩ := List.mem_map.mp hi
  obtain ⟨j, hj, hnext⟩ := h.work_itemOf id List.mem_cons_self
  obtain ⟨production, hproduction, rfl⟩ := mem_byLhs hp
  exact .start hj (nextNonterminal?_eq_some.mp hnext) hproduction

theorem mem_append_list {items : Array Item} {l : List Item} {i : Item} :
    i ∈ items ++ l ↔ i ∈ items ∨ i ∈ l := by
  rw [← Array.mem_toList_iff, ← Array.mem_toList_iff, Array.toList_appendList, List.mem_append]

/-- Visiting a nonterminal adds the starts of its productions. -/
theorem Expanding.visit {id : Nat} {work : List Nat} {seen : Array Bool} {items : Array Item}
    (h : g.Expanding kernel (id :: work) seen items) :
    g.Expanding kernel ((g.startsOf id).filterMap g.nextNonterminal? ++ work)
      (seen.setIfInBounds id true) (items ++ g.startsOf id) where
  size := by rw [Array.size_setIfInBounds, h.size]
  kernel_mem := fun i hi => mem_append_list.mpr (.inl (h.kernel_mem i hi))
  pending := by
    intro i hi id' hnext
    rcases mem_append_list.mp hi with hi | hi
    · rcases h.pending i hi id' hnext with hw | hs
      · rcases List.mem_cons.mp hw with rfl | hw
        · exact .inr (getD_setIfInBounds_self seen id')
        · exact .inl (List.mem_append_right _ hw)
      · exact .inr (getD_setIfInBounds_of_getD hs)
    · exact .inl (List.mem_append_left _ (List.mem_filterMap.mpr ⟨i, hi, hnext⟩))
  visited := by
    intro id' hid' p hp
    by_cases heq : id' = id
    · subst heq
      exact mem_append_list.mpr (.inr (List.mem_map_of_mem hp))
    · rw [getD_setIfInBounds_of_ne heq] at hid'
      exact mem_append_list.mpr (.inl (h.visited id' hid' p hp))
  itemOf := by
    intro i hi
    rcases mem_append_list.mp hi with hi | hi
    · exact h.itemOf i hi
    · exact h.starts_itemOf i hi
  work_itemOf := by
    intro id' hid'
    rcases List.mem_append.mp hid' with hid' | hid'
    · obtain ⟨i, hi, hnext⟩ := List.mem_filterMap.mp hid'
      exact ⟨i, h.starts_itemOf i hi, hnext⟩
    · exact h.work_itemOf id' (List.mem_cons_of_mem id hid')

/-- With enough fuel the visits end with nothing left to visit. -/
theorem Expanding.expand {fuel : Nat} {work : List Nat} {seen : Array Bool} {items : Array Item}
    (h : g.Expanding kernel work seen items) (hfuel : work.length + g.unseen seen < fuel) :
    ∃ seen', g.Expanding kernel [] seen' (g.expand g.byLhs fuel work seen items) := by
  induction fuel generalizing work seen items with
  | zero => omega
  | succ fuel ih =>
      cases work with
      | nil => exact ⟨seen, h⟩
      | cons id work =>
          rw [List.length_cons] at hfuel
          unfold Grammar.expand
          split
          · rename_i hid
            exact ih (h.skip hid) (by omega)
          · rename_i hid
            have hcount := unseen_setIfInBounds h.size (Bool.eq_false_iff.mpr hid)
            have hlength := List.length_filterMap_le g.nextNonterminal? (g.startsOf id)
            have hstarts : (g.startsOf id).length = (g.byLhs.getD id []).length := by
              simp [startsOf]
            refine ih h.visit ?_
            change ((g.startsOf id).filterMap g.nextNonterminal? ++ work).length + _ < fuel
            rw [List.length_append]
            omega

/-! ### The closure of a kernel -/

theorem expanding_kernel : g.Expanding kernel (kernel.filterMap g.nextNonterminal?)
    (Array.replicate g.nonterminals.size false) kernel.toArray where
  size := by simp
  kernel_mem := by simp
  pending := fun i hi id hnext => .inl (List.mem_filterMap.mpr ⟨i, by simpa using hi, hnext⟩)
  visited := by
    intro id hid p hp
    rcases Nat.lt_or_ge id g.nonterminals.size with hlt | hge
    · simp [Array.getD, hlt] at hid
    · rw [← byLhs_size] at hge
      simp [Array.getD_eq_getD_getElem?, Array.getElem?_eq_none hge] at hp
  itemOf := fun i hi => .kernel (by simpa using hi)
  work_itemOf := by
    intro id hid
    obtain ⟨i, hi, hnext⟩ := List.mem_filterMap.mp hid
    exact ⟨i, .kernel hi, hnext⟩

/-- **The closure of a kernel lists exactly the items of its state.** -/
theorem WellFormed.mem_closure_iff (hg : g.WellFormed) {i : Item} :
    i ∈ g.closure g.byLhs kernel ↔ g.ItemOf kernel i := by
  have hwork := List.length_filterMap_le g.nextNonterminal? kernel
  have hunseen : g.unseen (Array.replicate g.nonterminals.size false) ≤ g.productions.size := by
    simpa [unseen] using List.countP_le_length (l := List.range g.productions.size)
  have hfuel : (kernel.filterMap g.nextNonterminal?).length +
      g.unseen (Array.replicate g.nonterminals.size false) <
        kernel.length + g.productions.size + 1 := by omega
  obtain ⟨seen, h⟩ := expanding_kernel.expand hfuel
  unfold closure
  rw [Array.mem_toList_iff]
  refine ⟨h.itemOf i, fun hi => ?_⟩
  induction hi with
  | kernel hi => exact h.kernel_mem _ hi
  | start _ hnext hp ih =>
      rcases h.pending _ ih _ (nextNonterminal?_eq_some.mpr hnext) with hw | hs
      · cases hw
      · exact h.visited _ hs _ (hg.mem_byLhs hp)

end AspectLang.Grammar
