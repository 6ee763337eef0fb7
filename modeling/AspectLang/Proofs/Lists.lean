import Mathlib.Data.List.Sort

/-! # Lists without repetition

`List.eraseDups` keeps the first of the equal elements of a list.  What it leaves, put in order, is
strictly increasing, and so it is known by its elements alone (`sorted_eraseDups_congr`). -/

namespace AspectLang

theorem eraseDups_sublist {α : Type} [BEq α] [LawfulBEq α] (l : List α) :
    l.eraseDups.Sublist l := by
  induction h : l.length using Nat.strong_induction_on generalizing l with
  | _ n ih =>
      cases l with
      | nil => simp
      | cons a l =>
          rw [List.eraseDups_cons]
          have hlen := List.length_filter_le (fun b => !b == a) l
          rw [List.length_cons] at h
          exact ((ih _ (by omega) _ rfl).trans List.filter_sublist).cons_cons a

theorem nodup_eraseDups {α : Type} [BEq α] [LawfulBEq α] (l : List α) : l.eraseDups.Nodup := by
  induction h : l.length using Nat.strong_induction_on generalizing l with
  | _ n ih =>
      cases l with
      | nil => simp
      | cons a l =>
          rw [List.eraseDups_cons, List.nodup_cons]
          have hlen := List.length_filter_le (fun b => !b == a) l
          rw [List.length_cons] at h
          refine ⟨?_, ih _ (by omega) _ rfl⟩
          rw [List.mem_eraseDups, List.mem_filter]
          simp

section

variable {α : Type} [LinearOrder α]

theorem sorted_eraseDups (l : List α) : (l.eraseDups.mergeSort (· ≤ ·)).Pairwise (· < ·) := by
  have hle : (l.eraseDups.mergeSort (· ≤ ·)).Pairwise (· ≤ ·) := by
    refine (List.pairwise_mergeSort (fun a b c hab hbc => ?_) (fun a b => ?_) _).imp
      of_decide_eq_true
    · exact decide_eq_true ((of_decide_eq_true hab).trans (of_decide_eq_true hbc))
    · simpa using le_total a b
  have hnodup : (l.eraseDups.mergeSort (· ≤ ·)).Nodup :=
    (List.mergeSort_perm _ _).nodup_iff.mpr (nodup_eraseDups l)
  exact (hle.and hnodup).imp fun h => lt_of_le_of_ne h.1 h.2

theorem sorted_eraseDups_congr {l l' : List α} (h : ∀ a, a ∈ l ↔ a ∈ l') :
    l.eraseDups.mergeSort (· ≤ ·) = l'.eraseDups.mergeSort (· ≤ ·) := by
  refine (sorted_eraseDups l).eq_of_mem_iff (sorted_eraseDups l') fun a => ?_
  rw [List.mem_mergeSort, List.mem_mergeSort, List.mem_eraseDups, List.mem_eraseDups, h]

end

end AspectLang
