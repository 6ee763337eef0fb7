import AspectLang.Proofs.Binding.Rules
import Mathlib.Data.Finset.Card
import Mathlib.Data.List.ProdSigma

/-! # Comparisons decide the largest equality

Two types are equal when they lie in a relation that is closed under the rules
(`EnvironmentPair.Equal`), so that types which reach themselves are equal unless some rule tells
them apart.  A comparison that holds can be repeated with all the pairs it met (`replay`), and
every pair that it noted was compared and passed (`justified`): so the pairs that pass with these
notes make up a closed relation.  Conversely a comparison of related types never fails, and in
environments whose types are built from earlier ones (`Environment.Grounded`) it ends before its
depth does (`passes_of_closed`). -/

namespace AspectLang

/-- The types of an environment are built from earlier ones, but for the bounds of type variables
and the type variables of declarations. -/
structure Environment.Grounded (e : Environment) : Prop where
  array : ∀ (id leaf dims : Nat), e.types[id]? = some (.array leaf dims) → leaf < id
  parameterized : ∀ (id : Nat) (r : ReferenceBinding) (generic : Option TypeId)
    (arguments : List TypeId), e.types[id]? = some (.parameterized r generic arguments) →
      ∀ x : Nat, x ∈ arguments → x < id
  wildcard : ∀ (id : Nat) (kind : WildcardKind) (bound : Nat),
    e.types[id]? = some (.wildcard kind (some bound)) → bound < id
  generic : ∀ (id : Nat) (r : ReferenceBinding), e.types[id]? = some (.generic r) →
    ∀ x ∈ r.typeVariables, ∃ v, e.types[x]? = some (.typeVariable v)

theorem Comparison.holds_iff_passes {c : Comparison} :
    c.holds = true ↔ ∃ after, c.Passes [] after := by
  unfold Comparison.holds Passes StateT.run
  cases c [] with
  | none => simp
  | some out => simp [Prod.ext_iff]

namespace EnvironmentPair

open Comparison

variable {p : EnvironmentPair} {R : TypeId → TypeId → Prop} {depth l r : Nat}
  {met after V : MetPairs}

/-- A relation in which every two types are equal by a rule, given the relation. -/
def Closed (p : EnvironmentPair) (R : TypeId → TypeId → Prop) : Prop :=
  ∀ l r, R l r → p.Steps R l r

/-- The largest equality that is closed under the rules. -/
def Equal (p : EnvironmentPair) (l r : TypeId) : Prop := ∃ R, R l r ∧ p.Closed R

/-! ### What a comparison that holds has shown -/

/-- A comparison passes when the pair was noted before, or when its types follow a rule of
components that pass on the way. -/
theorem compareWithin_passes {T : MetPairs → MetPairs → Prop}
    (h : Traces T (p.compareWithin depth))
    (hpass : (p.compareWithin (depth + 1) l r).Passes met after) :
    ∃ a b, p.left.types[l]? = some a ∧ p.right.types[r]? = some b ∧
      ((isGuarded a = true ∧ (l, r) ∈ met ∧ after = met) ∨
        ∃ met', (met' = met ∨ met' = (l, r) :: met) ∧ (isGuarded a = true → (l, r) ∈ met') ∧
          T met' after ∧ TypeRule p (Via T (p.compareWithin depth) met' after) a b) := by
  unfold compareWithin stepType at hpass
  split at hpass
  · rename_i a b ha hb
    refine ⟨a, b, ha, hb, ?_⟩
    rw [stepBinding_eq] at hpass
    split at hpass
    · rename_i hguarded
      rcases meeting_passes.mp hpass with ⟨hmem, hafter⟩ | ⟨_, hbody⟩
      · exact .inl ⟨hguarded, hmem, hafter⟩
      · obtain ⟨hT, hrule⟩ := body_passes h hbody
        exact .inr ⟨_, .inr rfl, fun _ => List.mem_cons_self, hT, hrule⟩
    · rename_i hguarded
      obtain ⟨hT, hrule⟩ := body_passes h hpass
      exact .inr ⟨met, .inl rfl, fun hg => absurd hg hguarded, hT, hrule⟩
  · cases (pure_passes.mp hpass).1

/-- The converse for a set of pairs that holds the pair already. -/
theorem compareWithin_sure {P : MetPairs → Prop} {a b : TypeBinding}
    (ha : p.left.types[l]? = some a) (hb : p.right.types[r]? = some b)
    (hrule : isGuarded a = false → TypeRule p (fun x y => (p.compareWithin depth x y).Sure P) a b)
    (hguarded : isGuarded a = true → ∀ met, P met → (l, r) ∈ met) :
    (p.compareWithin (depth + 1) l r).Sure P := by
  unfold compareWithin stepType
  rw [ha, hb]
  dsimp only
  rw [stepBinding_eq]
  split
  · rename_i hg
    exact fun met hmet => ⟨met, meeting_passes.mpr (.inl ⟨hguarded hg met hmet, rfl⟩), hmet⟩
  · rename_i hg
    exact body_sure (hrule (Bool.eq_false_iff.mpr hg))

theorem traces_subset (p : EnvironmentPair) (depth : Nat) :
    Traces (· ⊆ ·) (p.compareWithin depth) where
  refl := fun _ => List.Subset.refl _
  trans := fun _ _ _ => List.Subset.trans
  passes := by
    induction depth with
    | zero => intro l r met after hpass; cases hpass
    | succ depth ih =>
        intro l r met after hpass
        have htraces : Traces (· ⊆ ·) (p.compareWithin depth) :=
          ⟨fun _ => List.Subset.refl _, fun _ _ _ => List.Subset.trans, ih⟩
        obtain ⟨_, _, _, _, ⟨_, _, rfl⟩ | ⟨met', hmet', _, hsub, _⟩⟩ :=
          compareWithin_passes htraces hpass
        · exact List.Subset.refl _
        · rcases hmet' with rfl | rfl
          · exact hsub
          · exact List.Subset.trans (List.subset_cons_self _ _) hsub

/-- A comparison that passed does so again when all its notes are there, and notes nothing. -/
theorem replay (hpass : (p.compareWithin depth l r).Passes met after) (hV : after ⊆ V) :
    (p.compareWithin depth l r).Passes V V := by
  induction depth generalizing l r met after with
  | zero => cases hpass
  | succ depth ih =>
      have hsure : (p.compareWithin (depth + 1) l r).Sure (· = V) := by
        obtain ⟨a, b, ha, hb, ⟨hg, hmem, rfl⟩ | ⟨met', _, hmem, hsub, hrule⟩⟩ :=
          compareWithin_passes (p.traces_subset depth) hpass
        · refine compareWithin_sure ha hb (fun hg' => ?_) fun _ met hmet => ?_
          · rw [hg] at hg'
            cases hg'
          · rw [hmet]
            exact hV hmem
        · refine compareWithin_sure ha hb (fun _ => hrule.mono ?_) fun hg met hmet => ?_
          · rintro x y ⟨before, then', _, hthen, hxy⟩ met rfl
            exact ⟨met, ih hxy (List.Subset.trans hthen hV), rfl⟩
          · rw [hmet]
            exact hV (hsub (hmem hg))
      obtain ⟨after', hagain, rfl⟩ := hsure V rfl
      exact hagain

/-- Types whose comparison passes with given notes. -/
def PassesWith (p : EnvironmentPair) (V : MetPairs) (l r : TypeId) : Prop :=
  ∃ depth, (p.compareWithin depth l r).Passes V V

/-- What a comparison adds to the notes follows a rule of types that pass with all of `V`, when
the notes are within `V`. -/
def Justifies (p : EnvironmentPair) (V met after : MetPairs) : Prop :=
  met ⊆ after ∧ (after ⊆ V → ∀ pair ∈ after, pair ∈ met ∨ p.Steps (p.PassesWith V) pair.1 pair.2)

theorem justifies_refl (met : MetPairs) : p.Justifies V met met :=
  ⟨List.Subset.refl _, fun _ _ hpair => .inl hpair⟩

theorem Justifies.trans {between : MetPairs} (h : p.Justifies V met between)
    (h' : p.Justifies V between after) : p.Justifies V met after := by
  refine ⟨List.Subset.trans h.1 h'.1, fun hafter pair hpair => ?_⟩
  rcases h'.2 hafter pair hpair with hbetween | hsteps
  · exact h.2 (List.Subset.trans h'.1 hafter) pair hbetween
  · exact .inr hsteps

/-- Every pair noted on the way was compared, and passed. -/
theorem justified (hpass : (p.compareWithin depth l r).Passes met after) :
    p.Justifies V met after := by
  induction depth generalizing l r met after with
  | zero => cases hpass
  | succ depth ih =>
      have htraces : Traces (p.Justifies V) (p.compareWithin depth) :=
        ⟨justifies_refl, fun _ _ _ => Justifies.trans, fun _ _ _ _ => ih⟩
      obtain ⟨a, b, ha, hb, ⟨_, _, rfl⟩ | ⟨met', hmet', _, hT, hrule⟩⟩ :=
        compareWithin_passes htraces hpass
      · exact justifies_refl _
      · rcases hmet' with rfl | rfl
        · exact hT
        · refine ⟨List.Subset.trans (List.subset_cons_self _ _) hT.1, fun hafter pair hpair => ?_⟩
          rcases hT.2 hafter pair hpair with hin | hsteps
          · rcases List.mem_cons.mp hin with rfl | hin
            · refine .inr ⟨a, b, ha, hb, hrule.mono ?_⟩
              rintro x y ⟨before, then', _, hthen, hxy⟩
              exact ⟨depth, replay hxy (List.Subset.trans hthen.1 hafter)⟩
            · exact .inl hin
          · exact .inr hsteps

/-- Types that pass with notes which are justified from the start make up a closed relation. -/
theorem closed_of_justifies (h : p.Justifies V [] V) : p.Closed (p.PassesWith V) := by
  rintro x y ⟨depth', hxy⟩
  cases depth' with
  | zero => cases hxy
  | succ depth' =>
      obtain ⟨a, b, ha, hb, ⟨_, hmem, _⟩ | ⟨met', _, _, _, hrule⟩⟩ :=
        compareWithin_passes (p.traces_subset depth') hxy
      · exact (h.2 (List.Subset.refl V) (x, y) hmem).resolve_left (by simp)
      · refine ⟨a, b, ha, hb, hrule.mono ?_⟩
        rintro u v ⟨before, then', _, hthen, huv⟩
        exact ⟨depth', replay huv hthen⟩

/-- **A comparison that holds has found a closed relation**: the types that pass with its notes. -/
theorem closed_passesWith (hpass : (p.compareWithin depth l r).Passes [] V) :
    p.Closed (p.PassesWith V) := closed_of_justifies (justified hpass)

theorem equal_of_passes (hpass : (p.compareWithin depth l r).Passes [] V) : p.Equal l r :=
  ⟨p.PassesWith V, ⟨depth, replay hpass (List.Subset.refl V)⟩, closed_passesWith hpass⟩

/-! ### How deep a comparison goes -/

/-- How far down a comparison goes before it notes a pair. -/
def rank (p : EnvironmentPair) (l : TypeId) : Nat :=
  match p.left.types[l]? with
  | some (.generic _) => 1
  | some (.array ..) | some (.parameterized ..) | some (.wildcard ..) => l + 2
  | _ => 0

/-- The types that a comparison goes on to without a note of the pair. -/
def components : TypeBinding → List TypeId
  | .array leaf _ => [leaf]
  | .parameterized _ _ arguments => arguments
  | .wildcard _ bound => bound.toList
  | .generic r => r.typeVariables
  | _ => []

theorem rank_le (x : Nat) : p.rank x ≤ x + 2 := by
  unfold rank
  split <;> omega

/-- Number of pairs of types. -/
def pairCount (p : EnvironmentPair) : Nat := p.left.types.size * p.right.types.size

theorem rank_le_pairCount {x : Nat} (hx : x < p.left.types.size)
    (hr : r < p.right.types.size) : p.rank x ≤ p.pairCount + 1 := by
  have hrank := p.rank_le (x := x)
  have hsize : p.left.types.size ≤ p.pairCount :=
    Nat.le_mul_of_pos_right _ (Nat.zero_lt_of_lt hr)
  omega

theorem rank_lt_of_component (hleft : p.left.Grounded) {a : TypeBinding}
    (ha : p.left.types[l]? = some a) {x : Nat} (hx : x ∈ components a) : p.rank x < p.rank l := by
  have hrank := p.rank_le (x := x)
  cases a with
  | array leaf dims =>
      obtain rfl : x = leaf := by simpa [components] using hx
      have hlt := hleft.array l x dims ha
      have hl : p.rank l = l + 2 := by simp [rank, ha]
      omega
  | parameterized reference generic arguments =>
      have hlt := hleft.parameterized l reference generic arguments ha x hx
      have hl : p.rank l = l + 2 := by simp [rank, ha]
      omega
  | wildcard kind bound =>
      obtain rfl : bound = some x := by simpa [components] using hx
      have hlt := hleft.wildcard l kind x ha
      have hl : p.rank l = l + 2 := by simp [rank, ha]
      omega
  | generic reference =>
      obtain ⟨v, hv⟩ := hleft.generic l reference ha x hx
      simp [rank, ha, hv]
  | _ => simp [components] at hx

/-- Where the pair is not noted, a rule is about components only. -/
theorem TypeRule.components {a b : TypeBinding} (h : TypeRule p R a b)
    (hg : isGuarded a = false) : TypeRule p (fun x y => x ∈ components a ∧ R x y) a b := by
  cases h with
  | base id name name' => exact .base id name name'
  | array dims hleaf => exact .array dims ⟨by simp [EnvironmentPair.components], hleaf⟩
  | parameterized hsame harguments =>
      exact .parameterized hsame ((List.forall₂_and_left _ _).mpr ⟨fun _ hx => hx, harguments⟩)
  | wildcard kind hbound =>
      refine .wildcard kind ?_
      cases hbound with
      | none => exact .none
      | some h => exact .some ⟨by simp [EnvironmentPair.components], h⟩
  | typeVariable => cases hg
  | capturedVariable => cases hg
  | capture => cases hg
  | generic hsame hvariables =>
      exact .generic hsame ((List.forall₂_and_left _ _).mpr ⟨fun _ hx => hx, hvariables⟩)
  | default hl hr hsame hpool hgeneric hraw => exact .default hl hr hsame hpool hgeneric hraw

/-- Notes of different pairs of types. -/
structure Notes (p : EnvironmentPair) (met : MetPairs) : Prop where
  nodup : met.Nodup
  valid : ∀ pair ∈ met, pair.1 < p.left.types.size ∧ pair.2 < p.right.types.size

theorem Notes.length_le (h : p.Notes met) : met.length ≤ p.pairCount := by
  have hsubset : met ⊆ (List.range p.left.types.size).product (List.range p.right.types.size) := by
    intro pair hpair
    obtain ⟨hl, hr⟩ := h.valid pair hpair
    exact List.mem_product.mpr ⟨List.mem_range.mpr hl, List.mem_range.mpr hr⟩
  have hle := (List.Nodup.subperm h.nodup hsubset).length_le
  have hproduct := List.length_product (List.range p.left.types.size)
    (List.range p.right.types.size)
  rw [List.length_range, List.length_range] at hproduct
  exact hle.trans (Nat.le_of_eq hproduct)

/-- The levels that a comparison may still need. -/
def need (p : EnvironmentPair) (met : MetPairs) (l : TypeId) : Nat :=
  (p.pairCount - met.length) * (p.pairCount + 2) + p.rank l

/-- **A comparison of related types passes**, given enough levels. -/
theorem passes_of_closed (hleft : p.left.Grounded) (hR : p.Closed R) (h : R l r)
    (hmet : p.Notes met) (hdepth : p.need met l < depth) :
    ∃ after, (p.compareWithin depth l r).Passes met after ∧ p.Notes after ∧
      met.length ≤ after.length := by
  induction depth generalizing l r met with
  | zero => exact absurd hdepth (Nat.not_lt_zero _)
  | succ depth ih =>
      obtain ⟨a, b, ha, hb, hrule⟩ := hR l r h
      have hl : l < p.left.types.size := (Array.getElem?_eq_some_iff.mp ha).1
      have hr : r < p.right.types.size := (Array.getElem?_eq_some_iff.mp hb).1
      have hunfold : p.compareWithin (depth + 1) l r =
          if isGuarded a then meeting (l, r) (p.body (p.compareWithin depth) a b)
          else p.body (p.compareWithin depth) a b := by
        rw [← p.stepBinding_eq (p.compareWithin depth) (l, r)]
        unfold compareWithin stepType
        rw [ha, hb]
      rw [hunfold]
      cases hg : isGuarded a with
      | false =>
          -- the components are lower, and the notes only get more
          have hsure : (p.body (p.compareWithin depth) a b).Sure fun notes =>
              p.Notes notes ∧ met.length ≤ notes.length := by
            refine body_sure ((hrule.components hg).mono ?_)
            rintro x y ⟨hx, hxy⟩ notes ⟨hnotes, hlength⟩
            have hrank := rank_lt_of_component hleft ha hx
            have hneed : p.need notes x < depth := by
              have hmul := Nat.mul_le_mul_right (p.pairCount + 2)
                (Nat.sub_le_sub_left hlength p.pairCount)
              unfold need at hdepth ⊢
              omega
            obtain ⟨after, hpass, hafter, hle⟩ := ih hxy hnotes hneed
            exact ⟨after, hpass, hafter, hlength.trans hle⟩
          exact hsure met ⟨hmet, Nat.le_refl _⟩
      | true =>
          rw [if_pos rfl]
          by_cases hmem : (l, r) ∈ met
          · exact ⟨met, meeting_passes.mpr (.inl ⟨hmem, rfl⟩), hmet, Nat.le_refl _⟩
          · have hnoted : p.Notes ((l, r) :: met) := by
              refine ⟨List.nodup_cons.mpr ⟨hmem, hmet.nodup⟩, ?_⟩
              rintro pair hpair
              rcases List.mem_cons.mp hpair with rfl | hpair
              · exact ⟨hl, hr⟩
              · exact hmet.valid pair hpair
            have hcount := hnoted.length_le
            rw [List.length_cons] at hcount
            -- one note more pays for going all the way down once
            have hsure : (p.body (p.compareWithin depth) a b).Sure fun notes =>
                p.Notes notes ∧ met.length + 1 ≤ notes.length := by
              refine body_sure (hrule.mono ?_)
              rintro x y hxy notes ⟨hnotes, hlength⟩
              obtain ⟨c, d, hc, hd, _⟩ := hR x y hxy
              have hx : x < p.left.types.size := (Array.getElem?_eq_some_iff.mp hc).1
              have hrank := rank_le_pairCount hx hr
              have hneed : p.need notes x < depth := by
                have hmul := Nat.mul_le_mul_right (p.pairCount + 2)
                  (Nat.sub_le_sub_left hlength p.pairCount)
                have hsplit : (p.pairCount - met.length) * (p.pairCount + 2) =
                    (p.pairCount - (met.length + 1)) * (p.pairCount + 2) + (p.pairCount + 2) := by
                  rw [← Nat.succ_mul]
                  congr 1
                  omega
                unfold need at hdepth ⊢
                omega
              obtain ⟨after, hpass, hafter, hle⟩ := ih hxy hnotes hneed
              exact ⟨after, hpass, hafter, hlength.trans hle⟩
            obtain ⟨after, hpass, hafter, hle⟩ := hsure _ ⟨hnoted, Nat.le_refl _⟩
            exact ⟨after, meeting_passes.mpr (.inr ⟨hmem, hpass⟩), hafter, by omega⟩

/-- A comparison of equal types passes whatever it has noted. -/
theorem sure_of_equal (hleft : p.left.Grounded) (h : p.Equal l r) :
    (p.compareTypes l r).Sure p.Notes := by
  intro met hmet
  obtain ⟨R, hlr, hR⟩ := h
  obtain ⟨a, b, ha, hb, _⟩ := hR l r hlr
  have hl : l < p.left.types.size := (Array.getElem?_eq_some_iff.mp ha).1
  have hr : r < p.right.types.size := (Array.getElem?_eq_some_iff.mp hb).1
  have hneed : p.need met l < p.depthLimit := by
    have hrank := rank_le_pairCount hl hr
    have hlimit : p.depthLimit = p.pairCount * (p.pairCount + 2) + (p.pairCount + 2) := by
      unfold depthLimit
      rw [← Nat.succ_mul]
      rfl
    have hmul := Nat.mul_le_mul_right (p.pairCount + 2) (Nat.sub_le p.pairCount met.length)
    unfold need
    omega
  obtain ⟨after, hpass, hafter, _⟩ := passes_of_closed hleft hR hlr hmet hneed
  exact ⟨after, hpass, hafter⟩

theorem notes_nil : p.Notes [] := ⟨List.nodup_nil, by simp⟩

theorem passes_of_equal (hleft : p.left.Grounded) (h : p.Equal l r) :
    ∃ after, (p.compareTypes l r).Passes [] after := by
  obtain ⟨after, hpass, _⟩ := sure_of_equal hleft h [] notes_nil
  exact ⟨after, hpass⟩

/-- Comparisons decide the largest equality. -/
theorem holds_iff_equal (hleft : p.left.Grounded) :
    (p.compareTypes l r).holds = true ↔ p.Equal l r := by
  rw [holds_iff_passes]
  exact ⟨fun ⟨_, hpass⟩ => equal_of_passes hpass, passes_of_equal hleft⟩

end EnvironmentPair

end AspectLang
