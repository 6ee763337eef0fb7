import AspectLang.Proofs.Binding.Grounded

/-! # Comparisons end

A comparison of two types is a recursion on calls: the pairs met so far and two types
(`EnvironmentPair.Call`).  Only a type variable or a capture on the left notes its pair; a step
from any other type goes to components that were made earlier.  So the levels that a call may
still need, the unmet pairs first and the rank of the left type second, go down with every call
(`levels_lt_of_calls`), no sequence of calls is endless, and the limit on the depth of a
comparison is never reached (`compareWithin_settles`).

The lemmas about one step compare two recursions at once: given comparisons for the components
that both end with the same outcome, so do the two steps. -/

namespace AspectLang

namespace Comparison

/-! ### Two comparisons with one outcome -/

/-- From any notes with a property both comparisons end, with the same answer and the same notes,
which have the property again. -/
def Settle (Q : MetPairs → Prop) (c c' : Comparison) : Prop :=
  ∀ met, Q met → ∃ answer after,
    c met = some (answer, after) ∧ c' met = some (answer, after) ∧ Q after

variable {Q : MetPairs → Prop} {a a' b b' : Comparison} {test : Bool}

theorem settle_pure : Settle Q (pure test) (pure test) :=
  fun met hmet => ⟨test, met, rfl, rfl, hmet⟩

theorem andThen_of_true {met between : MetPairs} (h : a met = some (true, between)) :
    a.andThen b met = b between := by
  unfold andThen
  simp only [bind, StateT.bind, Option.bind]
  rw [h]
  rfl

theorem andThen_of_false {met between : MetPairs} (h : a met = some (false, between)) :
    a.andThen b met = some (false, between) := by
  unfold andThen
  simp only [bind, StateT.bind, Option.bind]
  rw [h]
  rfl

theorem Settle.andThen (ha : Settle Q a a') (hb : Settle Q b b') :
    Settle Q (a.andThen b) (a'.andThen b') := by
  intro met hmet
  obtain ⟨answer, between, hrun, hrun', hbetween⟩ := ha met hmet
  cases answer with
  | false => exact ⟨false, between, andThen_of_false hrun, andThen_of_false hrun', hbetween⟩
  | true =>
      rw [andThen_of_true hrun, andThen_of_true hrun']
      exact hb between hbetween

theorem Settle.guarded (ha : Settle Q a a') :
    Settle Q (Comparison.guarded test a) (Comparison.guarded test a') := by
  cases test with
  | false => exact settle_pure
  | true => exact ha

/-- A pair met before settles the comparison; otherwise its components do, from notes with the
pair. -/
theorem settle_meeting {pair : TypeId × TypeId} {met : MetPairs} (hmet : Q met)
    (ha : pair ∉ met → ∃ answer after,
      a (pair :: met) = some (answer, after) ∧ a' (pair :: met) = some (answer, after) ∧ Q after) :
    ∃ answer after, meeting pair a met = some (answer, after) ∧
      meeting pair a' met = some (answer, after) ∧ Q after := by
  have hmeeting : ∀ c : Comparison, meeting pair c met =
      if met.contains pair then some (true, met) else c (pair :: met) := by
    intro c
    unfold meeting
    simp only [bind, StateT.bind, Option.bind, get, getThe, MonadStateOf.get, StateT.get, pure,
      modify, modifyGet, MonadStateOf.modifyGet]
    split <;> rfl
  rw [hmeeting a, hmeeting a']
  by_cases hpair : pair ∈ met
  · have hcontains : met.contains pair = true := List.contains_iff_mem.mpr hpair
    rw [if_pos hcontains, if_pos hcontains]
    exact ⟨true, met, rfl, rfl, hmet⟩
  · have hcontains : ¬ met.contains pair = true := fun h => hpair (List.contains_iff_mem.mp h)
    rw [if_neg hcontains, if_neg hcontains]
    exact ha hpair

section

variable {compare compare' : TypeId → TypeId → Comparison}

theorem settle_pairwise {ls rs : List TypeId}
    (h : ∀ x ∈ ls, ∀ y, Settle Q (compare x y) (compare' x y)) :
    Settle Q (pairwise compare ls rs) (pairwise compare' ls rs) := by
  induction ls generalizing rs with
  | nil =>
      cases rs with
      | nil => exact settle_pure
      | cons r rs => exact settle_pure
  | cons l ls ih =>
      cases rs with
      | nil => exact settle_pure
      | cons r rs =>
          have hhead := h l List.mem_cons_self r
          exact hhead.andThen (ih fun x hx => h x (List.mem_cons_of_mem l hx))

theorem settle_lists {ls rs : List TypeId}
    (h : ∀ x ∈ ls, ∀ y, Settle Q (compare x y) (compare' x y)) :
    Settle Q (lists compare ls rs) (lists compare' ls rs) :=
  (settle_pairwise h).guarded

theorem settle_optional {l r : Option TypeId}
    (h : ∀ x ∈ l, ∀ y, Settle Q (compare x y) (compare' x y)) :
    Settle Q (optional compare l r) (optional compare' l r) := by
  cases l with
  | none =>
      cases r with
      | none => exact settle_pure
      | some y => exact settle_pure
  | some x =>
      cases r with
      | none => exact settle_pure
      | some y => exact h x rfl y

end

end Comparison

namespace EnvironmentPair

open Comparison

variable {p : EnvironmentPair} {compare compare' : TypeId → TypeId → Comparison}
  {Q : MetPairs → Prop} {l r depth depth' : Nat} {met met' : MetPairs}

/-! ### One step from components that end -/

section

variable (h : ∀ x y, Settle Q (compare x y) (compare' x y))

include h

theorem settle_stepMethod (l r : MethodBinding) :
    Settle Q (stepMethod compare l r) (stepMethod compare' l r) := by
  have hreturn : Settle Q (optional compare l.returnType r.returnType)
      (optional compare' l.returnType r.returnType) := settle_optional fun x _ => h x
  have hclass : Settle Q (optional compare l.declaringClass r.declaringClass)
      (optional compare' l.declaringClass r.declaringClass) := settle_optional fun x _ => h x
  have hlists : ∀ ls rs, Settle Q (lists compare ls rs) (lists compare' ls rs) :=
    fun _ _ => settle_lists fun x _ => h x
  exact (hreturn.andThen ((hlists _ _).andThen
    (hclass.andThen ((hlists _ _).andThen (hlists _ _))))).guarded

theorem settle_stepMethodId (l r : MethodId) :
    Settle Q (p.stepMethodId compare l r) (p.stepMethodId compare' l r) := by
  unfold stepMethodId
  split
  · exact settle_stepMethod h _ _
  · exact settle_pure

theorem settle_stepDeclaring (l r : Option VariableOwner) :
    Settle Q (p.stepDeclaring compare l r) (p.stepDeclaring compare' l r) := by
  unfold stepDeclaring
  split
  · exact settle_pure
  · exact h _ _
  · exact settle_stepMethodId h _ _
  · exact settle_pure

theorem settle_stepVariable (l r : VariableType) :
    Settle Q (p.stepVariable compare l r) (p.stepVariable compare' l r) := by
  have hsuper : Settle Q (optional compare l.superclass r.superclass)
      (optional compare' l.superclass r.superclass) := settle_optional fun x _ => h x
  have hinterfaces : Settle Q (lists compare l.interfaces r.interfaces)
      (lists compare' l.interfaces r.interfaces) := settle_lists fun x _ => h x
  exact ((settle_stepDeclaring h _ _).andThen (hsuper.andThen hinterfaces)).guarded

/-- The components of a type variable or a capture are any types. -/
theorem settle_body_of_guarded {a : TypeBinding} (b : TypeBinding) (hg : isGuarded a = true) :
    Settle Q (p.body compare a b) (p.body compare' a b) := by
  cases a with
  | typeVariable v =>
      cases b with
      | typeVariable other => exact settle_stepVariable h v other
      | capture other _ _ _ => exact settle_stepVariable h v other
      | _ => exact settle_pure
  | capture v position wildcard sourceType =>
      cases b with
      | capture _ otherPosition otherWildcard otherSource =>
          have hwildcard : Settle Q (optional compare wildcard otherWildcard)
              (optional compare' wildcard otherWildcard) := settle_optional fun x _ => h x
          have hsource : Settle Q (optional compare sourceType otherSource)
              (optional compare' sourceType otherSource) := settle_optional fun x _ => h x
          exact (hwildcard.andThen hsource).guarded
      | _ => exact settle_pure
  | _ => cases hg

end

/-- Every other type goes on to its components only. -/
theorem settle_body_of_components {a : TypeBinding} (b : TypeBinding) (hg : isGuarded a = false)
    (h : ∀ x ∈ components a, ∀ y, Settle Q (compare x y) (compare' x y)) :
    Settle Q (p.body compare a b) (p.body compare' a b) := by
  cases a with
  | typeVariable v => cases hg
  | capture v position wildcard sourceType => cases hg
  | base id name =>
      cases b with
      | _ => exact settle_pure
  | array leaf dims =>
      cases b with
      | array otherLeaf otherDims =>
          have hleaf : leaf ∈ components (.array leaf dims) := List.mem_singleton.mpr rfl
          exact (h leaf hleaf otherLeaf).guarded
      | _ => exact settle_pure
  | parameterized reference generic arguments =>
      cases b with
      | parameterized other otherGeneric otherArguments => exact (settle_lists h).guarded
      | _ => exact settle_pure
  | wildcard kind bound =>
      cases b with
      | wildcard otherKind otherBound =>
          have hbound : Settle Q (optional compare bound otherBound)
              (optional compare' bound otherBound) :=
            settle_optional fun x hx => h x (Option.mem_toList.mpr hx)
          exact hbound.andThen settle_pure
      | _ => exact settle_pure
  | generic reference =>
      cases b with
      | generic other => exact (settle_lists h).guarded
      | _ => exact settle_pure
  | raw reference => exact settle_pure
  | reference reference => exact settle_pure

/-! ### Levels that are left -/

/-- The pairs of types that are not among the notes. -/
def unmet (p : EnvironmentPair) (met : MetPairs) : List (TypeId × TypeId) :=
  ((List.range p.left.types.size).product (List.range p.right.types.size)).filter
    fun pair => !met.contains pair

theorem mem_unmet {pair : TypeId × TypeId} : pair ∈ p.unmet met ↔
    (pair.1 < p.left.types.size ∧ pair.2 < p.right.types.size) ∧ pair ∉ met := by
  obtain ⟨x, y⟩ := pair
  unfold unmet
  rw [List.mem_filter, List.pair_mem_product, List.mem_range, List.mem_range]
  simp

theorem nodup_unmet : (p.unmet met).Nodup :=
  (List.nodup_range.product List.nodup_range).filter _

theorem unmet_length_le_pairCount (met : MetPairs) : (p.unmet met).length ≤ p.pairCount := by
  have hproduct := List.length_product (List.range p.left.types.size)
    (List.range p.right.types.size)
  rw [List.length_range, List.length_range] at hproduct
  exact (List.length_filter_le _ _).trans (Nat.le_of_eq hproduct)

theorem unmet_subset (h : met ⊆ met') : p.unmet met' ⊆ p.unmet met := by
  intro pair hpair
  obtain ⟨hvalid, hnot⟩ := mem_unmet.mp hpair
  exact mem_unmet.mpr ⟨hvalid, fun hmem => hnot (h hmem)⟩

theorem unmet_length_le (h : met ⊆ met') : (p.unmet met').length ≤ (p.unmet met).length :=
  (nodup_unmet.subperm (unmet_subset h)).length_le

/-- A pair of types that becomes a note leaves fewer pairs unmet. -/
theorem unmet_length_lt (hl : l < p.left.types.size) (hr : r < p.right.types.size)
    (hnot : (l, r) ∉ met) (h : (l, r) :: met ⊆ met') :
    (p.unmet met').length < (p.unmet met).length := by
  have hmem : (l, r) ∈ p.unmet met := mem_unmet.mpr ⟨⟨hl, hr⟩, hnot⟩
  have hnotmem : (l, r) ∉ p.unmet met' :=
    fun hin => (mem_unmet.mp hin).2 (h List.mem_cons_self)
  have hnodup : ((l, r) :: p.unmet met').Nodup := List.nodup_cons.mpr ⟨hnotmem, nodup_unmet⟩
  have hsubset : (l, r) :: p.unmet met' ⊆ p.unmet met :=
    List.cons_subset.mpr ⟨hmem, unmet_subset fun _ hx => h (List.mem_cons_of_mem _ hx)⟩
  exact (hnodup.subperm hsubset).length_le

/-- The levels that a comparison may still go down: all the way once for every unmet pair, and
once from its own left type. -/
def levels (p : EnvironmentPair) (met : MetPairs) (l r : TypeId) : Nat :=
  if r < p.right.types.size then (p.unmet met).length * (p.pairCount + 2) + p.rank l else 0

theorem levels_le (met : MetPairs) (l r : TypeId) :
    p.levels met l r ≤ (p.unmet met).length * (p.pairCount + 2) + p.rank l := by
  unfold levels
  split
  · exact Nat.le_refl _
  · exact Nat.zero_le _

theorem levels_eq (hr : r < p.right.types.size) :
    p.levels met l r = (p.unmet met).length * (p.pairCount + 2) + p.rank l := if_pos hr

theorem rank_eq_zero {x : Nat} (hx : ¬ x < p.left.types.size) : p.rank x = 0 := by
  have hnone : p.left.types[x]? = none := Array.getElem?_eq_none (Nat.le_of_not_lt hx)
  unfold rank
  rw [hnone]

theorem rank_le_pairCount_succ (hr : r < p.right.types.size) (x : Nat) :
    p.rank x ≤ p.pairCount + 1 := by
  by_cases hx : x < p.left.types.size
  · exact rank_le_pairCount hx hr
  · rw [rank_eq_zero hx]
    exact Nat.zero_le _

theorem levels_lt_depthLimit (met : MetPairs) (l r : TypeId) :
    p.levels met l r < p.depthLimit := by
  have hlimit : p.depthLimit = p.pairCount * (p.pairCount + 2) + (p.pairCount + 2) := by
    unfold depthLimit
    rw [← Nat.succ_mul]
    rfl
  by_cases hr : r < p.right.types.size
  · have hrank := p.rank_le_pairCount_succ hr l
    have hmul := Nat.mul_le_mul_right (p.pairCount + 2) (p.unmet_length_le_pairCount met)
    rw [levels_eq hr, hlimit]
    omega
  · have hzero : p.levels met l r = 0 := if_neg hr
    omega

/-- A component is fewer levels away, with any further notes. -/
theorem levels_lt_of_component (hleft : p.left.Grounded) {a : TypeBinding}
    (ha : p.left.types[l]? = some a) (hr : r < p.right.types.size) {x : Nat}
    (hx : x ∈ components a) (y : Nat) (hsub : met ⊆ met') :
    p.levels met' x y < p.levels met l r := by
  have hrank := rank_lt_of_component hleft ha hx
  have hle := p.levels_le met' x y
  have hmul := Nat.mul_le_mul_right (p.pairCount + 2) (p.unmet_length_le hsub)
  rw [levels_eq hr]
  omega

/-- One more note pays for going all the way down once. -/
theorem levels_lt_of_noted (hl : l < p.left.types.size) (hr : r < p.right.types.size)
    (hnot : (l, r) ∉ met) (hsub : (l, r) :: met ⊆ met') (x y : Nat) :
    p.levels met' x y < p.levels met l r := by
  have hrank := p.rank_le_pairCount_succ hr x
  have hle := p.levels_le met' x y
  have hmul := Nat.mul_le_mul_right (p.pairCount + 2)
    (Nat.succ_le_of_lt (unmet_length_lt hl hr hnot hsub))
  rw [Nat.succ_mul] at hmul
  rw [levels_eq hr]
  omega

theorem stepType_of_missing (h : p.left.types[l]? = none ∨ p.right.types[r]? = none) :
    p.stepType compare l r = pure false := by
  unfold stepType
  split
  · rename_i a b ha hb
    rw [ha, hb] at h
    simp at h
  · rfl

theorem stepType_eq {a b : TypeBinding} (ha : p.left.types[l]? = some a)
    (hb : p.right.types[r]? = some b) : p.stepType compare l r =
      if isGuarded a then meeting (l, r) (p.body compare a b) else p.body compare a b := by
  rw [← p.stepBinding_eq compare (l, r)]
  unfold stepType
  rw [ha, hb]

/-- **One step of two recursions**: when both settle every comparison that is fewer levels away,
with more notes than before, they settle this one too. -/
theorem stepType_settles (hleft : p.left.Grounded)
    (h : ∀ x y met', met ⊆ met' → p.levels met' x y < p.levels met l r → ∃ answer after,
      compare x y met' = some (answer, after) ∧ compare' x y met' = some (answer, after) ∧
        met' ⊆ after) :
    ∃ answer after, p.stepType compare l r met = some (answer, after) ∧
      p.stepType compare' l r met = some (answer, after) ∧ met ⊆ after := by
  by_cases hmissing : p.left.types[l]? = none ∨ p.right.types[r]? = none
  · rw [stepType_of_missing hmissing, stepType_of_missing hmissing]
    exact ⟨false, met, rfl, rfl, List.Subset.refl met⟩
  · rw [not_or] at hmissing
    obtain ⟨a, ha⟩ := Option.ne_none_iff_exists'.mp hmissing.1
    obtain ⟨b, hb⟩ := Option.ne_none_iff_exists'.mp hmissing.2
    have hl : l < p.left.types.size := (Array.getElem?_eq_some_iff.mp ha).1
    have hr : r < p.right.types.size := (Array.getElem?_eq_some_iff.mp hb).1
    rw [stepType_eq ha hb, stepType_eq ha hb]
    cases hg : isGuarded a with
    | false =>
        have hbody : Settle (met ⊆ ·) (p.body compare a b) (p.body compare' a b) := by
          refine settle_body_of_components b hg fun x hx y met' hsub => ?_
          obtain ⟨answer, after, hrun, hrun', hafter⟩ :=
            h x y met' hsub (levels_lt_of_component hleft ha hr hx y hsub)
          exact ⟨answer, after, hrun, hrun', List.Subset.trans hsub hafter⟩
        exact hbody met (List.Subset.refl met)
    | true =>
        refine settle_meeting (Q := (met ⊆ ·)) (List.Subset.refl met) fun hnot => ?_
        have hbody : Settle ((l, r) :: met ⊆ ·) (p.body compare a b) (p.body compare' a b) := by
          refine settle_body_of_guarded (fun x y met' hsub => ?_) b hg
          obtain ⟨answer, after, hrun, hrun', hafter⟩ :=
            h x y met' (List.Subset.trans (List.subset_cons_self _ _) hsub)
              (levels_lt_of_noted hl hr hnot hsub x y)
          exact ⟨answer, after, hrun, hrun', List.Subset.trans hsub hafter⟩
        obtain ⟨answer, after, hrun, hrun', hafter⟩ := hbody _ (List.Subset.refl _)
        exact ⟨answer, after, hrun, hrun', List.Subset.trans (List.subset_cons_self _ _) hafter⟩

/-! ### Calls -/

/-- One call of the recursion: the pairs met so far and the types to compare. -/
structure Call where
  met : MetPairs
  left : TypeId
  right : TypeId

/-- A comparison of types that never forgets a pair. -/
def Remembers (compare : TypeId → TypeId → Comparison) : Prop :=
  ∀ l r met answer after, compare l r met = some (answer, after) → met ⊆ after

/-- A call needs the answer of another one: some answers to all the other calls leave the step
without an outcome. -/
def Calls (p : EnvironmentPair) (caller callee : Call) : Prop :=
  ∃ compare, Remembers compare ∧
    (∀ other : Call, other ≠ callee → compare other.left other.right other.met ≠ none) ∧
    p.stepType compare caller.left caller.right caller.met = none

/-- Every call goes down. -/
theorem levels_lt_of_calls (hleft : p.left.Grounded) {caller callee : Call}
    (h : p.Calls caller callee) : p.levels callee.met callee.left callee.right <
      p.levels caller.met caller.left caller.right := by
  obtain ⟨compare, hremembers, hdefined, hstuck⟩ := h
  by_contra hle
  have hstep : ∃ answer after,
      p.stepType compare caller.left caller.right caller.met = some (answer, after) ∧
        p.stepType compare caller.left caller.right caller.met = some (answer, after) ∧
          caller.met ⊆ after := by
    refine stepType_settles hleft fun x y met' _ hlt => ?_
    have hother : (⟨met', x, y⟩ : Call) ≠ callee := fun heq => hle (heq ▸ hlt)
    obtain ⟨⟨answer, after⟩, hsome⟩ := Option.ne_none_iff_exists'.mp (hdefined _ hother)
    exact ⟨answer, after, hsome, hsome, hremembers x y met' answer after hsome⟩
  obtain ⟨answer, after, hsome, _⟩ := hstep
  rw [hstuck] at hsome
  cases hsome

theorem calls_wellFounded (hleft : p.left.Grounded) :
    WellFounded fun callee caller : Call => p.Calls caller callee :=
  Subrelation.wf (fun h => levels_lt_of_calls hleft h)
    (measure fun c : Call => p.levels c.met c.left c.right).wf

/-! ### The limit on the depth -/

/-- Beyond the levels of a call the depth makes no difference. -/
theorem compareWithin_settles (hleft : p.left.Grounded) (hdepth : p.levels met l r < depth)
    (hle : depth ≤ depth') : ∃ answer after,
      p.compareWithin depth l r met = some (answer, after) ∧
        p.compareWithin depth' l r met = some (answer, after) ∧ met ⊆ after := by
  induction depth generalizing depth' l r met with
  | zero => exact absurd hdepth (Nat.not_lt_zero _)
  | succ depth ih =>
      obtain ⟨deeper, rfl⟩ : ∃ deeper, depth' = deeper + 1 :=
        Nat.exists_eq_succ_of_ne_zero (by omega)
      exact stepType_settles hleft fun x y met' _ hlt => ih (by omega) (by omega)

theorem settle_compareTypes (hleft : p.left.Grounded) (l r : TypeId) :
    Settle (fun _ => True) (p.compareTypes l r) (p.compareTypes l r) := by
  intro met _
  obtain ⟨answer, after, hrun, _, _⟩ :=
    compareWithin_settles hleft (levels_lt_depthLimit met l r) (Nat.le_refl _)
  exact ⟨answer, after, hrun, hrun, trivial⟩

/-- A comparison of types is its own step: it solves the recursion without a limit. -/
theorem compareTypes_eq_stepType (hleft : p.left.Grounded) (l r : TypeId) (met : MetPairs) :
    p.compareTypes l r met = p.stepType p.compareTypes l r met := by
  obtain ⟨answer, after, hrun, hrun', _⟩ :=
    compareWithin_settles hleft (levels_lt_depthLimit met l r) (Nat.le_succ _)
  calc p.compareTypes l r met = some (answer, after) := hrun
    _ = p.stepType p.compareTypes l r met := hrun'.symm

theorem settle_compareBindings (hleft : p.left.Grounded) (l r : Binding) :
    Settle (fun _ => True) (p.compareBindings l r) (p.compareBindings l r) := by
  have htypes := settle_compareTypes (p := p) hleft
  have hoptional : ∀ l r : Option TypeId, Settle (fun _ => True)
      (optional p.compareTypes l r) (optional p.compareTypes l r) :=
    fun _ _ => settle_optional fun x _ => htypes x
  unfold compareBindings
  split
  · exact htypes _ _
  · exact settle_stepMethodId htypes _ _
  · split
    · exact ((hoptional _ _).andThen (hoptional _ _)).guarded
    · exact settle_pure
  · split
    · exact ((hoptional _ _).andThen settle_pure).guarded
    · exact settle_pure
  all_goals exact settle_pure

end EnvironmentPair

/-- **Every comparison over resolved units ends.**  No call needs itself through others, whatever
the pairs met so far; the comparison of types is the recursion without a limit; and comparisons of
bindings and of lists of types have an outcome from any pairs met. -/
theorem comparisons_terminate (left right : CompilationUnit) :
    let p : EnvironmentPair := ⟨left.resolve, right.resolve⟩
    (WellFounded fun callee caller : EnvironmentPair.Call => p.Calls caller callee) ∧
    (∀ l r met, p.compareTypes l r met = p.stepType p.compareTypes l r met) ∧
    (∀ l r met, ∃ answer after, p.compareBindings l r met = some (answer, after)) ∧
    (∀ ls rs met, ∃ answer after,
      Comparison.lists p.compareTypes ls rs met = some (answer, after)) := by
  intro p
  have hleft : p.left.Grounded := left.resolve_grounded
  refine ⟨EnvironmentPair.calls_wellFounded hleft,
    EnvironmentPair.compareTypes_eq_stepType hleft, fun l r met => ?_, fun ls rs met => ?_⟩
  · obtain ⟨answer, after, hrun, _⟩ :=
      EnvironmentPair.settle_compareBindings hleft l r met trivial
    exact ⟨answer, after, hrun⟩
  · have hlists : Comparison.Settle (fun _ => True) (Comparison.lists p.compareTypes ls rs)
        (Comparison.lists p.compareTypes ls rs) :=
      Comparison.settle_lists fun x _ => EnvironmentPair.settle_compareTypes hleft x
    obtain ⟨answer, after, hrun, _⟩ := hlists met trivial
    exact ⟨answer, after, hrun⟩

end AspectLang
