import AspectLang.Proofs.Automaton.LookaheadClosure
import Mathlib.Algebra.BigOperators.Fin
import Mathlib.Algebra.BigOperators.Ring.Finset

/-! # Propagation of lookaheads

The lookahead sets of a grammar's kernels are read by state and place (`setAt`).  Merging only adds
to them (`Fits.mergeEach`), and a round that changes something uses up some of what can still be
added, so the rounds of `GrammarIndex.lookaheads` end with sets that nothing is handed on to.

What the closure of a whole kernel holds comes from the probes of its items: a terminal that follows
an item there follows it in the probe of some kernel item, or it follows that kernel item and the
mark has come to the other one (`exists_probe`).  Hence the sets at the end are `Stable`: the set of
every item of a state is within that of the advanced item in the state that its edge leads to
(`lookaheads_stable`). -/

namespace AspectLang

namespace KindSet

theorem has_mark (c : Nat) : mark.has c = decide (TokenKind.columnCount = c) := by
  unfold mark has
  rw [Nat.one_shiftLeft, Nat.testBit_two_pow]

theorem has_unmarked (s : KindSet) (c : Nat) :
    s.unmarked.has c = (decide (c < TokenKind.columnCount) && s.has c) := by
  unfold unmarked mark
  rw [Nat.one_shiftLeft]
  exact Nat.testBit_mod_two_pow s _ c

theorem markable_mark : mark.Markable := by
  intro c hc
  rw [has_mark, decide_eq_true_eq] at hc
  omega

theorem proper_unmarked (s : KindSet) : s.unmarked.Proper := by
  intro c hc
  rw [has_unmarked, Bool.and_eq_true, decide_eq_true_eq] at hc
  exact hc.1

/-- A column of the tables is not lost with the mark. -/
theorem has_unmarked_of_lt {s : KindSet} {c : Nat} (h : s.has c = true)
    (hc : c < TokenKind.columnCount) : s.unmarked.has c = true := by
  simp [has_unmarked, h, hc]

end KindSet

namespace GrammarIndex

variable {g : Grammar} {sets sets' : Array (List KindSet)}

/-! ### Sets by state and place -/

/-- Every set is contained in the one at the same place. -/
def Below (sets sets' : Array (List KindSet)) : Prop :=
  ∀ state place, (setAt sets state place).Within (setAt sets' state place)

/-- The sets fit the kernels of the grammar: there is one for each kernel item, with columns of
the tables only, and the start production is followed by nothing but the end of input. -/
structure Fits (g : Grammar) (sets : Array (List KindSet)) : Prop where
  size : sets.size = g.itemGraph.kernels.size
  length : ∀ (state : Nat) (kernel : List Item), g.itemGraph.kernels[state]? = some kernel →
    (sets.getD state []).length = kernel.length
  proper : ∀ state place, (setAt sets state place).Proper
  start : g.StartIsolated → ∀ (state place : Nat) (kernel : List Item) (i : Item),
    g.itemGraph.kernels[state]? = some kernel → kernel[place]? = some i → i.production = 0 →
      (setAt sets state place).Within (KindSet.ofKind .eof)

theorem Below.refl (sets : Array (List KindSet)) : Below sets sets := fun _ _ => .refl _

theorem Below.trans {sets'' : Array (List KindSet)} (h : Below sets sets')
    (h' : Below sets' sets'') : Below sets sets'' :=
  fun state place => (h state place).trans (h' state place)

theorem Below.antisymm (hf : Fits g sets) (hf' : Fits g sets') (h : Below sets sets')
    (h' : Below sets' sets) : sets = sets' := by
  refine Array.ext (hf.size.trans hf'.size.symm) fun state hs hs' => ?_
  have hlt : state < g.itemGraph.kernels.size := hf.size ▸ hs
  have hlength := hf.length state _ (Array.getElem?_eq_getElem hlt)
  have hlength' := hf'.length state _ (Array.getElem?_eq_getElem hlt)
  have hsets : ∀ place, setAt sets state place = setAt sets' state place :=
    fun place => (h state place).antisymm (h' state place)
  simp only [setAt, Array.getD, hs, hs', dif_pos, Array.getInternal_eq_getElem] at hsets
  simp only [Array.getD, hs, hs', dif_pos, Array.getInternal_eq_getElem] at hlength hlength'
  refine List.ext_getElem (hlength.trans hlength'.symm) fun place hp hp' => ?_
  simpa [hp, hp'] using hsets place

/-! ### The items of a state with their sets -/

/-- The items of a state, each with the terminals that may follow it. -/
def stateItems (g : Grammar) (sets : Array (List KindSet)) (state : Nat) : Array LookaheadItem :=
  (GrammarIndex.of g).closure
    (withFollow (g.itemGraph.kernels.getD state []) (sets.getD state []))

theorem getD_kernels {state : Nat} {kernel : List Item}
    (h : g.itemGraph.kernels[state]? = some kernel) :
    g.itemGraph.kernels.getD state [] = kernel := by
  rw [Array.getD_eq_getD_getElem?, h]
  rfl

theorem getElem?_setAt {state place : Nat} (h : place < (sets.getD state []).length) :
    (sets.getD state [])[place]? = some (setAt sets state place) := by
  unfold setAt
  rw [List.getD_eq_getElem?_getD, List.getElem?_eq_getElem h]
  rfl

theorem Fits.getElem?_withFollow (hf : Fits g sets) {state place : Nat} {kernel : List Item}
    (h : g.itemGraph.kernels[state]? = some kernel) {i : LookaheadItem} :
    (withFollow kernel (sets.getD state []))[place]? = some i ↔
      kernel[place]? = some i.item ∧ setAt sets state place = i.follow := by
  unfold withFollow
  rw [List.getElem?_zipWith]
  cases hk : kernel[place]? with
  | none => simp
  | some item =>
      have hlt : place < (sets.getD state []).length := by
        rw [hf.length state kernel h]
        exact (List.getElem?_eq_some_iff.mp hk).1
      rw [getElem?_setAt hlt]
      obtain ⟨item', follow⟩ := i
      simp

theorem Fits.withFollow_items (hf : Fits g sets) {state : Nat} {kernel : List Item}
    (h : g.itemGraph.kernels[state]? = some kernel) :
    (withFollow kernel (sets.getD state [])).map LookaheadItem.item = kernel := by
  have hlength := hf.length state kernel h
  have hsame : ((withFollow kernel (sets.getD state [])).map LookaheadItem.item).length =
      kernel.length := by
    rw [List.length_map, withFollow, List.length_zipWith, hlength, Nat.min_self]
  refine List.ext_getElem hsame fun place hp hp' => ?_
  simp [withFollow]

theorem Fits.withFollow_proper (hf : Fits g sets) {state : Nat} {kernel : List Item}
    (h : g.itemGraph.kernels[state]? = some kernel) :
    ∀ i ∈ withFollow kernel (sets.getD state []), i.follow.Proper := by
  intro i hi
  obtain ⟨place, hplace⟩ := List.mem_iff_getElem?.mp hi
  rw [← ((hf.getElem?_withFollow h).mp hplace).2]
  exact hf.proper state place

theorem Fits.withFollow_markable (hf : Fits g sets) {state : Nat} {kernel : List Item}
    (h : g.itemGraph.kernels[state]? = some kernel) :
    ∀ i ∈ withFollow kernel (sets.getD state []), i.follow.Markable :=
  fun i hi => (hf.withFollow_proper h i hi).markable

section

variable (hg : g.WellFormed) (hf : Fits g sets) {state : Nat} {kernel : List Item}
  (hk : g.itemGraph.kernels[state]? = some kernel) {i : LookaheadItem}

include hg hf hk

theorem mem_stateItems_spec (hi : i ∈ stateItems g sets state) :
    g.ItemOf kernel i.item ∧ i.follow.Proper := by
  unfold stateItems at hi
  rw [getD_kernels hk] at hi
  have hitem := itemOf_of_mem_closure hg (hf.withFollow_markable hk) hi
  rw [hf.withFollow_items hk] at hitem
  exact ⟨hitem, proper_of_mem_closure hg (hf.withFollow_proper hk) i hi⟩

theorem stateItems_keeps {place : Nat} {j : Item} (hj : kernel[place]? = some j) :
    ∃ follow, (stateItems g sets state)[place]? = some ⟨j, follow⟩ ∧
      (setAt sets state place).Within follow := by
  unfold stateItems
  rw [getD_kernels hk]
  exact closure_keeps hg (hf.withFollow_markable hk) (i := ⟨j, setAt sets state place⟩)
    ((hf.getElem?_withFollow hk).mpr ⟨hj, rfl⟩)

theorem stateItems_hasStart {p : Nat} {production : Production} {rest : List Symbol}
    (hi : i ∈ stateItems g sets state)
    (hdrop : (g.rhsOf i.item.production).drop i.item.dot = .nonterminal production.lhs :: rest)
    (hp : g.productions[p]? = some production) :
    ∃ follow, ⟨⟨p, 0⟩, follow⟩ ∈ stateItems g sets state ∧
      (g.firstSets.ofSymbolsThen rest i.follow).Within follow := by
  unfold stateItems at hi ⊢
  rw [getD_kernels hk] at hi ⊢
  exact closure_hasStart hg (hf.withFollow_markable hk) hi hdrop hp

/-- The start production stands where its kernel has it, before the end of input only. -/
theorem stateItems_start (hstart : g.StartIsolated) {place : Nat}
    (hi : (stateItems g sets state)[place]? = some i) (hzero : i.item.production = 0) :
    kernel[place]? = some i.item ∧ i.follow.Within (KindSet.ofKind .eof) := by
  unfold stateItems at hi
  rw [getD_kernels hk] at hi
  have hkernel := kernel_of_closure_start hg (hf.withFollow_markable hk) hstart hi hzero
  obtain ⟨hitem, hset⟩ := (hf.getElem?_withFollow hk).mp hkernel
  exact ⟨hitem, hset ▸ hf.start hstart state place kernel i.item hk hitem hzero⟩

end

/-! ### Merging -/

theorem setAt_mergeAt (sets : Array (List KindSet)) (target place : Nat) (follow : KindSet)
    (state place' : Nat) :
    setAt (mergeAt sets target place follow) state place' =
      if target = state ∧ place = place' ∧ place < (sets.getD target []).length then
        setAt sets state place' ||| follow
      else setAt sets state place' := by
  unfold setAt mergeAt
  rw [Array.getD_eq_getD_getElem?, Array.getElem?_modify, Array.getD_eq_getD_getElem?,
    Array.getD_eq_getD_getElem?]
  by_cases hstate : target = state
  · subst hstate
    cases hown : sets[target]? with
    | none => simp
    | some own =>
        simp only [if_true, Option.map_some, Option.getD_some, List.getD_eq_getElem?_getD,
          List.getElem?_modify, true_and]
        by_cases hplace : place = place'
        · subst hplace
          by_cases hlt : place < own.length
          · simp [hlt]
          · simp [hlt]
        · simp [hplace]
  · simp [hstate]

/-- What merging a set into the set of a kernel item comes to. -/
theorem Fits.mergeAt (hf : Fits g sets) {target place : Nat} {kernel : List Item} {i : Item}
    {follow : KindSet} (hk : g.itemGraph.kernels[target]? = some kernel)
    (hi : kernel[place]? = some i) (hfollow : follow.Proper)
    (hzero : g.StartIsolated → i.production = 0 → follow.Within (KindSet.ofKind .eof)) :
    Fits g (mergeAt sets target place follow) ∧ Below sets (mergeAt sets target place follow) ∧
      follow.Within (setAt (mergeAt sets target place follow) target place) := by
  have hlt : place < (sets.getD target []).length := by
    rw [hf.length target kernel hk]
    exact (List.getElem?_eq_some_iff.mp hi).1
  refine ⟨⟨?_, ?_, ?_, ?_⟩, ?_, ?_⟩
  · unfold GrammarIndex.mergeAt
    rw [Array.size_modify]
    exact hf.size
  · intro state k hstate
    unfold GrammarIndex.mergeAt
    rw [Array.getD_eq_getD_getElem?, Array.getElem?_modify]
    have hlength := hf.length state k hstate
    rw [Array.getD_eq_getD_getElem?] at hlength
    split
    · cases hown : sets[state]? with
      | none => simpa [hown] using hlength
      | some own => simpa [hown] using hlength
    · exact hlength
  · intro state place'
    rw [setAt_mergeAt]
    split
    · exact (hf.proper state place').or hfollow
    · exact hf.proper state place'
  · intro hstart state place' k j hstate hj hjzero
    rw [setAt_mergeAt]
    split
    · rename_i hhere
      obtain ⟨rfl, rfl, _⟩ := hhere
      rw [hk, Option.some.injEq] at hstate
      subst hstate
      rw [hi, Option.some.injEq] at hj
      subst hj
      exact (hf.start hstart target place kernel i hk hi hjzero).or (hzero hstart hjzero)
    · exact hf.start hstart state place' k j hstate hj hjzero
  · intro state place'
    rw [setAt_mergeAt]
    split
    · exact KindSet.within_or_left _ _
    · exact .refl _
  · rw [setAt_mergeAt, if_pos ⟨rfl, rfl, hlt⟩]
    exact KindSet.within_or_right _ _

/-! ### What probes find -/

/-- The closure of a kernel item that nothing but the mark follows. -/
def probeItems (g : Grammar) (j : Item) : Array LookaheadItem :=
  (GrammarIndex.of g).closure [⟨j, .mark⟩]

/-- A terminal, or the mark, may follow an item. -/
def Follows (items : Array LookaheadItem) (item : Item) (column : Nat) : Prop :=
  ∃ follow, ⟨item, follow⟩ ∈ items ∧ follow.has column = true

theorem markable_probe (j : Item) :
    ∀ i ∈ [LookaheadItem.mk j KindSet.mark], i.follow.Markable := by
  intro i hi
  rw [List.mem_singleton.mp hi]
  exact KindSet.markable_mark

/-- The finding is about an item in the probe of a kernel item, which advances along an edge. -/
structure Found (g : Grammar) (f : Finding) (j : Item) (i : LookaheadItem) : Prop where
  probed : ∃ kernel, g.itemGraph.kernels[f.state]? = some kernel ∧ kernel[f.place]? = some j
  mem : i ∈ probeItems g j
  edge : ∃ s, g.next? i.item = some s ∧ g.itemGraph.edge? f.state s = some f.target
  targetPlace : f.targetPlace = (g.itemGraph.kernels.getD f.target []).idxOf i.item.advance
  follow : f.follow = i.follow

theorem mem_probe_iff {state place : Nat} {item : Item} {f : Finding} :
    f ∈ (GrammarIndex.of g).probe g.itemGraph state item place ↔
      f.state = state ∧ f.place = place ∧ ∃ i ∈ probeItems g item,
        (∃ s, g.next? i.item = some s ∧ g.itemGraph.edge? state s = some f.target) ∧
          f.targetPlace = (g.itemGraph.kernels.getD f.target []).idxOf i.item.advance ∧
            f.follow = i.follow := by
  unfold probe
  rw [List.mem_filterMap]
  constructor
  · rintro ⟨i, hi, hfound⟩
    rw [Array.mem_toList_iff] at hi
    split at hfound
    · cases hfound
    · rename_i s hnext
      obtain ⟨target, hedge, rfl⟩ := Option.map_eq_some_iff.mp hfound
      exact ⟨rfl, rfl, i, hi, ⟨s, hnext, hedge⟩, rfl, rfl⟩
  · obtain ⟨state', place', target, targetPlace, follow⟩ := f
    rintro ⟨rfl, rfl, i, hi, ⟨s, hnext, hedge⟩, hplace, hfollow⟩
    dsimp only at hedge hplace hfollow ⊢
    subst hplace hfollow
    refine ⟨i, Array.mem_toList_iff.mpr hi, ?_⟩
    have hnext' : (GrammarIndex.of g).grammar.next? i.item = some s := hnext
    rw [hnext']
    exact Option.map_eq_some_iff.mpr ⟨target, hedge, rfl⟩

theorem mem_findings_iff {f : Finding} :
    f ∈ (GrammarIndex.of g).findings g.itemGraph ↔ ∃ j i, Found g f j i := by
  unfold findings
  simp only [List.mem_flatMap, List.mem_range]
  constructor
  · rintro ⟨state, hstate, ⟨j, place⟩, hj, hf⟩
    obtain ⟨rfl, rfl, i, hi, hedge, hplace, hfollow⟩ := mem_probe_iff.mp hf
    have hk := Array.getElem?_eq_getElem hstate
    rw [getD_kernels hk, List.mem_zipIdx_iff_getElem?] at hj
    exact ⟨j, i, ⟨_, hk, hj⟩, hi, hedge, hplace, hfollow⟩
  · rintro ⟨j, i, ⟨kernel, hk, hj⟩, hi, hedge, hplace, hfollow⟩
    refine ⟨f.state, (Array.getElem?_eq_some_iff.mp hk).1, ⟨j, f.place⟩, ?_, ?_⟩
    · rw [getD_kernels hk, List.mem_zipIdx_iff_getElem?]
      exact hj
    · exact mem_probe_iff.mpr ⟨rfl, rfl, i, hi, hedge, hplace, hfollow⟩

section

variable {f : Finding} {j : Item} {i : LookaheadItem}

theorem itemOf_probe (hg : g.WellFormed) {kernel : List Item} (hj : j ∈ kernel)
    (hi : i ∈ probeItems g j) : g.ItemOf kernel i.item := by
  have hitem := itemOf_of_mem_closure hg (markable_probe j) hi
  exact hitem.mono fun k hk => List.mem_singleton.mp hk ▸ hj

/-- The item advances to the place that the finding names. -/
theorem Found.advanced (hg : g.WellFormed) (h : Found g f j i) :
    ∃ kernel, g.itemGraph.kernels[f.target]? = some kernel ∧
      kernel[f.targetPlace]? = some i.item.advance := by
  obtain ⟨⟨kernel, hk, hj⟩, hi, ⟨s, hnext, hedge⟩, hplace, _⟩ := h
  have hitem := itemOf_probe hg (List.mem_of_getElem? hj) hi
  obtain ⟨kernel', htarget, hadvanced, _⟩ :=
    hg.kernel_of_edge hk (hg.next_hasSymbol hnext) hedge
  have hmem : i.item.advance ∈ kernel' := (hadvanced _).mpr ⟨i.item, hitem, hnext, rfl⟩
  have hlt : kernel'.idxOf i.item.advance < kernel'.length := List.idxOf_lt_length_iff.mpr hmem
  refine ⟨kernel', htarget, ?_⟩
  rw [hplace, getD_kernels htarget, List.getElem?_eq_getElem hlt, List.getElem_idxOf]

/-- The start production is found in its own probe only. -/
theorem Found.eq_of_start (hg : g.WellFormed) (hstart : g.StartIsolated) (h : Found g f j i)
    (hzero : i.item.production = 0) : i = ⟨j, .mark⟩ := by
  obtain ⟨n, hn⟩ := Array.mem_iff_getElem?.mp h.mem
  have hkernel := kernel_of_closure_start hg (markable_probe j) hstart hn hzero
  exact List.mem_singleton.mp (List.mem_of_getElem? hkernel)

end

/-! ### Merging for each finding -/

/-- What is merged for findings: more where the sets are larger, terminals only, and the end of input
alone for the start production. -/
structure Gives (g : Grammar) (give : Array (List KindSet) → Finding → KindSet) : Prop where
  mono : ∀ sets sets' f, Below sets sets' → (give sets f).Within (give sets' f)
  proper : ∀ sets f, Fits g sets → (give sets f).Proper
  start : g.StartIsolated → ∀ sets f j i, Fits g sets → Found g f j i → i.item.production = 0 →
    (give sets f).Within (KindSet.ofKind .eof)

theorem gives_unmarked (hg : g.WellFormed) : Gives g fun _ f => f.follow.unmarked where
  mono := fun _ _ _ _ => .refl _
  proper := fun _ f _ => KindSet.proper_unmarked f.follow
  start := by
    intro hstart sets f j i _ hfound hzero c hc
    rw [hfound.follow, hfound.eq_of_start hg hstart hzero, KindSet.has_unmarked, KindSet.has_mark,
      Bool.and_eq_true, decide_eq_true_eq, decide_eq_true_eq] at hc
    omega

theorem gives_givenOn (hg : g.WellFormed) : Gives g givenOn where
  mono := fun _ _ f hbelow => hbelow f.state f.place
  proper := fun _ f hf => hf.proper f.state f.place
  start := by
    intro hstart sets f j i hf hfound hzero
    obtain ⟨kernel, hk, hj⟩ := hfound.probed
    have hsame := hfound.eq_of_start hg hstart hzero
    rw [hsame] at hzero
    exact hf.start hstart f.state f.place kernel j hk hj hzero

theorem Fits.mergeEach (hg : g.WellFormed) {give : Array (List KindSet) → Finding → KindSet}
    (hgive : Gives g give) (hf : Fits g sets) {findings : List Finding}
    (hfound : ∀ f ∈ findings, ∃ j i, Found g f j i) :
    Fits g (mergeEach give findings sets) ∧ Below sets (mergeEach give findings sets) ∧
      ∀ f ∈ findings, (give sets f).Within
        (setAt (mergeEach give findings sets) f.target f.targetPlace) := by
  induction findings generalizing sets with
  | nil => exact ⟨hf, .refl sets, by simp⟩
  | cons f rest ih =>
      obtain ⟨j, i, hfirst⟩ := hfound f List.mem_cons_self
      obtain ⟨kernel, hk, hi⟩ := hfirst.advanced hg
      obtain ⟨hfits, hbelow, hwithin⟩ := hf.mergeAt hk hi (hgive.proper sets f hf)
        fun hstart hzero => hgive.start hstart sets f j i hf hfirst hzero
      obtain ⟨hfits', hbelow', hrest⟩ :=
        ih hfits fun other hother => hfound other (List.mem_cons_of_mem f hother)
      refine ⟨hfits', hbelow.trans hbelow', fun other hother => ?_⟩
      rcases List.mem_cons.mp hother with rfl | hother
      · exact hwithin.trans (hbelow' _ _)
      · exact (hgive.mono _ _ other hbelow).trans (hrest other hother)

/-! ### Rounds -/

/-- Number of columns that can still be added. -/
def room (g : Grammar) (sets : Array (List KindSet)) : Nat :=
  ∑ state ∈ Finset.range g.itemGraph.kernels.size,
    ∑ place ∈ Finset.range (g.itemGraph.kernels.getD state []).length,
      (setAt sets state place).missing TokenKind.columnCount

theorem foldl_length_eq_sum (kernels : Array (List Item)) :
    kernels.foldl (fun n kernel => n + kernel.length) 0 =
      ∑ state ∈ Finset.range kernels.size, (kernels.getD state []).length := by
  obtain ⟨l⟩ := kernels
  have hfold : ∀ n, l.foldl (fun n kernel => n + kernel.length) n =
      n + (l.map List.length).sum := by
    induction l with
    | nil => simp
    | cons kernel l ih =>
        intro n
        rw [List.foldl_cons, ih, List.map_cons, List.sum_cons]
        omega
  have hsum : (l.map List.length).sum =
      ∑ state ∈ Finset.range l.length, (l.toArray.getD state []).length := by
    rw [← Fin.sum_univ_fun_getElem, Finset.sum_range]
    simp [Array.getD]
  simpa [hfold] using hsum

theorem room_le (g : Grammar) (sets : Array (List KindSet)) :
    room g sets ≤
      g.itemGraph.kernels.foldl (fun n kernel => n + kernel.length) 0 * TokenKind.columnCount := by
  rw [foldl_length_eq_sum, Finset.sum_mul]
  refine Finset.sum_le_sum fun state _ => ?_
  have h := Finset.sum_le_card_nsmul (Finset.range (g.itemGraph.kernels.getD state []).length)
    (fun place => (setAt sets state place).missing TokenKind.columnCount) TokenKind.columnCount
    fun place _ => KindSet.missing_le (setAt sets state place) _
  rwa [Finset.card_range, smul_eq_mul] at h

theorem setAt_eq_zero (hf : Fits g sets) {state place : Nat}
    (h : ¬ (state < g.itemGraph.kernels.size ∧
      place < (g.itemGraph.kernels.getD state []).length)) : setAt sets state place = 0 := by
  unfold setAt
  by_cases hstate : state < g.itemGraph.kernels.size
  · have hk := Array.getElem?_eq_getElem hstate
    have hlength := hf.length state _ hk
    rw [List.getD_eq_getElem?_getD, List.getElem?_eq_none]
    · rfl
    · rw [hlength, ← getD_kernels hk]
      exact Nat.le_of_not_lt fun hplace => h ⟨hstate, hplace⟩
  · have hsize : ¬ state < sets.size := by
      rw [hf.size]
      exact hstate
    simp [hsize]

theorem Below.room_lt (hf : Fits g sets) (hf' : Fits g sets') (h : Below sets sets')
    (hne : sets' ≠ sets) : room g sets' < room g sets := by
  obtain ⟨state, place, hdiffers⟩ : ∃ state place,
      setAt sets state place ≠ setAt sets' state place := by
    by_contra hall
    push Not at hall
    refine hne (Below.antisymm hf' hf (fun state place => ?_) h)
    rw [hall state place]
    exact .refl _
  obtain ⟨hstate, hplace⟩ : state < g.itemGraph.kernels.size ∧
      place < (g.itemGraph.kernels.getD state []).length := by
    by_contra hout
    exact hdiffers (by rw [setAt_eq_zero hf hout, setAt_eq_zero hf' hout])
  refine Finset.sum_lt_sum (fun state _ => Finset.sum_le_sum fun place _ =>
    (h state place).missing_le _) ⟨state, Finset.mem_range.mpr hstate, ?_⟩
  exact Finset.sum_lt_sum (fun place _ => (h state place).missing_le _)
    ⟨place, Finset.mem_range.mpr hplace,
      (h state place).missing_lt hdiffers (hf'.proper state place)⟩

/-- With enough fuel the rounds end with sets that nothing is handed on to. -/
theorem Fits.handOn (hg : g.WellFormed) (hf : Fits g sets) {links : List Finding}
    (hlinks : ∀ f ∈ links, ∃ j i, Found g f j i) {fuel : Nat} (hroom : room g sets < fuel) :
    let after := handOn links fuel sets
    Fits g after ∧ Below sets after ∧
      ∀ f ∈ links, (givenOn after f).Within (setAt after f.target f.targetPlace) := by
  induction fuel generalizing sets with
  | zero => exact absurd hroom (Nat.not_lt_zero _)
  | succ fuel ih =>
      obtain ⟨hfits, hbelow, hgiven⟩ := hf.mergeEach hg (gives_givenOn hg) hlinks
      unfold GrammarIndex.handOn
      dsimp only
      split
      · rename_i hsame
        rw [hsame] at hgiven
        exact ⟨hf, .refl sets, hgiven⟩
      · rename_i hchanged
        have hless := Below.room_lt hf hfits hbelow hchanged
        obtain ⟨hfits', hbelow', hgiven'⟩ := ih hfits (by omega)
        exact ⟨hfits', hbelow.trans hbelow', hgiven'⟩

/-! ### Closures by probes -/

/-- By the probe of a kernel item a terminal may follow an item of a state: it does in any case, or
it follows the kernel item, whose mark has come to the other one. -/
def ByProbe (g : Grammar) (sets : Array (List KindSet)) (state : Nat) (kernel : List Item)
    (item : Item) (column : Nat) : Prop :=
  ∃ place j, kernel[place]? = some j ∧
    (column < TokenKind.columnCount ∧ Follows (probeItems g j) item column ∨
      Follows (probeItems g j) item TokenKind.columnCount ∧
        (setAt sets state place).has column = true)

/-- What follows an item in a probe follows the productions of the nonterminal after its dot, if the
rest can vanish. -/
theorem Follows.pass (hg : g.WellFormed) {j item : Item} {p : Nat} {production : Production}
    {rest : List Symbol}
    (hdrop : (g.rhsOf item.production).drop item.dot = .nonterminal production.lhs :: rest)
    (hp : g.productions[p]? = some production) (hvanishes : (g.firstSets.ofSymbols rest).2 = true)
    {column : Nat} (h : Follows (probeItems g j) item column) :
    Follows (probeItems g j) ⟨p, 0⟩ column := by
  obtain ⟨follow, hmem, hhas⟩ := h
  obtain ⟨follow', hmem', hwithin⟩ := closure_hasStart hg (markable_probe j) hmem hdrop hp
  exact ⟨follow', hmem', hwithin _ (FirstSets.has_ofSymbolsThen.mpr (.inr ⟨hvanishes, hhas⟩))⟩

/-- **Whatever follows an item in the closure of a kernel follows it by the probe of some kernel
item.** -/
theorem exists_probe (hg : g.WellFormed) (hf : Fits g sets) {state : Nat} {kernel : List Item}
    (hk : g.itemGraph.kernels[state]? = some kernel) {i : LookaheadItem}
    (hi : i ∈ stateItems g sets state) {column : Nat} (hhas : i.follow.has column = true) :
    ByProbe g sets state kernel i.item column := by
  have hall : ∀ i ∈ stateItems g sets state,
      (∃ j ∈ kernel, ∃ follow, ⟨i.item, follow⟩ ∈ probeItems g j) ∧
        ∀ column, i.follow.has column = true → ByProbe g sets state kernel i.item column := by
    unfold stateItems
    rw [getD_kernels hk]
    refine forall_mem_closure hg (hf.withFollow_markable hk) ?_ ?_ ?_
    · intro item follow follow' hown hother
      refine ⟨hown.1, fun column hhas => ?_⟩
      rw [KindSet.has_or, Bool.or_eq_true] at hhas
      exact hhas.elim (hown.2 column) (hother.2 column)
    · intro i id rest hi hdrop p hp
      obtain ⟨production, hproduction, rfl⟩ := Grammar.mem_byLhs hp
      obtain ⟨⟨j, hj, follow, hmem⟩, hby⟩ := hi
      -- a probe that has the item also has the start of the production, after it
      obtain ⟨follow', hmem', hwithin⟩ :=
        closure_hasStart hg (markable_probe j) hmem hdrop hproduction
      refine ⟨⟨j, hj, follow', hmem'⟩, fun column hhas => ?_⟩
      rcases FirstSets.has_ofSymbolsThen.mp hhas with hown | ⟨hvanishes, htail⟩
      · obtain ⟨place, hplace⟩ := List.mem_iff_getElem?.mp hj
        have hlt := proper_ofSymbols_of_drop hg hdrop column hown
        exact ⟨place, j, hplace, .inl ⟨hlt, follow', hmem', hwithin _
          (FirstSets.has_ofSymbolsThen.mpr (.inl hown))⟩⟩
      · obtain ⟨place, j', hj', hby'⟩ := hby column htail
        exact ⟨place, j', hj', hby'.imp
          (And.imp_right (.pass hg hdrop hproduction hvanishes))
          (And.imp_left (.pass hg hdrop hproduction hvanishes))⟩
    · intro i hi
      obtain ⟨place, hplace⟩ := List.mem_iff_getElem?.mp hi
      obtain ⟨hitem, hset⟩ := (hf.getElem?_withFollow hk).mp hplace
      obtain ⟨follow, hown, hwithin⟩ := closure_keeps hg (markable_probe i.item) (n := 0) rfl
      have hmem := Array.mem_of_getElem? hown
      refine ⟨⟨i.item, List.mem_of_getElem? hitem, follow, hmem⟩, fun column hhas => ?_⟩
      refine ⟨place, i.item, hitem, .inr ⟨⟨follow, hmem, hwithin _ ?_⟩, hset ▸ hhas⟩⟩
      rw [KindSet.has_mark, decide_eq_true rfl]
  exact (hall i hi).2 column hhas

/-! ### The lookaheads of a grammar -/

/-- The set of an item is within that of the advanced item in the state that an edge leads to. -/
def Sent (g : Grammar) (sets : Array (List KindSet)) (state : Nat) (i : LookaheadItem) : Prop :=
  ∀ s target kernel, g.next? i.item = some s → g.itemGraph.edge? state s = some target →
    g.itemGraph.kernels[target]? = some kernel →
      i.follow.Within (setAt sets target (kernel.idxOf i.item.advance))

/-- Every item of every state has sent its set. -/
def Stable (g : Grammar) (sets : Array (List KindSet)) : Prop :=
  ∀ state, state < g.itemGraph.kernels.size → ∀ i ∈ stateItems g sets state, Sent g sets state i

/-- Sets that hold what findings tell are stable. -/
theorem stable_of_findings (hg : g.WellFormed) (hf : Fits g sets)
    (hgiven : ∀ f j i, Found g f j i →
      f.follow.unmarked.Within (setAt sets f.target f.targetPlace) ∧
        (f.follow.isMarked = true →
          (givenOn sets f).Within (setAt sets f.target f.targetPlace))) : Stable g sets := by
  intro state hstate i hi s target kernel' hnext hedge hk' column hhas
  have hk := Array.getElem?_eq_getElem hstate
  obtain ⟨place, j, hj, hby⟩ := exists_probe hg hf hk hi hhas
  have hfound : ∀ follow, ⟨i.item, follow⟩ ∈ probeItems g j →
      Found g ⟨state, place, target, kernel'.idxOf i.item.advance, follow⟩ j ⟨i.item, follow⟩ :=
    fun follow hmem => ⟨⟨_, hk, hj⟩, hmem, ⟨s, hnext, hedge⟩, by rw [getD_kernels hk'], rfl⟩
  rcases hby with ⟨hlt, follow, hmem, hfollow⟩ | ⟨⟨follow, hmem, hmarked⟩, hset⟩
  · exact (hgiven _ _ _ (hfound follow hmem)).1 column (KindSet.has_unmarked_of_lt hfollow hlt)
  · exact (hgiven _ _ _ (hfound follow hmem)).2 hmarked column hset

theorem setAt_none (kernels : Array (List Item)) (state place : Nat) :
    setAt (kernels.map fun kernel => kernel.map fun _ => (0 : KindSet)) state place = 0 := by
  unfold setAt
  rw [Array.getD_eq_getD_getElem?, Array.getElem?_map]
  cases kernels[state]? with
  | none => rfl
  | some kernel =>
      simp only [Option.map_some, Option.getD_some, List.getD_eq_getElem?_getD, List.getElem?_map]
      cases kernel[place]? <;> rfl

theorem fits_none (g : Grammar) :
    Fits g (g.itemGraph.kernels.map fun kernel => kernel.map fun _ => (0 : KindSet)) where
  size := Array.size_map
  length := by
    intro state kernel hk
    rw [Array.getD_eq_getD_getElem?, Array.getElem?_map, hk]
    simp
  proper := fun state place => by rw [setAt_none]; exact KindSet.proper_zero
  start := fun _ state place _ _ _ _ _ c hc => by rw [setAt_none] at hc; simp at hc

theorem fits_startSets (hg : g.WellFormed) : Fits g (startSets g.itemGraph) ∧
    (KindSet.ofKind .eof).Within (setAt (startSets g.itemGraph) 0 0) := by
  have hi : [Item.mk 0 0][0]? = some ⟨0, 0⟩ := rfl
  obtain ⟨hfits, _, heof⟩ := (fits_none g).mergeAt hg.kernels_zero hi
    (KindSet.proper_ofKind (k := .eof) (by decide)) fun _ _ => .refl _
  exact ⟨hfits, heof⟩

/-- The lookahead sets of the kernels of a grammar. -/
def followSets (g : Grammar) : Array (List KindSet) := (GrammarIndex.of g).lookaheads g.itemGraph

/-- **The lookaheads of a grammar are stable**: they fit the kernels, every item has sent its
set, and the start production stands before the end of input. -/
theorem lookaheads_stable (hg : g.WellFormed) :
    Fits g (followSets g) ∧ Stable g (followSets g) ∧
      (KindSet.ofKind .eof).Within (setAt (followSets g) 0 0) := by
  obtain ⟨hstart, heof⟩ := fits_startSets hg
  have hfindings : ∀ f ∈ (GrammarIndex.of g).findings g.itemGraph, ∃ j i, Found g f j i :=
    fun f hf => mem_findings_iff.mp hf
  have hlinks : ∀ f ∈ ((GrammarIndex.of g).findings g.itemGraph).filter (·.follow.isMarked),
      ∃ j i, Found g f j i := fun f hf => hfindings f (List.mem_of_mem_filter hf)
  obtain ⟨hmerged, hbelow, hown⟩ := hstart.mergeEach hg (gives_unmarked hg) hfindings
  obtain ⟨hfits, hbelow', hgiven⟩ :=
    hmerged.handOn hg hlinks (Nat.lt_succ_of_le (room_le g _))
  refine ⟨hfits, stable_of_findings hg hfits fun f j i hfound => ?_,
    heof.trans ((hbelow.trans hbelow') 0 0)⟩
  have hmem := mem_findings_iff.mpr ⟨j, i, hfound⟩
  exact ⟨(hown f hmem).trans (hbelow' _ _),
    fun hmarked => hgiven f (List.mem_filter.mpr ⟨hmem, hmarked⟩)⟩

end GrammarIndex

end AspectLang
