import AspectLang.Automaton.Tables
import AspectLang.Proofs.Automaton.Propagation

/-! # What the tables of a grammar hold

The row of a state holds its edges: the gotos are the edges with nonterminals (`goto?_eq`), and
each edge with a terminal is a shift (`action_shift_iff`).  Every reduction in the row is that of
a completed item of the state before a terminal of its set, and acceptance is the completed start
production at the end of input (`completed_of_reduce`, `completed_of_accept`), whatever decisions
were taken.  Where none was taken, every completed item has its reduction in the row, unless the
start production is accepted in its place (`action_of_completed`). -/

namespace AspectLang

/-! ### Decisions -/

namespace Action

/-- The production that a proposal counts as against a reduction. -/
def number : Action → Nat
  | .reduce q => q
  | _ => 0

theorem place_reduce (p : Nat) (proposed : Action) (c : Conflicts) :
    (Action.reduce p).place proposed c =
      if p = proposed.number then (.reduce p, c)
      else (.reduce (min p proposed.number), { c with reduceReduce := c.reduceReduce + 1 }) := by
  cases proposed <;> rfl

theorem place_lower (p q : Nat) (c : Conflicts) :
    ((Action.reduce p).place (.reduce q) c).1 = .reduce p ∨
      ((Action.reduce p).place (.reduce q) c).1 = .reduce q := by
  rw [place_reduce]
  split
  · exact .inl rfl
  · rcases Nat.le_total p q with hle | hle
    · exact .inl (congrArg Action.reduce (Nat.min_eq_left hle))
    · exact .inr (congrArg Action.reduce (Nat.min_eq_right hle))

theorem place_conflicts (held proposed : Action) (c c' : Conflicts) :
    (held.place proposed c).1 = (held.place proposed c').1 := by
  cases held with
  | error => rfl
  | shift => rfl
  | accept => rfl
  | reduce p =>
      rw [place_reduce, place_reduce]
      split <;> rfl

theorem place_none {held proposed : Action} {c : Conflicts}
    (h : (held.place proposed c).2 = {}) : c = {} := by
  cases held with
  | error => exact h
  | accept => exact h
  | shift t => simp [place] at h
  | reduce p =>
      rw [place_reduce] at h
      split at h
      · exact h
      · simp at h

/-- Without a decision a slot was free, or it holds the proposal or acceptance already. -/
theorem place_cases {held proposed : Action} (h : (held.place proposed {}).2 = {})
    (hproposed : proposed = .accept ∨ ∃ q, proposed = .reduce q) (hheld : held ≠ .reduce 0) :
    held = .error ∧ (held.place proposed {}).1 = proposed ∨
      (held.place proposed {}).1 = held ∧ (held = proposed ∨ held = .accept) := by
  cases held with
  | error => exact .inl ⟨rfl, rfl⟩
  | accept => exact .inr ⟨rfl, .inr rfl⟩
  | shift t => simp [place] at h
  | reduce p =>
      rw [place_reduce] at h ⊢
      by_cases hp : p = proposed.number
      · rw [if_pos hp]
        rcases hproposed with rfl | ⟨q, rfl⟩
        · exact absurd (congrArg Action.reduce hp) hheld
        · exact .inr ⟨rfl, .inl (congrArg Action.reduce hp)⟩
      · rw [if_neg hp] at h
        simp at h

end Action

namespace GrammarIndex

/-- What a list of proposals makes of a slot. -/
def settle (held : Action) (proposals : List Action) : Action :=
  proposals.foldl (fun held proposed => (held.place proposed {}).1) held

/-- The proposals for one column. -/
def forColumn (column : Nat) (l : List (Nat × Action)) : List Action :=
  (l.filter fun x => x.1 = column).map Prod.snd

theorem mem_forColumn {column : Nat} {l : List (Nat × Action)} {a : Action} :
    a ∈ forColumn column l ↔ (column, a) ∈ l := by
  simp [forColumn]

theorem getD_placeAll {actions : Array Action} {column : Nat} (h : column < actions.size)
    (c : Conflicts) (l : List (Nat × Action)) :
    (placeAll actions c l).1.getD column .error =
      settle (actions.getD column .error) (forColumn column l) := by
  induction l generalizing actions c with
  | nil => rfl
  | cons x l ih =>
      obtain ⟨column', proposed⟩ := x
      unfold placeAll
      dsimp only
      rw [ih (by simpa using h)]
      by_cases hcolumn : column' = column
      · subst hcolumn
        have hset : (actions.setIfInBounds column'
            ((actions.getD column' .error).place proposed c).1).getD column' .error =
              ((actions.getD column' .error).place proposed {}).1 := by
          rw [Array.getD_eq_getD_getElem?, Array.getElem?_setIfInBounds_self_of_lt h,
            Option.getD_some]
          exact Action.place_conflicts _ _ _ _
        rw [hset]
        simp [forColumn, settle]
      · have hset : (actions.setIfInBounds column'
            ((actions.getD column' .error).place proposed c).1).getD column .error =
              actions.getD column .error := by
          rw [Array.getD_eq_getD_getElem?, Array.getElem?_setIfInBounds_ne hcolumn,
            ← Array.getD_eq_getD_getElem?]
        rw [hset]
        simp [forColumn, hcolumn]

theorem getD_placeAll_of_size_le {actions : Array Action} {column : Nat}
    (h : actions.size ≤ column) (c : Conflicts) (l : List (Nat × Action)) :
    (placeAll actions c l).1.getD column .error = .error := by
  induction l generalizing actions c with
  | nil =>
      unfold placeAll
      rw [Array.getD_eq_getD_getElem?, Array.getElem?_eq_none h]
      rfl
  | cons x l ih =>
      unfold placeAll
      exact ih (by simpa using h) _

theorem settle_shift (target : Nat) (l : List Action) :
    settle (.shift target) l = .shift target := by
  induction l with
  | nil => rfl
  | cons a l ih => exact ih

/-- The result is what the slot held or one of the proposals, provided that acceptance is never
proposed after a reduction. -/
theorem settle_mem {held : Action} {l : List Action}
    (hl : l.Pairwise fun a b => b = .accept → a = .accept)
    (hproposed : ∀ a ∈ l, a = .accept ∨ ∃ q, a = .reduce q)
    (hheld : ∀ p, held = .reduce p → .accept ∉ l) :
    settle held l = held ∨ settle held l ∈ l := by
  induction l generalizing held with
  | nil => exact .inl rfl
  | cons a l ih =>
      obtain ⟨ha, hl⟩ := List.pairwise_cons.mp hl
      have hrest := fun b hb => hproposed b (List.mem_cons_of_mem a hb)
      have hafter : ∀ next, (next = held ∨ next = a) →
          settle next l = held ∨ settle next l ∈ a :: l := by
        intro next hnext
        have hheld' : ∀ p, next = .reduce p → .accept ∉ l := by
          rintro p rfl hmem
          rcases hnext with rfl | rfl
          · exact hheld p rfl (List.mem_cons_of_mem a hmem)
          · cases ha .accept hmem rfl
        rcases ih hl hrest hheld' with heq | hmem
        · rw [heq]
          rcases hnext with rfl | rfl
          · exact .inl rfl
          · exact .inr List.mem_cons_self
        · exact .inr (List.mem_cons_of_mem a hmem)
      change settle (held.place a {}).1 l = held ∨ settle (held.place a {}).1 l ∈ a :: l
      apply hafter
      cases held with
      | error => exact .inr rfl
      | shift => exact .inl rfl
      | accept => exact .inl rfl
      | reduce p =>
          rcases hproposed a List.mem_cons_self with rfl | ⟨q, rfl⟩
          · exact absurd List.mem_cons_self (hheld p rfl)
          · exact Action.place_lower p q {}

/-! ### Tables without decisions -/

theorem placeAll_none {actions : Array Action} {c : Conflicts} {l : List (Nat × Action)}
    (h : (placeAll actions c l).2 = {}) : c = {} := by
  induction l generalizing actions c with
  | nil => exact h
  | cons x l ih => exact Action.place_none (ih h)

/-- Without a decision, what a slot holds stays, and a proposal is there in the end unless the
slot held acceptance. -/
theorem placeAll_keeps {actions : Array Action} {column : Nat} {l : List (Nat × Action)}
    (hlt : column < actions.size) (h : (placeAll actions {} l).2 = {})
    (hproposed : ∀ x ∈ l, x.2 = .accept ∨ ∃ q, x.2 = .reduce q ∧ q ≠ 0)
    (hheld : actions.getD column .error ≠ .reduce 0) :
    (actions.getD column .error ≠ .error →
      (placeAll actions {} l).1.getD column .error = actions.getD column .error) ∧
    ∀ a, (column, a) ∈ l → (placeAll actions {} l).1.getD column .error = a ∨
      (placeAll actions {} l).1.getD column .error = .accept := by
  induction l generalizing actions with
  | nil => exact ⟨fun _ => rfl, by simp⟩
  | cons x l ih =>
      obtain ⟨column', proposed⟩ := x
      unfold placeAll at h ⊢
      dsimp only at h ⊢
      have hnone := placeAll_none h
      rw [hnone] at h ⊢
      have hrest := fun y hy => hproposed y (List.mem_cons_of_mem _ hy)
      have hsize : column < (actions.setIfInBounds column'
          ((actions.getD column' .error).place proposed {}).1).size := by simpa using hlt
      have hset : (actions.setIfInBounds column'
          ((actions.getD column' .error).place proposed {}).1).getD column .error =
            if column' = column then ((actions.getD column .error).place proposed {}).1
            else actions.getD column .error := by
        rw [Array.getD_eq_getD_getElem?, Array.getElem?_setIfInBounds]
        by_cases hcolumn : column' = column
        · subst hcolumn
          simp [hlt]
        · simp [hcolumn]
      by_cases hcolumn : column' = column
      · subst hcolumn
        rw [if_pos rfl] at hset
        have hproposed' := hproposed _ List.mem_cons_self
        dsimp only at hproposed'
        have hkind : proposed = .accept ∨ ∃ q, proposed = .reduce q :=
          hproposed'.imp_right fun ⟨q, hq, _⟩ => ⟨q, hq⟩
        rcases Action.place_cases hnone hkind hheld with ⟨hfree, hchosen⟩ | ⟨hchosen, hagrees⟩
        · replace hset := hset.trans hchosen
          have hzero : proposed ≠ .reduce 0 := by
            rcases hproposed' with rfl | ⟨q, rfl, hq⟩
            · simp
            · simpa using hq
          have hfilled : proposed ≠ .error := by
            rcases hproposed' with rfl | ⟨q, rfl, hq⟩ <;> simp
          obtain ⟨hstay, hmem⟩ := ih hsize h hrest (by rw [hset]; exact hzero)
          rw [hset] at hstay
          refine ⟨fun hne => absurd hfree hne, fun a ha => ?_⟩
          rcases List.mem_cons.mp ha with heq | ha
          · obtain rfl : a = proposed := (Prod.mk.inj heq).2
            exact .inl (hstay hfilled)
          · exact hmem a ha
        · replace hset := hset.trans hchosen
          obtain ⟨hstay, hmem⟩ := ih hsize h hrest (by rw [hset]; exact hheld)
          rw [hset] at hstay
          refine ⟨hstay, fun a ha => ?_⟩
          rcases List.mem_cons.mp ha with heq | ha
          · obtain rfl : a = proposed := (Prod.mk.inj heq).2
            rcases hagrees with hagrees | hagrees
            · have hne : actions.getD column' .error ≠ .error := by
                rw [hagrees]
                rcases hproposed' with rfl | ⟨q, rfl, hq⟩ <;> simp
              exact .inl ((hstay hne).trans hagrees)
            · exact .inr ((hstay (by rw [hagrees]; simp)).trans hagrees)
          · exact hmem a ha
      · rw [if_neg hcolumn] at hset
        obtain ⟨hstay, hmem⟩ := ih hsize h hrest (by rw [hset]; exact hheld)
        rw [hset] at hstay
        refine ⟨hstay, fun a ha => ?_⟩
        rcases List.mem_cons.mp ha with heq | ha
        · exact absurd (Prod.mk.inj heq).1.symm hcolumn
        · exact hmem a ha

/-! ### Rows -/

variable {g : Grammar} {state : Nat} {kernel : List Item}

theorem placeAll_conflicts (actions : Array Action) (c c' : Conflicts) (l : List (Nat × Action)) :
    (placeAll actions c l).1 = (placeAll actions c' l).1 := by
  induction l generalizing actions c c' with
  | nil => rfl
  | cons x l ih =>
      obtain ⟨column, proposed⟩ := x
      unfold placeAll
      dsimp only
      rw [Action.place_conflicts _ _ c c']
      exact ih _ _ _

/-- The row of a state, and the decisions for it alone. -/
def rowOf (g : Grammar) (state : Nat) : Row × Conflicts :=
  (GrammarIndex.of g).row g.itemGraph (followSets g) state {}

theorem row_eq (state : Nat) (c : Conflicts) :
    ((GrammarIndex.of g).row g.itemGraph (followSets g) state c).1 = (rowOf g state).1 := by
  unfold rowOf row
  dsimp only
  rw [placeAll_conflicts _ c {}]

theorem row_none {c : Conflicts}
    (h : ((GrammarIndex.of g).row g.itemGraph (followSets g) state c).2 = {}) :
    c = {} ∧ (rowOf g state).2 = {} := by
  obtain rfl : c = {} := placeAll_none h
  exact ⟨rfl, h⟩

/-- Adds the row of a state to those of the states before it. -/
def pushRow (g : Grammar) (sofar : Array Row × Conflicts) (state : Nat) : Array Row × Conflicts :=
  let next := (GrammarIndex.of g).row g.itemGraph (followSets g) state sofar.2
  (sofar.1.push next.1, next.2)

theorem pushRows_spec (states : List Nat) (sofar : Array Row × Conflicts) :
    (states.foldl (pushRow g) sofar).1 =
        sofar.1 ++ (states.map fun state => (rowOf g state).1).toArray ∧
      ((states.foldl (pushRow g) sofar).2 = {} →
        sofar.2 = {} ∧ ∀ state ∈ states, (rowOf g state).2 = {}) := by
  induction states generalizing sofar with
  | nil => exact ⟨by simp, fun h => ⟨h, by simp⟩⟩
  | cons state states ih =>
      obtain ⟨hrows, hnone⟩ := ih (pushRow g sofar state)
      rw [List.foldl_cons]
      refine ⟨?_, fun h => ?_⟩
      · rw [hrows]
        simp [pushRow, row_eq]
      · obtain ⟨hhere, hrest⟩ := hnone h
        obtain ⟨hsofar, hstate⟩ := row_none hhere
        exact ⟨hsofar, List.forall_mem_cons.mpr ⟨hstate, hrest⟩⟩

theorem tables_eq : (GrammarIndex.of g).tables.rows =
      ((List.range g.itemGraph.kernels.size).foldl (pushRow g) (#[], {})).1 ∧
    (GrammarIndex.of g).tables.stats.conflicts =
      ((List.range g.itemGraph.kernels.size).foldl (pushRow g) (#[], {})).2 := ⟨rfl, rfl⟩

theorem getElem?_rows (h : state < g.itemGraph.kernels.size) :
    (GrammarIndex.of g).tables.rows[state]? = some (rowOf g state).1 := by
  rw [tables_eq.1, (pushRows_spec _ _).1]
  simp [h]

/-- Beyond the states there is no action. -/
theorem action_of_no_kernel {kind : TokenKind} (h : g.itemGraph.kernels[state]? = none) :
    (GrammarIndex.of g).tables.action state kind = .error := by
  have hrows : (GrammarIndex.of g).tables.rows[state]? = none := by
    rw [tables_eq.1, (pushRows_spec _ _).1]
    simpa using h
  unfold Tables.action
  rw [hrows]

theorem rowOf_none (h : (GrammarIndex.of g).tables.stats.conflicts = {})
    (hstate : state < g.itemGraph.kernels.size) : (rowOf g state).2 = {} := by
  rw [tables_eq.2] at h
  exact ((pushRows_spec _ _).2 h).2 state (List.mem_range.mpr hstate)

/-- What a row makes of an edge with a terminal. -/
def shiftOf : Option Nat → Action
  | some target => .shift target
  | none => .error

theorem getD_shifts {row : Array (Option Nat)} {column : Nat} (hrow : row.size = g.edgeWidth)
    (h : column < TokenKind.columnCount) :
    (shifts row).getD column .error = shiftOf (row.getD column none) := by
  have hlt : column < row.size := by
    rw [hrow]
    unfold Grammar.edgeWidth
    omega
  unfold shifts
  rw [Array.getD_eq_getD_getElem?, Array.getElem?_map, Array.getElem?_extract,
    Array.getD_eq_getD_getElem?, Array.getElem?_eq_getElem hlt]
  rw [if_pos (by omega), Nat.zero_add, Array.getElem?_eq_getElem hlt]
  simp only [Option.map_some, Option.getD_some]
  cases row[column] <;> rfl

theorem size_shifts {row : Array (Option Nat)} (hrow : row.size = g.edgeWidth) :
    (shifts row).size = TokenKind.columnCount := by
  unfold shifts
  rw [Array.size_map, Array.size_extract, hrow]
  unfold Grammar.edgeWidth
  omega

/-! ### The proposals of a state -/

/-- What an item proposes for the columns of its set. -/
def proposals (g : Grammar) (i : LookaheadItem) : List (Nat × Action) :=
  if i.item.dot < (g.rhsOf i.item.production).length then []
  else (i.follow.columns TokenKind.columnCount).map fun column =>
    (column, if i.item.production = 0 ∧ column = TokenKind.eof.column then .accept
      else .reduce i.item.production)

theorem reductions_eq (items : Array LookaheadItem) :
    (GrammarIndex.of g).reductions items = items.toList.flatMap (proposals g) := rfl

theorem mem_proposals {i : LookaheadItem} {x : Nat × Action} :
    x ∈ proposals g i ↔ (g.rhsOf i.item.production).length ≤ i.item.dot ∧
      x.1 < TokenKind.columnCount ∧ i.follow.has x.1 = true ∧
        x.2 = if i.item.production = 0 ∧ x.1 = TokenKind.eof.column then .accept
          else .reduce i.item.production := by
  obtain ⟨column, a⟩ := x
  unfold proposals
  by_cases hdot : i.item.dot < (g.rhsOf i.item.production).length
  · rw [if_pos hdot]
    simp [hdot]
  · rw [if_neg hdot]
    simp only [List.mem_map, KindSet.columns, List.mem_filter, List.mem_range, Prod.mk.injEq]
    constructor
    · rintro ⟨column', ⟨hlt, hhas⟩, rfl, rfl⟩
      exact ⟨Nat.le_of_not_lt hdot, hlt, hhas, rfl⟩
    · rintro ⟨_, hlt, hhas, haction⟩
      exact ⟨column, ⟨hlt, hhas⟩, rfl, haction.symm⟩

section

variable (hg : g.WellFormed) (hstart : g.StartIsolated)
  (hk : g.itemGraph.kernels[state]? = some kernel)

include hg hstart hk

/-- The start production proposes nothing but acceptance. -/
theorem proposals_start {i : LookaheadItem} (hi : i ∈ stateItems g (followSets g) state)
    (hzero : i.item.production = 0) {x : Nat × Action} (hx : x ∈ proposals g i) :
    x = (TokenKind.eof.column, .accept) := by
  obtain ⟨_, _, hhas, haction⟩ := mem_proposals.mp hx
  obtain ⟨place, hplace⟩ := Array.mem_iff_getElem?.mp hi
  have hfits := (lookaheads_stable hg).1
  have hwithin := (stateItems_start hg hfits hk hstart hplace hzero).2 x.1 hhas
  rw [KindSet.has_ofKind, decide_eq_true_eq] at hwithin
  rw [if_pos ⟨hzero, hwithin.symm⟩] at haction
  exact Prod.ext hwithin.symm haction

/-- Before the place of the completed start production nothing is proposed. -/
theorem proposals_before_start {m n : Nat} {i j : LookaheadItem} (hmn : m < n)
    (hi : (stateItems g (followSets g) state)[m]? = some i)
    (hj : (stateItems g (followSets g) state)[n]? = some j) (hzero : j.item.production = 0) :
    proposals g i = [] := by
  have hfits := (lookaheads_stable hg).1
  obtain ⟨hkernel, _⟩ := stateItems_start hg hfits hk hstart hj hzero
  have hn := (List.getElem?_eq_some_iff.mp hkernel).1
  obtain ⟨_, hkept, _⟩ := stateItems_keeps hg hfits hk (List.getElem?_eq_getElem (hmn.trans hn))
  rw [hi, Option.some.injEq] at hkept
  have hmem : kernel ∈ g.itemGraph.kernels := Array.mem_of_getElem? hk
  have hkernels := hg.itemGraph_explored.1.kernels
  have hbefore := List.pairwise_iff_getElem.mp (hkernels.sorted kernel hmem) m n
    (hmn.trans hn) hn hmn
  have hlast : kernel[n] = j.item := by
    rw [List.getElem?_eq_getElem hn, Option.some.injEq] at hkernel
    exact hkernel
  have hdot := (hkernels.hasItem kernel hmem j.item (hlast ▸ List.getElem_mem hn)).2
  unfold Item.Before at hbefore
  rw [hlast, hzero] at hbefore
  rw [hzero] at hdot
  subst hkept
  have hless : kernel[m].production = 0 ∧ kernel[m].dot < (g.rhsOf 0).length := by omega
  unfold proposals
  rw [if_pos]
  dsimp only
  rw [hless.1]
  exact hless.2

/-- Acceptance is never proposed after a reduction. -/
theorem reductions_pairwise :
    ((GrammarIndex.of g).reductions (stateItems g (followSets g) state)).Pairwise
      fun a b => b.2 = .accept → a.2 = .accept := by
  have haccept : ∀ (i : LookaheadItem), ∀ x ∈ proposals g i, x.2 = .accept →
      i.item.production = 0 := by
    intro i x hx haccept
    obtain ⟨_, _, _, haction⟩ := mem_proposals.mp hx
    rw [haccept] at haction
    by_contra hne
    rw [if_neg fun h => hne h.1] at haction
    cases haction
  rw [reductions_eq, List.pairwise_flatMap]
  refine ⟨fun i hi => ?_, ?_⟩
  · refine List.pairwise_of_forall_mem_list fun a ha b hb hb' => ?_
    rw [proposals_start hg hstart hk (Array.mem_toList_iff.mp hi) (haccept i b hb hb') ha]
  · rw [List.pairwise_iff_getElem]
    intro m n hm hn hmn a ha b hb hb'
    have hzero := haccept _ b hb hb'
    have hempty : proposals g (stateItems g (followSets g) state).toList[m] = [] :=
      proposals_before_start hg hstart hk hmn (Array.getElem?_eq_getElem hm)
        (Array.getElem?_eq_getElem hn) hzero
    rw [hempty] at ha
    cases ha

/-- A proposal is acceptance or the reduction by a production that is not the start. -/
theorem reductions_proposed {x : Nat × Action}
    (hx : x ∈ (GrammarIndex.of g).reductions (stateItems g (followSets g) state)) :
    x.2 = .accept ∨ ∃ q, x.2 = .reduce q ∧ q ≠ 0 := by
  rw [reductions_eq, List.mem_flatMap] at hx
  obtain ⟨i, hi, hx⟩ := hx
  by_cases hzero : i.item.production = 0
  · exact .inl (by rw [proposals_start hg hstart hk (Array.mem_toList_iff.mp hi) hzero hx])
  · obtain ⟨_, _, _, haction⟩ := mem_proposals.mp hx
    rw [if_neg fun h => hzero h.1] at haction
    exact .inr ⟨_, haction, hzero⟩

/-! ### Actions of a state -/

omit hg hstart in
theorem action_eq (kind : TokenKind) :
    (GrammarIndex.of g).tables.action state kind =
      (placeAll (shifts (g.itemGraph.edges.getD state #[])) {}
        ((GrammarIndex.of g).reductions (stateItems g (followSets g) state))).1.getD
          kind.column .error := by
  have hlt : state < g.itemGraph.kernels.size := (Array.getElem?_eq_some_iff.mp hk).1
  unfold Tables.action
  rw [getElem?_rows hlt]
  rfl

omit hstart in
theorem action_of_column_ge {kind : TokenKind} (h : TokenKind.columnCount ≤ kind.column) :
    (GrammarIndex.of g).tables.action state kind = .error := by
  rw [action_eq hk]
  exact getD_placeAll_of_size_le (by rw [size_shifts (hg.edgesOf hk).size]; exact h) _ _

omit hstart in
theorem action_eq_settle {kind : TokenKind} (h : kind.column < TokenKind.columnCount) :
    (GrammarIndex.of g).tables.action state kind =
      settle (shiftOf (g.itemGraph.edge? state (.terminal kind))) (forColumn kind.column
        ((GrammarIndex.of g).reductions (stateItems g (followSets g) state))) := by
  have hsize := (hg.edgesOf hk).size
  rw [action_eq hk, getD_placeAll (by rw [size_shifts hsize]; exact h), getD_shifts hsize h]
  rfl

/-- An action is a shift along an edge, or one that an item of the state proposes. -/
theorem action_cases {kind : TokenKind}
    (h : (GrammarIndex.of g).tables.action state kind ≠ .error) :
    kind.column < TokenKind.columnCount ∧
      ((∃ target, g.itemGraph.edge? state (.terminal kind) = some target ∧
          (GrammarIndex.of g).tables.action state kind = .shift target) ∨
        (kind.column, (GrammarIndex.of g).tables.action state kind) ∈
          (GrammarIndex.of g).reductions (stateItems g (followSets g) state)) := by
  have hlt : kind.column < TokenKind.columnCount :=
    Nat.lt_of_not_le fun hge => h (action_of_column_ge hg hk hge)
  refine ⟨hlt, ?_⟩
  rw [action_eq_settle hg hk hlt] at h ⊢
  have hpairwise : (forColumn kind.column ((GrammarIndex.of g).reductions
      (stateItems g (followSets g) state))).Pairwise fun a b => b = .accept → a = .accept :=
    List.pairwise_map.mpr ((reductions_pairwise hg hstart hk).filter _)
  have hproposed : ∀ a ∈ forColumn kind.column ((GrammarIndex.of g).reductions
      (stateItems g (followSets g) state)), a = .accept ∨ ∃ q, a = .reduce q := by
    intro a ha
    exact (reductions_proposed hg hstart hk (mem_forColumn.mp ha)).imp_right
      fun ⟨q, hq, _⟩ => ⟨q, hq⟩
  cases hedge : g.itemGraph.edge? state (.terminal kind) with
  | some target =>
      refine .inl ⟨target, rfl, ?_⟩
      exact settle_shift target _
  | none =>
      rw [hedge] at h
      have hfree : ∀ p, shiftOf none = .reduce p → .accept ∉ forColumn kind.column
          ((GrammarIndex.of g).reductions (stateItems g (followSets g) state)) := by
        simp [shiftOf]
      rcases settle_mem hpairwise hproposed hfree with heq | hmem
      · exact absurd heq h
      · exact .inr (mem_forColumn.mp hmem)

end

/-- A state has the completed item of a production, before a terminal of its set. -/
def Completed (g : Grammar) (state p : Nat) (kind : TokenKind) : Prop :=
  ∃ follow, ⟨⟨p, (g.rhsOf p).length⟩, follow⟩ ∈ stateItems g (followSets g) state ∧
    follow.has kind.column = true

theorem mem_all_of_column_lt {k : TokenKind} (h : k.column < TokenKind.columnCount) :
    k ∈ TokenKind.all := by
  have hall : TokenKind.all = (List.range TokenKind.columnCount).map TokenKind.ofNat := by
    decide
  rw [hall]
  exact List.mem_map.mpr ⟨k.column, List.mem_range.mpr h, TokenKind.ofNat_ctorIdx k⟩

theorem hasItem_of_itemOf (hg : g.WellFormed)
    (hk : g.itemGraph.kernels[state]? = some kernel) {i : Item} (hi : g.ItemOf kernel i) :
    g.HasItem i := by
  cases hi with
  | kernel hmem =>
      exact hg.itemGraph_explored.1.kernels.hasItem kernel (Array.mem_of_getElem? hk) i hmem
  | start _ _ hp => exact ⟨(Array.getElem?_eq_some_iff.mp hp).1, Nat.zero_le _⟩

section

variable (hg : g.WellFormed) (hk : g.itemGraph.kernels[state]? = some kernel)

include hg hk

theorem completed_of_mem_reductions {kind : TokenKind} {a : Action}
    (h : (kind.column, a) ∈ (GrammarIndex.of g).reductions (stateItems g (followSets g) state)) :
    ∃ p, Completed g state p kind ∧
      a = if p = 0 ∧ kind.column = TokenKind.eof.column then .accept else .reduce p := by
  rw [reductions_eq, List.mem_flatMap] at h
  obtain ⟨⟨⟨p, dot⟩, follow⟩, hi, hx⟩ := h
  rw [Array.mem_toList_iff] at hi
  obtain ⟨hdot, _, hhas, haction⟩ := mem_proposals.mp hx
  dsimp only at hdot hhas haction
  have hitem := (mem_stateItems_spec hg (lookaheads_stable hg).1 hk hi).1
  have hle := (hasItem_of_itemOf hg hk hitem).2
  obtain rfl : dot = (g.rhsOf p).length := Nat.le_antisymm hle hdot
  exact ⟨p, ⟨follow, hi, hhas⟩, haction⟩

omit hg in
/-- Where nonterminals lead is where their edges lead. -/
theorem goto?_eq (id : Nat) : (GrammarIndex.of g).tables.goto? state id =
    g.itemGraph.edge? state (.nonterminal id) := by
  have hlt : state < g.itemGraph.kernels.size := (Array.getElem?_eq_some_iff.mp hk).1
  unfold Tables.goto?
  rw [getElem?_rows hlt]
  have hgotos : (rowOf g state).1.gotos = gotos (g.itemGraph.edges.getD state #[]) := by
    unfold rowOf row
    dsimp only
  dsimp only
  rw [hgotos]
  unfold gotos Grammar.ItemGraph.edge? Symbol.key
  generalize TokenKind.columnCount + 1 = skipped
  generalize g.itemGraph.edges.getD state #[] = edges
  dsimp only
  rw [Array.getD_eq_getD_getElem?, Array.getElem?_extract, Array.getD_eq_getD_getElem?]
  by_cases hid : id < min edges.size edges.size - skipped
  · rw [if_pos hid]
  · rw [if_neg hid, Array.getElem?_eq_none (by omega)]

theorem action_of_edge {kind : TokenKind} {target : Nat} (hkind : kind ∈ TokenKind.all)
    (h : g.itemGraph.edge? state (.terminal kind) = some target) :
    (GrammarIndex.of g).tables.action state kind = .shift target := by
  rw [action_eq_settle hg hk (Grammar.column_lt_of_mem_all hkind), h]
  exact settle_shift target _

variable (hstart : g.StartIsolated) {kind : TokenKind}

include hstart

/-- A shift follows an edge. -/
theorem edge_of_shift {target : Nat}
    (h : (GrammarIndex.of g).tables.action state kind = .shift target) :
    kind ∈ TokenKind.all ∧ g.itemGraph.edge? state (.terminal kind) = some target := by
  obtain ⟨hcolumn, hcases⟩ := action_cases hg hstart hk (h.trans_ne nofun)
  refine ⟨mem_all_of_column_lt hcolumn, ?_⟩
  rcases hcases with ⟨target', hedge, hshift⟩ | hmem
  · rw [h, Action.shift.injEq] at hshift
    rw [hedge, hshift]
  · rw [h] at hmem
    rcases reductions_proposed hg hstart hk hmem with hbad | ⟨_, hbad, _⟩ <;> cases hbad

/-- A reduction is by a completed item, and never by the start production. -/
theorem completed_of_reduce {p : Nat}
    (h : (GrammarIndex.of g).tables.action state kind = .reduce p) :
    p ≠ 0 ∧ Completed g state p kind := by
  obtain ⟨_, hcases⟩ := action_cases hg hstart hk (h.trans_ne nofun)
  rcases hcases with ⟨_, _, hshift⟩ | hmem
  · rw [h] at hshift
    cases hshift
  · rw [h] at hmem
    have hp : p ≠ 0 := by
      rcases reductions_proposed hg hstart hk hmem with hbad | ⟨q, hq, hne⟩
      · cases hbad
      · rw [Action.reduce.inj hq]
        exact hne
    obtain ⟨q, hcompleted, haction⟩ := completed_of_mem_reductions hg hk hmem
    split at haction
    · cases haction
    · obtain rfl := Action.reduce.inj haction
      exact ⟨hp, hcompleted⟩

/-- Acceptance is by the completed start production at the end of input. -/
theorem completed_of_accept (h : (GrammarIndex.of g).tables.action state kind = .accept) :
    kind = .eof ∧ Completed g state 0 .eof := by
  obtain ⟨_, hcases⟩ := action_cases hg hstart hk (h.trans_ne nofun)
  rcases hcases with ⟨_, _, hshift⟩ | hmem
  · rw [h] at hshift
    cases hshift
  · rw [h] at hmem
    obtain ⟨p, hcompleted, haction⟩ := completed_of_mem_reductions hg hk hmem
    split at haction
    · rename_i hstartHere
      obtain rfl := TokenKind.column_injective hstartHere.2
      exact ⟨rfl, hstartHere.1 ▸ hcompleted⟩
    · cases haction

/-- **Without decisions every completed item is acted on**: its reduction is in the table, or
the start production is accepted in its place. -/
theorem action_of_completed (hnone : (GrammarIndex.of g).tables.stats.conflicts = {}) {p : Nat}
    (h : Completed g state p kind) (hkind : kind ∈ TokenKind.all) :
    (GrammarIndex.of g).tables.action state kind = .accept ∨
      p ≠ 0 ∧ (GrammarIndex.of g).tables.action state kind = .reduce p := by
  obtain ⟨follow, hi, hhas⟩ := h
  have hcolumn := Grammar.column_lt_of_mem_all hkind
  have hlt : state < g.itemGraph.kernels.size := (Array.getElem?_eq_some_iff.mp hk).1
  have hsize := (hg.edgesOf hk).size
  have hmem : (kind.column, if p = 0 ∧ kind.column = TokenKind.eof.column then .accept
      else .reduce p) ∈ (GrammarIndex.of g).reductions (stateItems g (followSets g) state) := by
    rw [reductions_eq, List.mem_flatMap]
    exact ⟨_, Array.mem_toList_iff.mpr hi, mem_proposals.mpr ⟨Nat.le_refl _, hcolumn, hhas, rfl⟩⟩
  have hempty : (shifts (g.itemGraph.edges.getD state #[])).getD kind.column .error ≠
      .reduce 0 := by
    rw [getD_shifts hsize hcolumn]
    cases (g.itemGraph.edges.getD state #[]).getD kind.column none <;> simp [shiftOf]
  have hrow : (placeAll (shifts (g.itemGraph.edges.getD state #[])) {}
      ((GrammarIndex.of g).reductions (stateItems g (followSets g) state))).2 = {} :=
    rowOf_none hnone hlt
  have hkeeps := (placeAll_keeps (by rw [size_shifts hsize]; exact hcolumn) hrow
    (fun x hx => reductions_proposed hg hstart hk hx) hempty).2 _ hmem
  rw [← action_eq hk] at hkeeps
  rcases hkeeps with haction | haccept
  · rcases reductions_proposed hg hstart hk hmem with hproposed | ⟨q, hproposed, hq⟩
    · exact .inl (haction.trans hproposed)
    · dsimp only at hproposed
      split at hproposed
      · cases hproposed
      · rename_i hnot
        rw [if_neg hnot] at haction
        exact .inr ⟨Action.reduce.inj hproposed ▸ hq, haction⟩
  · exact .inl haccept

end

end GrammarIndex

end AspectLang
