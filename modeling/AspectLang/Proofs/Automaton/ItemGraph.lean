import AspectLang.Proofs.Automaton.StateItems
import AspectLang.Proofs.Lists
import Mathlib.Algebra.GroupWithZero.Nat
import Mathlib.Data.List.Sublists

/-! # The item graph

Kernels are strictly sorted lists of items of the grammar, and the exploration lists no kernel
twice, so it ends before its fuel does.  What it leaves is described by `Explored`: the edge of
a state for a symbol exists exactly when some item of the state has the symbol after its dot,
and leads to the kernel of the advanced items (`WellFormed.itemGraph_explored`). -/

namespace AspectLang

/-! ### Order of items -/

namespace Item

/-- Items in strict order of production, then of dot. -/
def Before (a b : Item) : Prop :=
  a.production < b.production ∨ (a.production = b.production ∧ a.dot < b.dot)

instance : Std.Antisymm Before where
  antisymm a b hab hba := by
    unfold Before at hab hba
    omega

theorem before_of_le_of_ne {a b : Item} (h : a.le b = true) (hne : a ≠ b) : a.Before b := by
  obtain ⟨p, d⟩ := a
  obtain ⟨q, e⟩ := b
  simp only [le, Bool.or_eq_true, Bool.and_eq_true, decide_eq_true_eq, beq_iff_eq] at h
  simp only [ne_eq, Item.mk.injEq] at hne
  simp only [Before]
  omega

theorem le_trans (a b c : Item) (hab : a.le b = true) (hbc : b.le c = true) : a.le c = true := by
  simp only [le, Bool.or_eq_true, Bool.and_eq_true, decide_eq_true_eq, beq_iff_eq] at *
  omega

theorem le_total (a b : Item) : (a.le b || b.le a) = true := by
  simp only [le, Bool.or_eq_true, Bool.and_eq_true, decide_eq_true_eq, beq_iff_eq]
  omega

end Item

/-! ### Numbers of symbols -/

theorem TokenKind.column_injective {a b : TokenKind} (h : a.column = b.column) : a = b := by
  rw [← TokenKind.ofNat_ctorIdx a, ← TokenKind.ofNat_ctorIdx b]
  exact congrArg TokenKind.ofNat h

theorem TokenKind.exists_column {c : Nat} (h : c < TokenKind.columnCount) :
    ∃ k : TokenKind, k.column = c := by
  have hall : TokenKind.all.map TokenKind.column = List.range TokenKind.columnCount := by decide
  have hmem : c ∈ TokenKind.all.map TokenKind.column := hall ▸ List.mem_range.mpr h
  obtain ⟨k, _, hk⟩ := List.mem_map.mp hmem
  exact ⟨k, hk⟩

namespace Grammar

variable {g : Grammar}

/-- Number of columns in the edges of a state. -/
def edgeWidth (g : Grammar) : Nat := TokenKind.columnCount + 1 + g.nonterminals.size

theorem HasSymbol.key_lt {s : Symbol} (h : g.HasSymbol s) : s.key < g.edgeWidth := by
  cases s with
  | terminal k =>
      have := column_lt_of_mem_all h
      simp only [Symbol.key, edgeWidth]
      omega
  | nonterminal id =>
      simp only [HasSymbol] at h
      simp only [Symbol.key, edgeWidth]
      omega

theorem HasSymbol.key_injective {s s' : Symbol} (h : g.HasSymbol s) (h' : g.HasSymbol s')
    (hkey : s.key = s'.key) : s = s' := by
  cases s with
  | terminal k =>
      have hk := column_lt_of_mem_all h
      cases s' with
      | terminal k' => exact congrArg Symbol.terminal (TokenKind.column_injective hkey)
      | nonterminal id' =>
          simp only [Symbol.key] at hkey
          omega
  | nonterminal id =>
      cases s' with
      | terminal k' =>
          have hk := column_lt_of_mem_all h'
          simp only [Symbol.key] at hkey
          omega
      | nonterminal id' =>
          simp only [Symbol.key] at hkey
          exact congrArg Symbol.nonterminal (by omega)

/-! ### Kernels -/

theorem mem_successor {items : List Item} {s : Symbol} {j : Item} :
    j ∈ g.successor items s ↔ ∃ i ∈ items, g.next? i = some s ∧ i.advance = j := by
  simp only [successor, List.mem_eraseDups, List.mem_mergeSort, List.mem_map, List.mem_filter,
    decide_eq_true_eq, and_assoc]

theorem mem_nextSymbols {items : List Item} {s : Symbol} :
    s ∈ g.nextSymbols items ↔ ∃ i ∈ items, g.next? i = some s := by
  simp only [nextSymbols, List.mem_mergeSort, List.mem_eraseDups, List.mem_filterMap]

theorem successor_pairwise (items : List Item) (s : Symbol) :
    (g.successor items s).Pairwise Item.Before := by
  have hsorted := List.pairwise_mergeSort Item.le_trans Item.le_total
    ((items.filter fun i => g.next? i = some s).map Item.advance)
  have hle := hsorted.sublist (eraseDups_sublist _)
  have hne := nodup_eraseDups
    (((items.filter fun i => g.next? i = some s).map Item.advance).mergeSort Item.le)
  exact (hle.and hne).imp fun h => Item.before_of_le_of_ne h.1 h.2

/-- Whether an item is one of the grammar. -/
def HasItem (g : Grammar) (i : Item) : Prop :=
  i.production < g.productions.size ∧ i.dot ≤ (g.rhsOf i.production).length

theorem hasItem_advance {i : Item} {s : Symbol} (h : g.next? i = some s) :
    g.HasItem i.advance := by
  have hdot : i.dot < (g.rhsOf i.production).length := (List.getElem?_eq_some_iff.mp h).1
  refine ⟨?_, hdot⟩
  by_contra hp
  have hnone : g.productions[i.production]? = none :=
    Array.getElem?_eq_none (Nat.le_of_not_lt hp)
  simp [rhsOf, hnone] at hdot

/-- Kernels that are strictly sorted lists of items of the grammar, none of them listed twice,
the start kernel first. -/
structure Kernels (g : Grammar) (kernels : Array (List Item)) : Prop where
  start : kernels[0]? = some [⟨0, 0⟩]
  nodup : kernels.toList.Nodup
  sorted : ∀ kernel ∈ kernels, kernel.Pairwise Item.Before
  hasItem : ∀ kernel ∈ kernels, ∀ i ∈ kernel, g.HasItem i

theorem WellFormed.kernels_start (hg : g.WellFormed) : g.Kernels #[[⟨0, 0⟩]] where
  start := rfl
  nodup := by simp
  sorted := by simp
  hasItem := by simpa [HasItem] using hg.nonempty

theorem getElem?_of_idxOf? {kernels : Array (List Item)} {kernel : List Item} {target : Nat}
    (h : kernels.idxOf? kernel = some target) : kernels[target]? = some kernel := by
  obtain ⟨l⟩ := kernels
  rw [List.idxOf?_toArray, List.idxOf?_eq_some_iff] at h
  obtain ⟨hlt, heq, _⟩ := h
  rw [List.getElem?_toArray, List.getElem?_eq_getElem hlt, heq]

/-- Interning keeps the kernels found before, and the number is that of the kernel. -/
theorem Kernels.intern {kernels : Array (List Item)} {kernel : List Item}
    (h : g.Kernels kernels) (hsorted : kernel.Pairwise Item.Before)
    (hitems : ∀ i ∈ kernel, g.HasItem i) :
    g.Kernels (internKernel kernels kernel).2 ∧
      (internKernel kernels kernel).2[(internKernel kernels kernel).1]? = some kernel ∧
      ∀ (state : Nat) (k : List Item), kernels[state]? = some k →
        (internKernel kernels kernel).2[state]? = some k := by
  unfold internKernel
  cases hidx : kernels.idxOf? kernel with
  | some target => exact ⟨h, getElem?_of_idxOf? hidx, fun _ _ hk => hk⟩
  | none =>
      have hmem : kernel ∉ kernels := Array.idxOf?_eq_none_iff.mp hidx
      have hkeep : ∀ (state : Nat) (k : List Item), kernels[state]? = some k →
          (kernels.push kernel)[state]? = some k := by
        intro state k hk
        have hlt := (Array.getElem?_eq_some_iff.mp hk).1
        rw [Array.getElem?_push, if_neg (Nat.ne_of_lt hlt), hk]
      refine ⟨⟨hkeep _ _ h.start, ?_, ?_, ?_⟩, Array.getElem?_push_size, hkeep⟩
      · rw [Array.toList_push, List.nodup_append]
        refine ⟨h.nodup, by simp, ?_⟩
        intro a ha b hb hab
        rw [List.mem_singleton] at hb
        exact hmem (hb ▸ hab ▸ Array.mem_toList_iff.mp ha)
      · intro k hk
        rcases Array.mem_push.mp hk with hk | rfl
        · exact h.sorted k hk
        · exact hsorted
      · intro k hk
        rcases Array.mem_push.mp hk with hk | rfl
        · exact h.hasItem k hk
        · exact hitems

/-! ### Edges of a state -/

theorem successor_hasItem (items : List Item) (s : Symbol) :
    ∀ j ∈ g.successor items s, g.HasItem j := by
  intro j hj
  obtain ⟨i, _, hnext, rfl⟩ := mem_successor.mp hj
  exact hasItem_advance hnext

/-- What the edges of one state come to: those of the symbols lead to their successors, and
the others stay as they were. -/
structure EdgesAdded (g : Grammar) (items : List Item) (symbols : List Symbol)
    (kernels : Array (List Item)) (row : Array (Option Nat)) (kernels' : Array (List Item))
    (row' : Array (Option Nat)) : Prop where
  wellSorted : g.Kernels kernels'
  keeps : ∀ (state : Nat) (k : List Item), kernels[state]? = some k → kernels'[state]? = some k
  size : row'.size = row.size
  leads : ∀ s ∈ symbols, ∃ target, row'.getD s.key none = some target ∧
    kernels'[target]? = some (g.successor items s)
  others : ∀ key, (∀ s ∈ symbols, s.key ≠ key) → row'.getD key none = row.getD key none

theorem getD_setIfInBounds_same {row : Array (Option Nat)} {key : Nat} {value : Option Nat}
    (h : key < row.size) : (row.setIfInBounds key value).getD key none = value := by
  rw [Array.getD_eq_getD_getElem?, Array.getElem?_setIfInBounds_self_of_lt h]
  rfl

theorem getD_setIfInBounds_other {row : Array (Option Nat)} {key key' : Nat} {value : Option Nat}
    (h : key ≠ key') : (row.setIfInBounds key value).getD key' none = row.getD key' none := by
  rw [Array.getD_eq_getD_getElem?, Array.getD_eq_getD_getElem?,
    Array.getElem?_setIfInBounds_ne h]

theorem Kernels.addEdges {symbols : List Symbol} {kernels : Array (List Item)}
    {row : Array (Option Nat)} (h : g.Kernels kernels) (items : List Item)
    (hsymbols : ∀ s ∈ symbols, g.HasSymbol s) (hrow : row.size = g.edgeWidth) :
    g.EdgesAdded items symbols kernels row (g.addEdges items symbols kernels row).1
      (g.addEdges items symbols kernels row).2 := by
  induction symbols generalizing kernels row with
  | nil => exact ⟨h, fun _ _ hk => hk, rfl, by simp, fun _ _ => rfl⟩
  | cons s symbols ih =>
      obtain ⟨hkernels, hfound, hkeep⟩ :=
        h.intern (successor_pairwise items s) (successor_hasItem items s)
      unfold Grammar.addEdges
      generalize internKernel kernels (g.successor items s) = found at *
      obtain ⟨target, kernels₁⟩ := found
      dsimp only at *
      have hs := hsymbols s List.mem_cons_self
      have hrow' : (row.setIfInBounds s.key (some target)).size = g.edgeWidth := by
        rw [Array.size_setIfInBounds, hrow]
      have hrest := ih hkernels (fun t ht => hsymbols t (List.mem_cons_of_mem s ht)) hrow'
      refine ⟨hrest.wellSorted, fun state k hk => hrest.keeps state k (hkeep state k hk),
        by simpa using hrest.size, ?_, ?_⟩
      · intro t ht
        by_cases hmem : t ∈ symbols
        · exact hrest.leads t hmem
        · obtain rfl : t = s := (List.mem_cons.mp ht).resolve_right hmem
          refine ⟨target, ?_, hrest.keeps _ _ hfound⟩
          rw [hrest.others, getD_setIfInBounds_same (by rw [hrow]; exact hs.key_lt)]
          intro t' ht' hkey
          have ht'' := hsymbols t' (List.mem_cons_of_mem t ht')
          exact hmem (ht''.key_injective hs hkey ▸ ht')
      · intro key hkey
        rw [hrest.others key fun t ht => hkey t (List.mem_cons_of_mem s ht),
          getD_setIfInBounds_other (hkey s List.mem_cons_self)]

/-! ### Number of kernels -/

/-- Every item of a grammar, in order. -/
def allItems (g : Grammar) : List Item :=
  (List.range g.productions.size).flatMap fun p =>
    (List.range ((g.rhsOf p).length + 1)).map (Item.mk p)

theorem mem_allItems {i : Item} (h : g.HasItem i) : i ∈ g.allItems := by
  refine List.mem_flatMap.mpr ⟨i.production, List.mem_range.mpr h.1, ?_⟩
  exact List.mem_map.mpr ⟨i.dot, List.mem_range.mpr (Nat.lt_succ_of_le h.2), rfl⟩

theorem allItems_pairwise : g.allItems.Pairwise Item.Before := by
  unfold allItems
  rw [List.pairwise_flatMap]
  refine ⟨fun p _ => ?_, List.pairwise_lt_range.imp fun hlt i hi j hj => ?_⟩
  · rw [List.pairwise_map]
    exact List.pairwise_lt_range.imp fun hlt => .inr ⟨rfl, hlt⟩
  · obtain ⟨d, _, rfl⟩ := List.mem_map.mp hi
    obtain ⟨e, _, rfl⟩ := List.mem_map.mp hj
    exact .inl hlt

theorem foldl_length_eq_sum (l : List Production) (n : Nat) :
    l.foldl (fun n p => n + p.rhs.length + 1) n = n + (l.map fun p => p.rhs.length + 1).sum := by
  induction l generalizing n with
  | nil => simp
  | cons p l ih =>
      rw [List.foldl_cons, ih, List.map_cons, List.sum_cons]
      omega

theorem allItems_length : g.allItems.length = g.itemCount := by
  have hmap : (List.range g.productions.size).map (fun p => (g.rhsOf p).length + 1) =
      g.productions.toList.map fun p => p.rhs.length + 1 := by
    refine List.ext_getElem (by simp) fun p hp hp' => ?_
    have hlt : p < g.productions.size := by simpa using hp
    have hrhs := rhsOf_eq (Array.getElem?_eq_getElem hlt)
    simp [hrhs]
  rw [itemCount, ← Array.foldl_toList, foldl_length_eq_sum, ← hmap, allItems,
    List.length_flatMap]
  simp

/-- There are no more kernels than sets of items. -/
theorem Kernels.size_le {kernels : Array (List Item)} (h : g.Kernels kernels) :
    kernels.size ≤ 2 ^ g.itemCount := by
  have hsubset : kernels.toList ⊆ g.allItems.sublists := by
    intro kernel hkernel
    have hmem : kernel ∈ kernels := Array.mem_toList_iff.mp hkernel
    have hnodup : kernel.Nodup := (h.sorted kernel hmem).imp fun hb heq => by
      subst heq
      unfold Item.Before at hb
      omega
    have hsubperm := hnodup.subperm fun i hi => mem_allItems (h.hasItem kernel hmem i hi)
    exact List.mem_sublists.mpr
      (List.sublist_of_subperm_of_pairwise hsubperm (h.sorted kernel hmem) allItems_pairwise)
  have hlength := (h.nodup.subperm hsubset).length_le
  rw [List.length_sublists, allItems_length] at hlength
  simpa using hlength

/-! ### Exploration -/

/-- The edges of a state with a given kernel. -/
structure EdgesOf (g : Grammar) (kernels : Array (List Item)) (kernel : List Item)
    (row : Array (Option Nat)) : Prop where
  size : row.size = g.edgeWidth
  edge : ∀ i s, g.ItemOf kernel i → g.next? i = some s → ∃ target, row.getD s.key none = some target
  target : ∀ s target, g.HasSymbol s → row.getD s.key none = some target →
    kernels[target]? = some (g.successor (g.closure g.byLhs kernel) s) ∧
      ∃ i, g.ItemOf kernel i ∧ g.next? i = some s

theorem EdgesOf.mono {kernels kernels' : Array (List Item)} {kernel : List Item}
    {row : Array (Option Nat)} (h : g.EdgesOf kernels kernel row)
    (hkeep : ∀ (state : Nat) (k : List Item), kernels[state]? = some k →
      kernels'[state]? = some k) : g.EdgesOf kernels' kernel row where
  size := h.size
  edge := h.edge
  target := fun s target hs hrow =>
    ⟨hkeep _ _ (h.target s target hs hrow).1, (h.target s target hs hrow).2⟩

/-- Adding the edges for the symbols after the dots of a state gives its edges. -/
theorem WellFormed.edgesOf_addEdges (hg : g.WellFormed) {kernel : List Item}
    {kernels kernels' : Array (List Item)} {row : Array (Option Nat)}
    (h : g.EdgesAdded (g.closure g.byLhs kernel) (g.nextSymbols (g.closure g.byLhs kernel)) kernels
      (Array.replicate g.edgeWidth none) kernels' row) : g.EdgesOf kernels' kernel row where
  size := by simpa using h.size
  edge := by
    intro i s hi hnext
    obtain ⟨target, hrow, _⟩ := h.leads s
      (mem_nextSymbols.mpr ⟨i, hg.mem_closure_iff.mpr hi, hnext⟩)
    exact ⟨target, hrow⟩
  target := by
    intro s target hs hrow
    by_cases hmem : s ∈ g.nextSymbols (g.closure g.byLhs kernel)
    · obtain ⟨target', hrow', htarget⟩ := h.leads s hmem
      obtain ⟨i, hi, hnext⟩ := mem_nextSymbols.mp hmem
      rw [hrow, Option.some.injEq] at hrow'
      exact ⟨hrow' ▸ htarget, i, hg.mem_closure_iff.mp hi, hnext⟩
    · rw [h.others] at hrow
      · have hlt := hs.key_lt
        simp [Array.getD, hlt] at hrow
      · intro s' hs' hkey
        obtain ⟨i, _, hnext⟩ := mem_nextSymbols.mp hs'
        exact hmem ((hg.next_hasSymbol hnext).key_injective hs hkey ▸ hs')

/-- A graph whose first states have their edges. -/
structure Explored (g : Grammar) (graph : ItemGraph) : Prop where
  kernels : g.Kernels graph.kernels
  size_le : graph.edges.size ≤ graph.kernels.size
  edges : ∀ (state : Nat) (kernel : List Item) (row : Array (Option Nat)),
    graph.kernels[state]? = some kernel → graph.edges[state]? = some row →
      g.EdgesOf graph.kernels kernel row

theorem WellFormed.explored_start (hg : g.WellFormed) : g.Explored ⟨#[[⟨0, 0⟩]], #[]⟩ where
  kernels := hg.kernels_start
  size_le := Nat.zero_le _
  edges := by simp

/-- Exploring one more state. -/
theorem Explored.step (hg : g.WellFormed) {graph : ItemGraph} (h : g.Explored graph)
    {kernel : List Item} (hkernel : graph.kernels[graph.edges.size]? = some kernel)
    {kernels : Array (List Item)} {row : Array (Option Nat)}
    (hadded : g.EdgesAdded (g.closure g.byLhs kernel) (g.nextSymbols (g.closure g.byLhs kernel))
      graph.kernels (Array.replicate g.edgeWidth none) kernels row) :
    g.Explored ⟨kernels, graph.edges.push row⟩ where
  kernels := hadded.wellSorted
  size_le := by
    rw [Array.size_push]
    exact (Array.getElem?_eq_some_iff.mp (hadded.keeps _ _ hkernel)).1
  edges := by
    intro state k row' hk hrow'
    dsimp only at hk hrow'
    rw [Array.getElem?_push] at hrow'
    by_cases hstate : state = graph.edges.size
    · rw [if_pos hstate, Option.some.injEq] at hrow'
      subst hstate hrow'
      rw [hadded.keeps _ _ hkernel, Option.some.injEq] at hk
      exact hk ▸ hg.edgesOf_addEdges hadded
    · rw [if_neg hstate] at hrow'
      have hlt : state < graph.kernels.size :=
        Nat.lt_of_lt_of_le (Array.getElem?_eq_some_iff.mp hrow').1 h.size_le
      have hold : graph.kernels[state]? = some graph.kernels[state] :=
        Array.getElem?_eq_getElem hlt
      rw [hadded.keeps _ _ hold, Option.some.injEq] at hk
      exact (h.edges state k row' (hk ▸ hold) hrow').mono hadded.keeps

/-- With enough fuel the exploration ends when every state has its edges. -/
theorem Explored.explore (hg : g.WellFormed) {graph : ItemGraph} (h : g.Explored graph)
    {fuel : Nat} (hfuel : 2 ^ g.itemCount < fuel + graph.edges.size) :
    g.Explored (g.explore g.byLhs fuel graph.edges.size graph) ∧
      (g.explore g.byLhs fuel graph.edges.size graph).edges.size =
        (g.explore g.byLhs fuel graph.edges.size graph).kernels.size := by
  induction fuel generalizing graph with
  | zero =>
      have hsize := h.kernels.size_le
      have hle := h.size_le
      omega
  | succ fuel ih =>
      unfold Grammar.explore
      cases hkernel : graph.kernels[graph.edges.size]? with
      | none =>
          have hge := Array.getElem?_eq_none_iff.mp hkernel
          exact ⟨h, Nat.le_antisymm h.size_le hge⟩
      | some kernel =>
          have hsymbols : ∀ s ∈ g.nextSymbols (g.closure g.byLhs kernel), g.HasSymbol s := by
            intro s hs
            obtain ⟨i, _, hnext⟩ := mem_nextSymbols.mp hs
            exact hg.next_hasSymbol hnext
          have hadded := h.kernels.addEdges (g.closure g.byLhs kernel) hsymbols
            (Array.size_replicate (n := g.edgeWidth) (v := none))
          have hnext := ih (h.step hg hkernel hadded) (by rw [Array.size_push]; omega)
          rw [Array.size_push] at hnext
          exact hnext

/-- **The item graph has every state that can be reached, and every state its edges.** -/
theorem WellFormed.itemGraph_explored (hg : g.WellFormed) :
    g.Explored g.itemGraph ∧ g.itemGraph.edges.size = g.itemGraph.kernels.size :=
  hg.explored_start.explore hg (Nat.lt_succ_self _)

/-! ### Edges by state and symbol -/

/-- Where a symbol leads from a state. -/
def ItemGraph.edge? (graph : ItemGraph) (state : Nat) (s : Symbol) : Option Nat :=
  (graph.edges.getD state #[]).getD s.key none

theorem WellFormed.edgesOf (hg : g.WellFormed) {state : Nat} {kernel : List Item}
    (h : g.itemGraph.kernels[state]? = some kernel) :
    g.EdgesOf g.itemGraph.kernels kernel (g.itemGraph.edges.getD state #[]) := by
  obtain ⟨hexplored, hsize⟩ := hg.itemGraph_explored
  have hlt : state < g.itemGraph.edges.size := by
    rw [hsize]
    exact (Array.getElem?_eq_some_iff.mp h).1
  have hrow : g.itemGraph.edges[state]? = some (g.itemGraph.edges.getD state #[]) := by
    simp [Array.getElem?_eq_getElem hlt]
  exact hexplored.edges state kernel _ h hrow

theorem WellFormed.kernels_zero (hg : g.WellFormed) :
    g.itemGraph.kernels[0]? = some [⟨0, 0⟩] := hg.itemGraph_explored.1.kernels.start

/-- A symbol after the dot of an item of a state leads on. -/
theorem WellFormed.edge_of_next (hg : g.WellFormed) {state : Nat} {kernel : List Item}
    (h : g.itemGraph.kernels[state]? = some kernel) {i : Item} {s : Symbol}
    (hi : g.ItemOf kernel i) (hs : g.next? i = some s) :
    ∃ target, g.itemGraph.edge? state s = some target :=
  (hg.edgesOf h).edge i s hi hs

/-- An edge leads to the kernel of the advanced items, of which there is at least one. -/
theorem WellFormed.kernel_of_edge (hg : g.WellFormed) {state target : Nat} {kernel : List Item}
    (h : g.itemGraph.kernels[state]? = some kernel) {s : Symbol} (hs : g.HasSymbol s)
    (hedge : g.itemGraph.edge? state s = some target) :
    ∃ kernel', g.itemGraph.kernels[target]? = some kernel' ∧
      (∀ j, j ∈ kernel' ↔ ∃ i, g.ItemOf kernel i ∧ g.next? i = some s ∧ i.advance = j) ∧
      ∃ i, g.ItemOf kernel i ∧ g.next? i = some s := by
  obtain ⟨htarget, hitem⟩ := (hg.edgesOf h).target s target hs hedge
  refine ⟨_, htarget, fun j => ?_, hitem⟩
  simp only [mem_successor, hg.mem_closure_iff]

end Grammar

end AspectLang
