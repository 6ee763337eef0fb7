import AspectLang.Proofs.Automaton.Completeness
import AspectLang.Proofs.Automaton.SententialForms
import AspectLang.Proofs.Automaton.SharedStates
import Mathlib.Data.List.Sort
import Mathlib.Data.Set.Basic

/-! # Lookaheads and canonical item sets

In a canonical item set every item carries one terminal that may follow its production; closing the
set adds the starts of productions with the terminals that can begin what comes after them.  The
core of a set are its items without the terminals.  The tables keep one state for each core, and
the question is which terminals they then look for.

Where every nonterminal derives the empty form or one that begins with a terminal, closing a set
loses no item, so the cores of canonical sets are the item sets of the states (`core_canonicalGoto`).
The pairs that lie in some canonical set with the core of a state are then a bound for the lookaheads
of that state, and canonical sets keep within the lookaheads on every way through the automaton
(`CanonicalSet.looks`).  Hence the lookaheads are exactly the union over the canonical sets with
the same core (`lookaheads_are_canonical`).

Without the condition they may be more: the starts of a nonterminal before another one that derives
nothing are items of a state, but of no canonical set (`lookaheads_exceed_canonical`). -/

namespace AspectLang

namespace Grammar

variable {g : Grammar} {kernel next : List Item} {I : Set (Item × TokenKind)} {s : Symbol}

/-! ### Canonical sets -/

/-- The pairs that closing a set of items with their terminals adds. -/
inductive InClosure (g : Grammar) (I : Set (Item × TokenKind)) : Item × TokenKind → Prop
  | base {x : Item × TokenKind} : x ∈ I → InClosure g I x
  | start {i : Item} {a b : TokenKind} {p : Nat} {production : Production} {rest : List Symbol} :
      InClosure g I (i, a) →
        (g.rhsOf i.production).drop i.dot = .nonterminal production.lhs :: rest →
          g.productions[p]? = some production → g.CanBegin (rest ++ [.terminal a]) b →
            InClosure g I (⟨p, 0⟩, b)

/-- The closure of a set of items with their terminals. -/
def canonicalClosure (g : Grammar) (I : Set (Item × TokenKind)) : Set (Item × TokenKind) :=
  {x | g.InClosure I x}

/-- The canonical set at the start: the start production before the end of input. -/
def canonicalStart (g : Grammar) : Set (Item × TokenKind) := g.canonicalClosure {(⟨0, 0⟩, .eof)}

/-- The items of a set after a symbol, with their terminals. -/
def advanced (g : Grammar) (I : Set (Item × TokenKind)) (s : Symbol) : Set (Item × TokenKind) :=
  {x | ∃ i a, (i, a) ∈ I ∧ g.next? i = some s ∧ x = (i.advance, a)}

/-- The canonical set that a symbol leads to. -/
def canonicalGoto (g : Grammar) (I : Set (Item × TokenKind)) (s : Symbol) :
    Set (Item × TokenKind) := g.canonicalClosure (g.advanced I s)

/-- The canonical collection of item sets. -/
inductive CanonicalSet (g : Grammar) : Set (Item × TokenKind) → Prop
  | start : CanonicalSet g g.canonicalStart
  | goto {I : Set (Item × TokenKind)} (s : Symbol) : CanonicalSet g I →
      (g.canonicalGoto I s).Nonempty → CanonicalSet g (g.canonicalGoto I s)

/-- The items of a set without their terminals. -/
def core (I : Set (Item × TokenKind)) : Set Item := {i | ∃ a, (i, a) ∈ I}

/-- The items of the state with a given kernel. -/
def itemsOf (g : Grammar) (kernel : List Item) : Set Item := {i | g.ItemOf kernel i}

/-- Every nonterminal derives the empty form, or a form that begins with a terminal. -/
def AllBegin (g : Grammar) : Prop :=
  ∀ id < g.nonterminals.size,
    g.Derives [.nonterminal id] [] ∨ ∃ t, g.CanBegin [.nonterminal id] t

/-! ### Cores -/

theorem exists_canBegin (hall : g.AllBegin) (a : TokenKind) {rest : List Symbol}
    (hrest : ∀ s ∈ rest, g.HasSymbol s) : ∃ b, g.CanBegin (rest ++ [.terminal a]) b := by
  induction rest with
  | nil => exact ⟨a, canBegin_terminal a []⟩
  | cons s rest ih =>
      cases s with
      | terminal k => exact ⟨k, canBegin_terminal k _⟩
      | nonterminal id =>
          rcases hall id (hrest _ List.mem_cons_self) with hempty | ⟨t, ht⟩
          · obtain ⟨b, hb⟩ := ih fun s hs => hrest s (List.mem_cons_of_mem _ hs)
            have hbegin := CanBegin.after_empty hempty hb
            exact ⟨b, hbegin⟩
          · exact ⟨t, ht.append (rest ++ [.terminal a])⟩

theorem exists_drop_of_next? {i : Item} (h : g.next? i = some s) :
    ∃ rest, (g.rhsOf i.production).drop i.dot = s :: rest := by
  obtain ⟨hlt, hget⟩ := List.getElem?_eq_some_iff.mp h
  exact ⟨_, (List.drop_eq_getElem_cons hlt).trans (by rw [hget])⟩

theorem WellFormed.hasSymbol_of_drop (hg : g.WellFormed) {i : Item} {rest : List Symbol}
    (h : (g.rhsOf i.production).drop i.dot = s :: rest) : ∀ r ∈ rest, g.HasSymbol r := by
  obtain ⟨production, hp, hdrop⟩ := GrammarIndex.exists_production_of_drop h
  intro r hr
  have hmem : r ∈ production.rhs.drop i.dot := by
    rw [hdrop]
    exact List.mem_cons_of_mem s hr
  exact hg.hasSymbol production (Array.mem_of_getElem? hp) r (List.mem_of_mem_drop hmem)

/-- Closing a set keeps within the items of a state that has its core for a kernel. -/
theorem itemOf_of_inClosure (h : ∀ i ∈ core I, i ∈ kernel) {x : Item × TokenKind}
    (hx : g.InClosure I x) : g.ItemOf kernel x.1 := by
  induction hx with
  | base hbase => exact .kernel (h _ ⟨_, hbase⟩)
  | start _ hdrop hp _ ih => exact .start ih (GrammarIndex.next?_of_drop hdrop) hp

theorem core_canonicalClosure (hg : g.WellFormed) (hall : g.AllBegin)
    (h : ∀ i, i ∈ core I ↔ i ∈ kernel) : core (g.canonicalClosure I) = g.itemsOf kernel := by
  ext i
  constructor
  · rintro ⟨a, ha⟩
    exact itemOf_of_inClosure (fun j hj => (h j).mp hj) ha
  · intro hi
    induction hi with
    | kernel hmem =>
        obtain ⟨a, ha⟩ := (h _).mpr hmem
        exact ⟨a, .base ha⟩
    | start _ hnext hp ih =>
        obtain ⟨a, ha⟩ := ih
        obtain ⟨rest, hdrop⟩ := exists_drop_of_next? hnext
        obtain ⟨b, hb⟩ := exists_canBegin hall a (hg.hasSymbol_of_drop hdrop)
        exact ⟨b, .start ha hdrop hp hb⟩

theorem core_canonicalStart (hg : g.WellFormed) (hall : g.AllBegin) :
    core g.canonicalStart = g.itemsOf [⟨0, 0⟩] := by
  refine core_canonicalClosure hg hall fun i => ?_
  simp [core]

/-- The core of the set that a symbol leads to is that of the state it leads to. -/
theorem core_canonicalGoto (hg : g.WellFormed) (hall : g.AllBegin)
    (hcore : core I = g.itemsOf kernel)
    (hnext : ∀ j, j ∈ next ↔ ∃ i, g.ItemOf kernel i ∧ g.next? i = some s ∧ i.advance = j) :
    core (g.canonicalGoto I s) = g.itemsOf next := by
  refine core_canonicalClosure hg hall fun j => ?_
  rw [hnext]
  constructor
  · rintro ⟨a, i, _, hi, hs, heq⟩
    obtain ⟨rfl, rfl⟩ := Prod.mk.inj heq
    have hmem : i ∈ core I := ⟨_, hi⟩
    rw [hcore] at hmem
    exact ⟨i, hmem, hs, rfl⟩
  · rintro ⟨i, hi, hs, rfl⟩
    have hmem : i ∈ core I := hcore ▸ hi
    obtain ⟨a, ha⟩ := hmem
    exact ⟨a, i, a, ha, hs, rfl⟩

theorem itemsOf_nonempty_iff : (g.itemsOf kernel).Nonempty ↔ ∃ i, i ∈ kernel := by
  constructor
  · rintro ⟨i, hi⟩
    induction hi with
    | kernel hmem => exact ⟨_, hmem⟩
    | start _ _ _ ih => exact ih
  · rintro ⟨i, hi⟩
    exact ⟨i, .kernel hi⟩

theorem nonempty_of_core (h : (core I).Nonempty) : I.Nonempty := by
  obtain ⟨i, a, ha⟩ := h
  exact ⟨_, ha⟩

/-- Every state has the core of some canonical set. -/
theorem Reached.exists_canonicalSet (hg : g.WellFormed) (hall : g.AllBegin)
    (h : g.Reached kernel) (hne : (g.itemsOf kernel).Nonempty) :
    ∃ I, g.CanonicalSet I ∧ core I = g.itemsOf kernel := by
  induction h with
  | start => exact ⟨_, .start, core_canonicalStart hg hall⟩
  | @step kernel next s _ hnext ih =>
      obtain ⟨j, hj⟩ := itemsOf_nonempty_iff.mp hne
      obtain ⟨i, hi, _⟩ := (hnext j).mp hj
      obtain ⟨I, hI, hcore⟩ := ih ⟨i, hi⟩
      have hgoto := core_canonicalGoto hg hall hcore hnext
      exact ⟨_, .goto s hI (nonempty_of_core (hgoto ▸ hne)), hgoto⟩

/-! ### Lookaheads keep within canonical sets -/

theorem CanonicalSet.closed (h : g.CanonicalSet I) {i : Item} {a b : TokenKind} {p : Nat}
    {production : Production} {rest : List Symbol} (hi : (i, a) ∈ I)
    (hdrop : (g.rhsOf i.production).drop i.dot = .nonterminal production.lhs :: rest)
    (hp : g.productions[p]? = some production) (hb : g.CanBegin (rest ++ [.terminal a]) b) :
    (⟨p, 0⟩, b) ∈ I := by
  cases h with
  | start => exact .start hi hdrop hp hb
  | goto s _ _ => exact .start hi hdrop hp hb

/-- The item with the terminal lies in a canonical set that has the core of the state. -/
def CanonicalAt (g : Grammar) (t : TokenKind) (state : Nat) (i : Item) : Prop :=
  ∃ I kernel, g.CanonicalSet I ∧ g.itemGraph.kernels[state]? = some kernel ∧
    core I = g.itemsOf kernel ∧ (i, t) ∈ I

/-- What canonical sets have is a bound for the lookaheads of the states. -/
theorem followBound_canonicalAt (hg : g.WellFormed) (hall : g.AllBegin) (t : TokenKind) :
    GrammarIndex.FollowBound g t.column (g.CanonicalAt t) where
  start := by
    intro ht
    obtain rfl := TokenKind.column_injective ht
    exact ⟨_, _, .start, hg.kernels_zero, core_canonicalStart hg hall, .base rfl⟩
  begin := by
    intro state kernel i p production rest hk hi hdrop hp hrest
    rcases hrest with hfirst | ⟨hvanishes, I, kernel', hI, hk', hcore, hmem⟩
    · obtain ⟨I, hI, hcore⟩ := (hg.reached hk).exists_canonicalSet hg hall ⟨i, hi⟩
      have hmem : i ∈ core I := hcore ▸ hi
      obtain ⟨a, ha⟩ := hmem
      have hbegin : g.CanBegin (rest ++ [.terminal a]) t := (hg.has_first_iff.mp hfirst).append _
      exact ⟨I, kernel, hI, hk, hcore, hI.closed ha hdrop hp hbegin⟩
    · have hbegin : g.CanBegin (rest ++ [.terminal t]) t :=
        .after_empty (hg.vanishes_iff.mp hvanishes) (canBegin_terminal t [])
      exact ⟨I, kernel', hI, hk', hcore, hI.closed hmem hdrop hp hbegin⟩
  advance := by
    intro state target kernel i s hk hi hat hs hedge
    obtain ⟨I, kernel', hI, hk', hcore, hmem⟩ := hat
    obtain rfl := Option.some.inj (hk.symm.trans hk')
    obtain ⟨next, htarget, hnext, _⟩ := hg.kernel_of_edge hk (hg.next_hasSymbol hs) hedge
    have hadvanced : (i.advance, t) ∈ g.canonicalGoto I s := .base ⟨i, t, hmem, hs, rfl⟩
    exact ⟨_, next, .goto s hI ⟨_, hadvanced⟩, htarget,
      core_canonicalGoto hg hall hcore hnext, hadvanced⟩

/-! ### Canonical sets keep within lookaheads -/

open GrammarIndex (stateItems followSets)

/-- The state looks for the terminal after the item. -/
def Looks (g : Grammar) (state : Nat) (i : Item) (a : TokenKind) : Prop :=
  ∃ follow, ⟨i, follow⟩ ∈ stateItems g (followSets g) state ∧ follow.has a.column = true

theorem looks_of_setAt (hg : g.WellFormed) {state : Nat}
    (hk : g.itemGraph.kernels[state]? = some kernel) {i : Item} (hi : i ∈ kernel) {a : TokenKind}
    (ha : (GrammarIndex.setAt (followSets g) state (kernel.idxOf i)).has a.column = true) :
    g.Looks state i a := by
  have hget : kernel[kernel.idxOf i]? = some i := by
    have hlt := List.idxOf_lt_length_iff.mpr hi
    rw [List.getElem?_eq_getElem hlt, List.getElem_idxOf]
  obtain ⟨follow, hitem, hwithin⟩ :=
    GrammarIndex.stateItems_keeps hg (GrammarIndex.lookaheads_stable hg).1 hk hget
  exact ⟨follow, Array.mem_of_getElem? hitem, hwithin _ ha⟩

theorem ofSymbolsThen_mono {f : FirstSets} {rest : List Symbol} {tail tail' : KindSet}
    (h : tail.Within tail') : (f.ofSymbolsThen rest tail).Within (f.ofSymbolsThen rest tail') := by
  intro c hc
  rw [FirstSets.has_ofSymbolsThen] at hc ⊢
  exact hc.imp_right (And.imp_right (h c))

/-- Closing a set adds nothing that the closure of the state lacks. -/
theorem looks_of_inClosure (hg : g.WellFormed) {state : Nat}
    (hk : g.itemGraph.kernels[state]? = some kernel)
    (hI : ∀ i a, (i, a) ∈ I → g.Looks state i a) {x : Item × TokenKind}
    (hx : g.InClosure I x) : g.Looks state x.1 x.2 := by
  induction hx with
  | base hbase => exact hI _ _ hbase
  | @start i a b p production rest _ hdrop hp hb ih =>
      obtain ⟨follow, hitem, hhas⟩ := ih
      obtain ⟨follow', hstart, hwithin⟩ := GrammarIndex.stateItems_hasStart hg
        (GrammarIndex.lookaheads_stable hg).1 hk hitem hdrop hp
      have htail : (KindSet.ofKind a).Within follow := by
        intro c hc
        rw [KindSet.has_ofKind, decide_eq_true_eq] at hc
        exact hc ▸ hhas
      refine ⟨follow', hstart, hwithin _ (ofSymbolsThen_mono htail _ ?_)⟩
      exact hg.canBegin_iff_ofSymbolsThen.mp hb

theorem looks_start (hg : g.WellFormed) : g.Looks 0 ⟨0, 0⟩ .eof := by
  refine looks_of_setAt hg hg.kernels_zero (by simp) ?_
  exact (GrammarIndex.lookaheads_stable hg).2.2 _ (KindSet.has_ofKind_self .eof)

theorem looks_advance (hg : g.WellFormed) {state target : Nat}
    (hk : g.itemGraph.kernels[state]? = some kernel)
    (hedge : g.itemGraph.edge? state s = some target)
    (htarget : g.itemGraph.kernels[target]? = some next)
    (hnext : ∀ j, j ∈ next ↔ ∃ i, g.ItemOf kernel i ∧ g.next? i = some s ∧ i.advance = j)
    {i : Item} {a : TokenKind} (hi : g.ItemOf kernel i) (hs : g.next? i = some s)
    (h : g.Looks state i a) : g.Looks target i.advance a := by
  obtain ⟨follow, hitem, hhas⟩ := h
  have hlt : state < g.itemGraph.kernels.size := (Array.getElem?_eq_some_iff.mp hk).1
  have hsent := (GrammarIndex.lookaheads_stable hg).2.1 state hlt _ hitem
  refine looks_of_setAt hg htarget ((hnext _).mpr ⟨i, hi, hs, rfl⟩) ?_
  exact hsent s target next hs hedge htarget _ hhas

theorem exists_of_canonicalGoto (h : (g.canonicalGoto I s).Nonempty) :
    ∃ i a, (i, a) ∈ I ∧ g.next? i = some s := by
  obtain ⟨x, hx⟩ := h
  induction hx with
  | base hbase =>
      obtain ⟨i, a, hi, hs, _⟩ := hbase
      exact ⟨i, a, hi, hs⟩
  | start _ _ _ _ ih => exact ih

/-- **On its way through the automaton a canonical set keeps within the lookaheads** of the state
with its core. -/
theorem CanonicalSet.looks (hg : g.WellFormed) (hall : g.AllBegin) (h : g.CanonicalSet I) :
    ∃ state kernel, g.itemGraph.kernels[state]? = some kernel ∧ core I = g.itemsOf kernel ∧
      ∀ i a, (i, a) ∈ I → g.Looks state i a := by
  induction h with
  | start =>
      refine ⟨0, _, hg.kernels_zero, core_canonicalStart hg hall, fun i a hi => ?_⟩
      refine looks_of_inClosure hg hg.kernels_zero (fun j b hj => ?_) hi
      obtain ⟨rfl, rfl⟩ := Prod.mk.inj hj
      exact looks_start hg
  | @goto I s _ hne ih =>
      obtain ⟨state, kernel, hk, hcore, hlooks⟩ := ih
      have hitem : ∀ {i a}, (i, a) ∈ I → g.ItemOf kernel i := by
        intro i a hi
        have hmem : i ∈ core I := ⟨a, hi⟩
        rw [hcore] at hmem
        exact hmem
      obtain ⟨i, a, hi, hs⟩ := exists_of_canonicalGoto hne
      obtain ⟨target, hedge⟩ := hg.edge_of_next hk (hitem hi) hs
      obtain ⟨next, htarget, hnext, _⟩ := hg.kernel_of_edge hk (hg.next_hasSymbol hs) hedge
      refine ⟨target, next, htarget, core_canonicalGoto hg hall hcore hnext, fun j b hj => ?_⟩
      refine looks_of_inClosure hg htarget (fun j b hj => ?_) hj
      obtain ⟨i, a, hi, hs, heq⟩ := hj
      obtain ⟨rfl, rfl⟩ := Prod.mk.inj heq
      exact looks_advance hg hk hedge htarget hnext (hitem hi) hs (hlooks i b hi)

/-! ### States are known by their cores -/

instance : Std.Irrefl Item.Before where
  irrefl a h := by
    unfold Item.Before at h
    omega

theorem mem_of_itemOf {i : Item} (h : g.ItemOf kernel i) (hdot : i.dot ≠ 0) : i ∈ kernel := by
  cases h with
  | kernel hmem => exact hmem
  | start _ _ _ => exact absurd rfl hdot

theorem dot_eq_zero_of_start {i : Item} (h : g.ItemOf [⟨0, 0⟩] i) : i.dot = 0 := by
  by_contra hdot
  have hmem := mem_of_itemOf h hdot
  rw [List.mem_singleton.mp hmem] at hdot
  exact hdot rfl

theorem Reached.mem_of_itemsOf_eq {kernel' : List Item} (h : g.Reached kernel)
    (h' : g.Reached kernel') (heq : g.itemsOf kernel = g.itemsOf kernel') {i : Item}
    (hi : i ∈ kernel) : i ∈ kernel' := by
  have hitem : g.ItemOf kernel' i := by
    have hmem : i ∈ g.itemsOf kernel := .kernel hi
    rw [heq] at hmem
    exact hmem
  by_cases hdot : i.dot = 0
  · -- the start: its items all have their dot in front, so the other kernel is the start too
    obtain ⟨rfl, rfl⟩ := h.eq_start hi hdot
    obtain ⟨j, hj⟩ := itemsOf_nonempty_iff.mp ⟨_, hitem⟩
    have hback : j ∈ g.itemsOf kernel' := .kernel hj
    rw [← heq] at hback
    obtain ⟨rfl, _⟩ := h'.eq_start hj (dot_eq_zero_of_start hback)
    simp
  · exact mem_of_itemOf hitem hdot

theorem WellFormed.state_eq_of_itemsOf (hg : g.WellFormed) {state state' : Nat}
    {kernel' : List Item} (hk : g.itemGraph.kernels[state]? = some kernel)
    (hk' : g.itemGraph.kernels[state']? = some kernel')
    (heq : g.itemsOf kernel = g.itemsOf kernel') : state = state' := by
  have hkernels := hg.itemGraph_explored.1.kernels
  have hsame : kernel = kernel' := by
    refine List.Pairwise.eq_of_mem_iff (hkernels.sorted _ (Array.mem_of_getElem? hk))
      (hkernels.sorted _ (Array.mem_of_getElem? hk')) fun i => ?_
    exact ⟨(hg.reached hk).mem_of_itemsOf_eq (hg.reached hk') heq,
      (hg.reached hk').mem_of_itemsOf_eq (hg.reached hk) heq.symm⟩
  subst hsame
  obtain ⟨hlt, hget⟩ := Array.getElem?_eq_some_iff.mp hk
  obtain ⟨hlt', hget'⟩ := Array.getElem?_eq_some_iff.mp hk'
  exact (@List.Nodup.getElem_inj_iff _ _ hkernels.nodup _ hlt _ hlt').mp (hget.trans hget'.symm)

/-! ### Proposals -/

/-- Before decisions, the state proposes a reduction of the production, or acceptance for the start
production at the end of input. -/
def Proposes (g : Grammar) (state p : Nat) (t : TokenKind) : Prop :=
  (t.column, if p = 0 ∧ t = .eof then Action.accept else Action.reduce p) ∈
    (GrammarIndex.of g).reductions (stateItems g (followSets g) state)

/-- Some canonical set with the core of the state has the completed production before the
terminal. -/
def CanonicallyCompletes (g : Grammar) (kernel : List Item) (p : Nat) (t : TokenKind) : Prop :=
  ∃ I, g.CanonicalSet I ∧ core I = g.itemsOf kernel ∧ (⟨p, (g.rhsOf p).length⟩, t) ∈ I

theorem proposes_iff_looks (hg : g.WellFormed) {state : Nat}
    (hk : g.itemGraph.kernels[state]? = some kernel) {p : Nat} {t : TokenKind} :
    g.Proposes state p t ↔ g.Looks state ⟨p, (g.rhsOf p).length⟩ t := by
  have heof : ∀ q, (q = 0 ∧ t.column = TokenKind.eof.column) ↔ (q = 0 ∧ t = .eof) :=
    fun q => and_congr_right fun _ => ⟨fun h => TokenKind.column_injective h, congrArg _⟩
  constructor
  · intro h
    obtain ⟨q, hcompleted, haction⟩ := GrammarIndex.completed_of_mem_reductions hg hk h
    simp only [heof] at haction
    have hsame : p = q := by
      split at haction <;> split at haction <;> simp_all
    exact hsame ▸ hcompleted
  · rintro ⟨follow, hitem, hhas⟩
    have hproper := (GrammarIndex.mem_stateItems_spec hg (GrammarIndex.lookaheads_stable hg).1 hk
      hitem).2
    unfold Proposes
    rw [GrammarIndex.reductions_eq, List.mem_flatMap]
    refine ⟨_, Array.mem_toList_iff.mpr hitem, GrammarIndex.mem_proposals.mpr ?_⟩
    exact ⟨Nat.le_refl _, hproper _ hhas, hhas, by simp only [heof]⟩

/-- **Lookaheads are exactly those of the canonical sets.**  For a grammar read from rules whose
nonterminals all derive the empty form or one that begins with a terminal, a state proposes a
reduction before a terminal if and only if some canonical set with the same core has the completed
item with that terminal. -/
theorem lookaheads_are_canonical {rules : List String} {g : Grammar} {tables : Tables}
    (hrules : ofRules rules = .ok g) (htables : Tables.ofGrammar g = .ok tables)
    (hall : g.AllBegin) {state : Nat} {kernel : List Item}
    (hk : g.itemGraph.kernels[state]? = some kernel) (p : Nat) (t : TokenKind) :
    g.Proposes state p t ↔ g.CanonicallyCompletes kernel p t := by
  have hg := wellFormed_of_ofRules hrules (Tables.ofGrammar_eq_ok htables).1
  rw [proposes_iff_looks hg hk]
  constructor
  · rintro ⟨follow, hitem, hhas⟩
    obtain ⟨I, kernel', hI, hk', hcore, hmem⟩ :=
      (followBound_canonicalAt hg hall t).of_mem_stateItems hg hk hitem hhas
    obtain rfl := Option.some.inj (hk.symm.trans hk')
    exact ⟨I, hI, hcore, hmem⟩
  · rintro ⟨I, hI, hcore, hmem⟩
    obtain ⟨state', kernel', hk', hcore', hlooks⟩ := hI.looks hg hall
    have hstate := hg.state_eq_of_itemsOf hk hk' (hcore.symm.trans hcore')
    exact hstate ▸ hlooks _ _ hmem

theorem semicolons_allBegin : semicolons.AllBegin := by
  have hlist : semicolons.CanBegin [.nonterminal 1] .semicolon :=
    ⟨[], derives_rhs (g := semicolons) (p := 1) rfl⟩
  have hgoal : semicolons.CanBegin [.nonterminal 0] .semicolon :=
    .of_derives (derives_rhs (g := semicolons) (p := 0) rfl) hlist
  intro id hid
  change id < 2 at hid
  obtain rfl | rfl : id = 0 ∨ id = 1 := by omega
  · exact .inr ⟨_, hgoal⟩
  · exact .inr ⟨_, hlist⟩

theorem semicolons_proposes : semicolons.Proposes 3 2 .eof := by
  unfold Proposes stateItems followSets
  rw [semicolons_itemGraph]
  decide +kernel

theorem semicolons_lookaheads_canonical :
    ofRules semicolonRules = .ok semicolons ∧ semicolons.AllBegin ∧
      semicolons.itemGraph.kernels[3]? = some [⟨2, 2⟩] ∧
        semicolons.CanonicallyCompletes [⟨2, 2⟩] 2 .eof := by
  have hk : semicolons.itemGraph.kernels[3]? = some [⟨2, 2⟩] := by
    rw [semicolons_itemGraph]
    rfl
  refine ⟨semicolons_ofRules, semicolons_allBegin, hk, ?_⟩
  exact (lookaheads_are_canonical semicolons_ofRules rfl semicolons_allBegin hk 2 .eof).mp
    semicolons_proposes

/-! ### A nonterminal that derives nothing -/

/-- Rules with a nonterminal `U` that derives neither the empty form nor one that begins with a
terminal. -/
def idleRules : List String :=
  ["Goal ::= A", "A ::= B U", "A ::= C ;", "B ::= C ,", "C ::= Identifier", "U ::= U ."]

/-- The grammar of these rules. -/
def idle : Grammar where
  nonterminals := #["Goal", "A", "B", "C", "U"]
  productions := #[⟨0, [.nonterminal 1]⟩, ⟨1, [.nonterminal 2, .nonterminal 4]⟩,
    ⟨1, [.nonterminal 3, .terminal .semicolon]⟩, ⟨2, [.nonterminal 3, .terminal .comma]⟩,
    ⟨3, [.terminal .identifier]⟩, ⟨4, [.nonterminal 4, .terminal .dot]⟩]

theorem idle_ofRules : ofRules idleRules = .ok idle := by decide +kernel

theorem idle_wellFormed : idle.WellFormed := wellFormed_of_ofRules idle_ofRules rfl

/-- Where a name leads from the start, the rule for `C` is completed before a comma: the rule for
`B` is an item of the start, whatever may follow it. -/
theorem idle_proposes : ∃ state kernel, idle.itemGraph.kernels[state]? = some kernel ∧
    idle.ItemOf kernel ⟨4, 1⟩ ∧ idle.Proposes state 4 .comma := by
  have hg := idle_wellFormed
  have hstart := hg.kernels_zero
  have hfits := (GrammarIndex.lookaheads_stable hg).1
  have hA : idle.productions[1]? = some ⟨1, [.nonterminal 2, .nonterminal 4]⟩ := rfl
  have hB : idle.productions[3]? = some ⟨2, [.nonterminal 3, .terminal .comma]⟩ := rfl
  have hC : idle.productions[4]? = some ⟨3, [.terminal .identifier]⟩ := rfl
  have hdropA : (idle.rhsOf 0).drop 0 = [.nonterminal 1] := rfl
  have hdropB : (idle.rhsOf 1).drop 0 = [.nonterminal 2, .nonterminal 4] := rfl
  have hdropC : (idle.rhsOf 3).drop 0 = [.nonterminal 3, .terminal .comma] := rfl
  obtain ⟨_, hgoal, _⟩ := looks_start hg
  obtain ⟨_, hitemA, _⟩ := GrammarIndex.stateItems_hasStart hg hfits hstart hgoal hdropA hA
  obtain ⟨_, hitemB, _⟩ := GrammarIndex.stateItems_hasStart hg hfits hstart hitemA hdropB hB
  obtain ⟨follow, hitemC, hwithin⟩ :=
    GrammarIndex.stateItems_hasStart hg hfits hstart hitemB hdropC hC
  have hlooks : idle.Looks 0 ⟨4, 0⟩ .comma := by
    refine ⟨follow, hitemC, hwithin _ ?_⟩
    simp [FirstSets.ofSymbolsThen, FirstSets.ofSymbols, KindSet.has_ofKind]
  have hitem := (GrammarIndex.mem_stateItems_spec hg hfits hstart hitemC).1
  have hnext : idle.next? ⟨4, 0⟩ = some (.terminal .identifier) := rfl
  obtain ⟨state, hedge⟩ := hg.edge_of_next hstart hitem hnext
  obtain ⟨kernel, hk, hadvance, _⟩ :=
    hg.kernel_of_edge hstart (hg.next_hasSymbol hnext) hedge
  have hkernel : ⟨4, 1⟩ ∈ kernel := (hadvance _).mpr ⟨⟨4, 0⟩, hitem, hnext, rfl⟩
  refine ⟨state, kernel, hk, .kernel hkernel, (proposes_iff_looks hg hk).mpr ?_⟩
  exact looks_advance hg hstart hedge hk hadvance hitem hnext hlooks

/-- Where a nonterminal stands behind a dot. -/
theorem idle_nonterminals {p dot id : Nat} {rest : List Symbol}
    (h : (idle.rhsOf p).drop dot = .nonterminal id :: rest) :
    (p, dot, id, rest) ∈ [(0, 0, 1, []), (1, 0, 2, [.nonterminal 4]), (1, 1, 4, []),
      (2, 0, 3, [.terminal .semicolon]), (3, 0, 3, [.terminal .comma]),
      (5, 0, 4, [.terminal .dot])] := by
  obtain ⟨production, hp, _⟩ := GrammarIndex.exists_production_of_drop (i := ⟨p, dot⟩) h
  have hlt : p < 6 := (Array.getElem?_eq_some_iff.mp hp).1
  obtain rfl | rfl | rfl | rfl | rfl | rfl : p = 0 ∨ p = 1 ∨ p = 2 ∨ p = 3 ∨ p = 4 ∨ p = 5 := by
    omega
  all_goals
    rcases dot with _ | _ | dot <;> simp [rhsOf, idle] at h <;> simp [h]

theorem idle_not_canBegin (a b : TokenKind) : ¬ idle.CanBegin [.nonterminal 4, .terminal a] b := by
  intro h
  have hnullable : idle.firstSets.nullable.getD 4 false = false := by decide +kernel
  have hfirst : idle.firstSets.first.getD 4 0 = 0 := by decide +kernel
  have hhas := idle_wellFormed.has_first_iff.mpr h
  simp [FirstSets.ofSymbols, hnullable, hfirst] at hhas

/-- No canonical set has the rule for `B`, and so the rule for `C` only before a semicolon. -/
def IdleItem (x : Item × TokenKind) : Prop :=
  x.1.production ≠ 3 ∧ (x.1.production = 4 → x.2 = .semicolon)

theorem idleItem_of_inClosure {I : Set (Item × TokenKind)} (hI : ∀ x ∈ I, IdleItem x)
    {x : Item × TokenKind} (hx : idle.InClosure I x) : IdleItem x := by
  induction hx with
  | base hbase => exact hI _ hbase
  | @start i a b p production rest _ hdrop hp hb ih =>
      have hcases := idle_nonterminals hdrop
      refine ⟨fun hthree => ?_, fun hfour => ?_⟩
      · have hlhs : production = ⟨2, [.nonterminal 3, .terminal .comma]⟩ := by
          dsimp only at hthree
          subst hthree
          exact (Option.some.inj hp).symm
        obtain rfl : rest = [.nonterminal 4] := by simp_all
        exact idle_not_canBegin a b hb
      · have hlhs : production = ⟨3, [.terminal .identifier]⟩ := by
          dsimp only at hfour
          subst hfour
          exact (Option.some.inj hp).symm
        have hne : i.production ≠ 3 := ih.1
        obtain rfl : rest = [.terminal .semicolon] := by simp_all
        have hhas := idle_wellFormed.has_first_iff.mpr hb
        rw [List.singleton_append, FirstSets.ofSymbols, KindSet.has_ofKind,
          decide_eq_true_eq] at hhas
        exact (TokenKind.column_injective hhas).symm

theorem idleItem_of_canonicalSet {I : Set (Item × TokenKind)} (h : idle.CanonicalSet I) :
    ∀ x ∈ I, IdleItem x := by
  induction h with
  | start =>
      refine fun x hx => idleItem_of_inClosure (fun y hy => ?_) hx
      rw [Set.mem_singleton_iff.mp hy]
      exact ⟨nofun, nofun⟩
  | goto s _ _ ih =>
      refine fun x hx => idleItem_of_inClosure (fun y hy => ?_) hx
      obtain ⟨i, a, hi, _, rfl⟩ := hy
      have hitem := ih (i, a) hi
      exact hitem

/-- **Lookaheads may be more than those of the canonical sets**, where a nonterminal derives neither
the empty form nor one that begins with a terminal. -/
theorem lookaheads_exceed_canonical :
    ¬ ∀ (rules : List String) (g : Grammar), ofRules rules = .ok g → g.LacksEof →
      ∀ (state : Nat) (kernel : List Item), g.itemGraph.kernels[state]? = some kernel →
        ∀ (p : Nat) (t : TokenKind), g.ItemOf kernel ⟨p, (g.rhsOf p).length⟩ →
          (g.Proposes state p t ↔ g.CanonicallyCompletes kernel p t) := by
  intro hall
  obtain ⟨state, kernel, hk, hitem, hproposes⟩ := idle_proposes
  have hlacks : idle.LacksEof := by
    unfold LacksEof
    decide
  obtain ⟨I, hI, _, hmem⟩ :=
    (hall idleRules idle idle_ofRules hlacks state kernel hk 4 .comma hitem).mp hproposes
  cases (idleItem_of_canonicalSet hI _ hmem).2 rfl

end Grammar

end AspectLang
