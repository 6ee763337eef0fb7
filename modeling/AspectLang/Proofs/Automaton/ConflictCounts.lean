import AspectLang.Proofs.Automaton.Completeness
import AspectLang.Proofs.Automaton.CanonicalSets

/-! # What the counted decisions say

Proposals go into a slot one after the other, and none of them is counted exactly when the slot
takes them all (`Action.Quiet`, `placeAll_none_iff`).  A slot with a shift takes nothing, one with
a reduction takes only proposals of the same reduction, and one that holds acceptance takes
everything without a count (`quiet_shiftOf_iff`).  So tables are without decisions if and only if
in each state and before each terminal at most one action is proposed, or acceptance is the first
of the reductions there and no shift is in its way (`conflicts_counted`).  A reduction that is
proposed behind acceptance is not seen by the counts (`acceptance_hides_reduction`). -/

namespace AspectLang

/-! ### Proposals for one slot -/

namespace Action

/-- A slot with an action takes a proposal without a decision. -/
def Takes (held proposed : Action) : Prop :=
  (∀ target, held ≠ .shift target) ∧ ∀ p, held = .reduce p → proposed.number = p

theorem place_none_iff {held proposed : Action} {c : Conflicts} :
    (held.place proposed c).2 = {} ↔ c = {} ∧ held.Takes proposed := by
  unfold Takes
  cases held with
  | error => simp [place]
  | accept => simp [place]
  | shift target => simp [place]
  | reduce p =>
      rw [place_reduce]
      by_cases hp : p = proposed.number
      · simp [hp]
      · simp [hp, Ne.symm hp]

/-- A slot takes all proposals of a list, one after the other. -/
def Quiet : Action → List Action → Prop
  | _, [] => True
  | held, proposed :: l => held.Takes proposed ∧ Quiet (held.place proposed {}).1 l

theorem quiet_shift_iff {target : Nat} {l : List Action} : (shift target).Quiet l ↔ l = [] := by
  cases l with
  | nil => simp [Quiet]
  | cons a l => simp [Quiet, Takes]

theorem quiet_accept (l : List Action) : accept.Quiet l := by
  induction l with
  | nil => trivial
  | cons a l ih => exact ⟨⟨nofun, nofun⟩, ih⟩

theorem quiet_reduce_iff {p : Nat} {l : List Action} :
    (reduce p).Quiet l ↔ ∀ a ∈ l, a.number = p := by
  induction l with
  | nil => simp [Quiet]
  | cons a l ih =>
      have htakes : (reduce p).Takes a ↔ a.number = p := by simp [Takes]
      rw [Quiet, htakes, List.forall_mem_cons]
      refine and_congr_right fun ha => ?_
      rw [place_reduce, if_pos ha.symm]
      exact ih

end Action

namespace GrammarIndex

/-- Filling the actions of a row counts no decision if and only if each slot takes the proposals
for its column. -/
theorem placeAll_none_iff {actions : Array Action} {c : Conflicts} {l : List (Nat × Action)}
    (hl : ∀ x ∈ l, x.1 < actions.size) :
    (placeAll actions c l).2 = {} ↔
      c = {} ∧ ∀ column, (actions.getD column .error).Quiet (forColumn column l) := by
  induction l generalizing actions c with
  | nil => simp [placeAll, forColumn, Action.Quiet]
  | cons x l ih =>
      obtain ⟨column', proposed⟩ := x
      obtain ⟨hlt, hl⟩ := List.forall_mem_cons.mp hl
      unfold placeAll
      dsimp only at hlt ⊢
      rw [ih (by simpa using hl), Action.place_none_iff, and_assoc]
      refine and_congr_right fun _ => ?_
      have hhere : forColumn column' ((column', proposed) :: l) =
          proposed :: forColumn column' l := by simp [forColumn]
      have hset : (actions.setIfInBounds column'
          ((actions.getD column' .error).place proposed c).1).getD column' .error =
            ((actions.getD column' .error).place proposed {}).1 := by
        rw [Array.getD_eq_getD_getElem?, Array.getElem?_setIfInBounds_self_of_lt hlt,
          Option.getD_some]
        exact Action.place_conflicts _ _ _ _
      have hother : ∀ column, column ≠ column' →
          ((actions.setIfInBounds column'
            ((actions.getD column' .error).place proposed c).1).getD column .error).Quiet
              (forColumn column l) =
            (actions.getD column .error).Quiet
              (forColumn column ((column', proposed) :: l)) := by
        intro column hne
        have hkept : forColumn column ((column', proposed) :: l) = forColumn column l := by
          simp [forColumn, Ne.symm hne]
        rw [hkept, Array.getD_eq_getD_getElem?, Array.getElem?_setIfInBounds_ne (Ne.symm hne),
          ← Array.getD_eq_getD_getElem?]
      constructor
      · rintro ⟨htakes, hrest⟩ column
        by_cases hcolumn : column = column'
        · subst hcolumn
          rw [hhere]
          exact ⟨htakes, hset ▸ hrest column⟩
        · exact hother column hcolumn ▸ hrest column
      · intro hall
        have hfirst := hall column'
        rw [hhere] at hfirst
        refine ⟨hfirst.1, fun column => ?_⟩
        by_cases hcolumn : column = column'
        · subst hcolumn
          rw [hset]
          exact hfirst.2
        · exact (hother column hcolumn).symm ▸ hall column

/-- A slot that a shift or nothing stood in takes the proposals of reductions if and only if there
is at most one action, or acceptance comes first and there is no shift. -/
theorem quiet_shiftOf_iff {target? : Option Nat} {l : List Action}
    (hl : ∀ a ∈ l, a = .accept ∨ ∃ q, a = .reduce q)
    (hinj : ∀ a ∈ l, ∀ b ∈ l, a.number = b.number → a = b) :
    (shiftOf target?).Quiet l ↔
      (∀ a b, ((∃ t, target? = some t ∧ a = .shift t) ∨ a ∈ l) →
        ((∃ t, target? = some t ∧ b = .shift t) ∨ b ∈ l) → a = b) ∨
      target? = none ∧ l.head? = some .accept := by
  cases target? with
  | some target =>
      change (Action.shift target).Quiet l ↔ _
      rw [Action.quiet_shift_iff]
      constructor
      · rintro rfl
        simp
      · rintro (hone | ⟨hnone, _⟩)
        · refine List.eq_nil_iff_forall_not_mem.mpr fun a ha => ?_
          have hsame := hone a (.shift target) (.inr ha) (.inl ⟨target, rfl, rfl⟩)
          rcases hl a ha with rfl | ⟨q, rfl⟩ <;> cases hsame
        · cases hnone
  | none =>
      have hnone : ∀ a, ((∃ t, (none : Option Nat) = some t ∧ a = .shift t) ∨ a ∈ l) ↔ a ∈ l := by
        simp
      simp only [hnone, true_and]
      cases l with
      | nil => simp [Action.Quiet]
      | cons a l =>
          have hfree : (shiftOf none).Quiet (a :: l) ↔ a.Quiet l := by
            simp [shiftOf, Action.Quiet, Action.Takes, Action.place]
          rw [hfree]
          rcases hl a List.mem_cons_self with rfl | ⟨q, rfl⟩
          · simp [Action.quiet_accept]
          · rw [Action.quiet_reduce_iff]
            constructor
            · intro hsame
              have hfirst : ∀ b ∈ Action.reduce q :: l, b = .reduce q := by
                intro b hb
                rcases List.mem_cons.mp hb with rfl | hmem
                · rfl
                · exact hinj b hb (.reduce q) List.mem_cons_self (hsame b hmem)
              exact .inl fun b b' hb hb' => (hfirst b hb).trans (hfirst b' hb').symm
            · rintro (hone | hhead)
              · intro b hb
                rw [hone b (.reduce q) (List.mem_cons_of_mem _ hb) List.mem_cons_self]
                rfl
              · cases hhead

/-! ### Rows and tables -/

variable {g : Grammar} {state : Nat} {kernel : List Item}

theorem pushRows_none_iff (states : List Nat) (sofar : Array Row × Conflicts) :
    (states.foldl (pushRow g) sofar).2 = {} ↔
      sofar.2 = {} ∧ ∀ state ∈ states, (rowOf g state).2 = {} := by
  refine ⟨(pushRows_spec states sofar).2, ?_⟩
  rintro ⟨hnone, hall⟩
  induction states generalizing sofar with
  | nil => exact hnone
  | cons state states ih =>
      obtain ⟨hstate, hall⟩ := List.forall_mem_cons.mp hall
      refine ih (pushRow g sofar state) ?_ hall
      unfold pushRow
      rw [hnone]
      exact hstate

/-- Nothing is counted in the tables if and only if nothing is in any row. -/
theorem conflicts_none_iff : (GrammarIndex.of g).tables.stats.conflicts = {} ↔
    ∀ state < g.itemGraph.kernels.size, (rowOf g state).2 = {} := by
  rw [tables_eq.2, pushRows_none_iff]
  simp

/-- The reductions and acceptance that a state proposes before a terminal, in the order of its
items. -/
def proposed (g : Grammar) (state : Nat) (kind : TokenKind) : List Action :=
  forColumn kind.column ((GrammarIndex.of g).reductions (stateItems g (followSets g) state))

section

variable (hg : g.WellFormed) (hk : g.itemGraph.kernels[state]? = some kernel) {kind : TokenKind}

include hg hk

theorem proposed_cases {a : Action} (h : a ∈ proposed g state kind) : ∃ p,
    a = if p = 0 ∧ kind = .eof then .accept else .reduce p := by
  obtain ⟨p, _, haction⟩ := completed_of_mem_reductions hg hk (mem_forColumn.mp h)
  have heof : (p = 0 ∧ kind.column = TokenKind.eof.column) ↔ (p = 0 ∧ kind = .eof) :=
    and_congr_right fun _ => ⟨fun h => TokenKind.column_injective h, congrArg _⟩
  simp only [heof] at haction
  exact ⟨p, haction⟩

theorem mem_proposed_iff {a : Action} : a ∈ proposed g state kind ↔
    ∃ p, g.Proposes state p kind ∧ a = if p = 0 ∧ kind = .eof then .accept else .reduce p := by
  constructor
  · intro h
    obtain ⟨p, rfl⟩ := proposed_cases hg hk h
    exact ⟨p, mem_forColumn.mp h, rfl⟩
  · rintro ⟨p, hp, rfl⟩
    exact mem_forColumn.mpr hp

/-- Proposals for one slot are known by the productions that they count as. -/
theorem proposed_injective {a b : Action} (ha : a ∈ proposed g state kind)
    (hb : b ∈ proposed g state kind) (h : a.number = b.number) : a = b := by
  obtain ⟨p, rfl⟩ := proposed_cases hg hk ha
  obtain ⟨q, rfl⟩ := proposed_cases hg hk hb
  have hnumber : ∀ r, (if r = 0 ∧ kind = .eof then Action.accept else .reduce r).number = r := by
    intro r
    split
    · rename_i hzero
      exact hzero.1.symm
    · rfl
  rw [hnumber, hnumber] at h
  rw [h]

/-- Nothing is counted in the row of a state if and only if each slot takes its proposals. -/
theorem rowOf_none_iff : (rowOf g state).2 = {} ↔ ∀ kind ∈ TokenKind.all,
    (shiftOf (g.itemGraph.edge? state (.terminal kind))).Quiet (proposed g state kind) := by
  have hsize := size_shifts (hg.edgesOf hk).size
  have hbound : ∀ x ∈ (GrammarIndex.of g).reductions (stateItems g (followSets g) state),
      x.1 < (shifts (g.itemGraph.edges.getD state #[])).size := by
    intro x hx
    rw [reductions_eq, List.mem_flatMap] at hx
    obtain ⟨i, _, hx⟩ := hx
    rw [hsize]
    exact (mem_proposals.mp hx).2.1
  have hslots : (rowOf g state).2 = {} ↔ ∀ column,
      ((shifts (g.itemGraph.edges.getD state #[])).getD column .error).Quiet (forColumn column
        ((GrammarIndex.of g).reductions (stateItems g (followSets g) state))) :=
    (placeAll_none_iff hbound).trans (and_iff_right rfl)
  rw [hslots]
  constructor
  · intro hall kind hkind
    have hslot := hall kind.column
    rw [getD_shifts (hg.edgesOf hk).size (Grammar.column_lt_of_mem_all hkind)] at hslot
    exact hslot
  · intro hall column
    by_cases hcolumn : column < TokenKind.columnCount
    · obtain ⟨kind, rfl⟩ : ∃ kind : TokenKind, kind.column = column := by
        have hof : ∀ c < TokenKind.columnCount, (TokenKind.ofNat c).column = c := by decide
        exact ⟨_, hof column hcolumn⟩
      rw [getD_shifts (hg.edgesOf hk).size hcolumn]
      exact hall kind (mem_all_of_column_lt hcolumn)
    · have hempty : forColumn column
          ((GrammarIndex.of g).reductions (stateItems g (followSets g) state)) = [] := by
        refine List.eq_nil_iff_forall_not_mem.mpr fun a ha => hcolumn ?_
        exact hsize ▸ hbound _ (mem_forColumn.mp ha)
      rw [hempty]
      trivial

end

end GrammarIndex

namespace Grammar

open GrammarIndex

/-- What a state proposes to do before a terminal: to shift it, to accept, or to reduce by a
production. -/
inductive Suggests (g : Grammar) (state : Nat) (kind : TokenKind) : Action → Prop
  | shift {target : Nat} (hedge : g.itemGraph.edge? state (.terminal kind) = some target) :
      Suggests g state kind (.shift target)
  | reduction {p : Nat} (hp : g.Proposes state p kind) :
      Suggests g state kind (if p = 0 ∧ kind = .eof then .accept else .reduce p)

/-- At most one action is proposed in a state before a terminal. -/
def AtMostOne (g : Grammar) (state : Nat) (kind : TokenKind) : Prop :=
  ∀ a b, g.Suggests state kind a → g.Suggests state kind b → a = b

/-- Acceptance is proposed in a state before a terminal, ahead of every other reduction and with
no shift. -/
def AcceptsFirst (g : Grammar) (state : Nat) (kind : TokenKind) : Prop :=
  g.itemGraph.edge? state (.terminal kind) = none ∧
    (proposed g state kind).head? = some .accept

/-- **What the counts say.**  For every grammar read from rules, its tables report no decision of
either kind if and only if in every state and before every terminal at most one action is
proposed, or acceptance is the first of the reductions that are. -/
theorem conflicts_counted {rules : List String} {g : Grammar} {t : Tables}
    (hrules : ofRules rules = .ok g) (htables : Tables.ofGrammar g = .ok t) :
    (t.stats.conflicts.shiftReduce = 0 ∧ t.stats.conflicts.reduceReduce = 0) ↔
      ∀ state < g.itemGraph.kernels.size, ∀ kind ∈ TokenKind.all,
        g.AtMostOne state kind ∨ g.AcceptsFirst state kind := by
  obtain ⟨hne, rfl⟩ := Tables.ofGrammar_eq_ok htables
  have hg := wellFormed_of_ofRules hrules hne
  have hcounts : ∀ c : Conflicts, (c.shiftReduce = 0 ∧ c.reduceReduce = 0) ↔ c = {} := by
    rintro ⟨m, n⟩
    simp
  rw [hcounts, conflicts_none_iff]
  refine forall₂_congr fun state hstate => ?_
  have hk := Array.getElem?_eq_getElem hstate
  rw [rowOf_none_iff hg hk]
  refine forall₂_congr fun kind _ => ?_
  have hsuggests : ∀ a, g.Suggests state kind a ↔
      (∃ target, g.itemGraph.edge? state (.terminal kind) = some target ∧ a = .shift target) ∨
        a ∈ proposed g state kind := by
    intro a
    rw [mem_proposed_iff hg hk]
    constructor
    · rintro (hedge | hp)
      · exact .inl ⟨_, hedge, rfl⟩
      · exact .inr ⟨_, hp, rfl⟩
    · rintro (⟨target, hedge, rfl⟩ | ⟨p, hp, rfl⟩)
      · exact .shift hedge
      · exact .reduction hp
  have hreductions : ∀ a ∈ proposed g state kind, a = .accept ∨ ∃ q, a = .reduce q := by
    intro a ha
    obtain ⟨p, rfl⟩ := proposed_cases hg hk ha
    split
    · exact .inl rfl
    · exact .inr ⟨p, rfl⟩
  rw [quiet_shiftOf_iff hreductions fun a ha b hb => proposed_injective hg hk ha hb]
  unfold AtMostOne AcceptsFirst
  simp only [hsuggests]

theorem semicolons_conflicts_counted :
    ofRules semicolonRules = .ok semicolons ∧ semicolons.AtMostOne 3 .eof := by
  have hcounts : (GrammarIndex.of semicolons).tables.stats.conflicts.shiftReduce = 0 ∧
      (GrammarIndex.of semicolons).tables.stats.conflicts.reduceReduce = 0 := by
    rw [semicolons_conflicts]
    exact ⟨rfl, rfl⟩
  have hstate : 3 < semicolons.itemGraph.kernels.size := by
    rw [semicolons_itemGraph]
    decide
  refine ⟨semicolons_ofRules, ?_⟩
  rcases (conflicts_counted semicolons_ofRules rfl).mp hcounts 3 hstate .eof (by decide) with
    hone | ⟨_, hfirst⟩
  · exact hone
  · have hreduce := (GrammarIndex.mem_proposed_iff (wellFormed_of_ofRules semicolons_ofRules rfl)
      (Array.getElem?_eq_getElem hstate)).mp (List.mem_of_head? hfirst)
    obtain ⟨p, hp, haction⟩ := hreduce
    have hzero : p = 0 := by
      by_contra hne
      simp [hne] at haction
    have hnone : ¬ semicolons.Proposes 3 0 .eof := by
      unfold Proposes stateItems followSets
      rw [semicolons_itemGraph]
      decide +kernel
    exact absurd (hzero ▸ hp) hnone

/-! ### A reduction behind acceptance -/

/-- Rules with a list that is derived from itself. -/
def idleListRules : List String := ["Goal ::= List", "List ::= ;", "List ::= List"]

/-- The grammar of these rules. -/
def idleList : Grammar where
  nonterminals := #["Goal", "List"]
  productions := #[⟨0, [.nonterminal 1]⟩, ⟨1, [.terminal .semicolon]⟩, ⟨1, [.nonterminal 1]⟩]

theorem idleList_ofRules : ofRules idleListRules = .ok idleList := by decide +kernel

/-- The three states of the grammar of these rules. -/
def idleListGraph : ItemGraph :=
  let blank := Array.replicate idleList.edgeWidth none
  { kernels := #[[⟨0, 0⟩], [⟨1, 1⟩], [⟨0, 1⟩, ⟨2, 1⟩]]
    edges := #[
      (blank.setIfInBounds (Symbol.terminal .semicolon).key (some 1)).setIfInBounds
        (Symbol.nonterminal 1).key (some 2),
      blank,
      blank] }

set_option maxRecDepth 10000 in
theorem idleList_itemGraph : idleList.itemGraph = idleListGraph := by cbv

theorem idleList_conflicts : (GrammarIndex.of idleList).tables.stats.conflicts = {} := by
  have hgraph : (GrammarIndex.of idleList).grammar.itemGraph = idleListGraph := idleList_itemGraph
  unfold GrammarIndex.tables
  dsimp only
  rw [hgraph]
  decide +kernel

theorem idleList_proposes : idleList.Proposes 2 0 .eof ∧ idleList.Proposes 2 2 .eof := by
  unfold Proposes stateItems followSets
  rw [idleList_itemGraph]
  decide +kernel

/-- **Acceptance hides a reduction from the counts**: behind a list, the end of input is accepted,
and the list could be reduced to itself as well. -/
theorem acceptance_hides_reduction :
    ¬ ∀ (rules : List String) (g : Grammar) (t : Tables), ofRules rules = .ok g →
      Tables.ofGrammar g = .ok t →
        ((t.stats.conflicts.shiftReduce = 0 ∧ t.stats.conflicts.reduceReduce = 0) ↔
          ∀ state < g.itemGraph.kernels.size, ∀ kind ∈ TokenKind.all, g.AtMostOne state kind) := by
  intro hall
  have hcounts : (GrammarIndex.of idleList).tables.stats.conflicts.shiftReduce = 0 ∧
      (GrammarIndex.of idleList).tables.stats.conflicts.reduceReduce = 0 := by
    rw [idleList_conflicts]
    exact ⟨rfl, rfl⟩
  have hstate : 2 < idleList.itemGraph.kernels.size := by
    rw [idleList_itemGraph]
    decide
  have hone := (hall idleListRules idleList _ idleList_ofRules rfl).mp hcounts 2 hstate .eof
    (by decide)
  obtain ⟨haccept, hreduce⟩ := idleList_proposes
  cases hone _ _ (.reduction haccept) (.reduction hreduce)

end Grammar

end AspectLang
