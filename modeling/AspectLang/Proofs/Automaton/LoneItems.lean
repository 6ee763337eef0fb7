import AspectLang.Proofs.Automaton.CanonicalSets

/-! # Items that are alone in their states

States are known by their cores, so an item that shares no state with another one is found in a
single state.  Whatever terminal some way through the automaton sees after the item (`Sees`), that
one state looks for (`IsLone.looks`).  If the item has its dot at the end, its production is then
what the state acts by, and nothing else ever is (`IsLone.action_of_sees`,
`IsOnly.eq_of_completed`).

What is seen after a production is seen after all productions of its last symbol, so sets of
nonterminals closed under last symbols say which terminals are seen (`seesAfter_corners`); and
which items are alone is found by going back from each as in `apart` (`isLone_of_endsAlone`).  No
table is computed for either. -/

namespace AspectLang

namespace Grammar

open GrammarIndex

variable {g : Grammar} {kernel : List Item} {state p : Nat} {t : TokenKind} {i : Item}

/-- A production with its dot at the end. -/
def ended (g : Grammar) (p : Nat) : Item := ⟨p, (g.rhsOf p).length⟩

theorem next?_ended (p : Nat) : g.next? (g.ended p) = none :=
  List.getElem?_eq_none (Nat.le_refl _)

/-! ### Terminals that are seen -/

/-- Some state looks for the terminal after the item. -/
def Sees (g : Grammar) (i : Item) (t : TokenKind) : Prop :=
  ∃ state kernel, g.itemGraph.kernels[state]? = some kernel ∧ g.Looks state i t

section

variable (hg : g.WellFormed)

include hg

theorem itemOf_of_looks (hk : g.itemGraph.kernels[state]? = some kernel) (h : g.Looks state i t) :
    g.ItemOf kernel i := by
  obtain ⟨follow, hi, _⟩ := h
  exact (mem_stateItems_spec hg (lookaheads_stable hg).1 hk hi).1

theorem sees_start : g.Sees ⟨0, 0⟩ .eof := ⟨0, _, hg.kernels_zero, looks_start hg⟩

theorem Sees.advance {s : Symbol} (h : g.Sees i t) (hs : g.next? i = some s) :
    g.Sees i.advance t := by
  obtain ⟨state, kernel, hk, hlooks⟩ := h
  have hi := itemOf_of_looks hg hk hlooks
  obtain ⟨target, hedge⟩ := hg.edge_of_next hk hi hs
  obtain ⟨next, htarget, hnext, _⟩ := hg.kernel_of_edge hk (hg.next_hasSymbol hs) hedge
  exact ⟨target, next, htarget, looks_advance hg hk hedge htarget hnext hi hs hlooks⟩

/-- What is seen after a production is seen wherever its dot stands. -/
theorem Sees.moved {dot : Nat} (h : g.Sees ⟨p, 0⟩ t) (hle : dot ≤ (g.rhsOf p).length) :
    g.Sees ⟨p, dot⟩ t := by
  induction dot with
  | zero => exact h
  | succ dot ih => exact (ih (Nat.le_of_succ_le hle)).advance hg (List.getElem?_eq_getElem hle)

/-- What can begin after a nonterminal is seen after its productions. -/
theorem Sees.begin {a : TokenKind} {production : Production} {rest : List Symbol}
    (h : g.Sees i a)
    (hdrop : (g.rhsOf i.production).drop i.dot = .nonterminal production.lhs :: rest)
    (hp : g.productions[p]? = some production) (ht : g.CanBegin (rest ++ [.terminal a]) t) :
    g.Sees ⟨p, 0⟩ t := by
  obtain ⟨state, kernel, hk, hlooks⟩ := h
  have hI : ∀ j b, (j, b) ∈ ({(i, a)} : Set (Item × TokenKind)) → g.Looks state j b := by
    intro j b hj
    obtain ⟨rfl, rfl⟩ := Prod.mk.inj hj
    exact hlooks
  exact ⟨state, kernel, hk, looks_of_inClosure hg hk hI (.start (.base rfl) hdrop hp ht)⟩

end

/-! ### Last symbols -/

/-- Some state looks for the terminal after each production of a nonterminal. -/
def SeesAfter (g : Grammar) (t : TokenKind) (id : Nat) : Prop :=
  ∀ (p : Nat) (production : Production), g.productions[p]? = some production →
    production.lhs = id → g.Sees ⟨p, 0⟩ t

/-- The productions that end with a nonterminal: the left side, and the nonterminal. -/
def trails (productions : List Production) : List (Nat × Nat) :=
  productions.filterMap fun p =>
    match p.rhs.getLast? with
    | some (.nonterminal id) => some (p.lhs, id)
    | _ => none

theorem exists_of_mem_trails {x : Nat × Nat} (h : x ∈ trails g.productions.toList) :
    ∃ (p : Nat) (production : Production) (front : List Symbol),
      g.productions[p]? = some production ∧ production.lhs = x.1 ∧
        production.rhs = front ++ [.nonterminal x.2] := by
  obtain ⟨production, hmem, hlast⟩ := List.mem_filterMap.mp h
  split at hlast
  · rename_i id hid
    obtain rfl := Option.some.inj hlast
    obtain ⟨front, hfront⟩ := List.getLast?_eq_some_iff.mp hid
    obtain ⟨p, hp⟩ := Array.mem_iff_getElem?.mp (Array.mem_toList_iff.mp hmem)
    exact ⟨p, production, front, hp, rfl, hfront⟩
  · cases hlast

section

variable (hg : g.WellFormed)

include hg

theorem SeesAfter.trail {x : Nat × Nat} (h : g.SeesAfter t x.1)
    (hx : x ∈ trails g.productions.toList) : g.SeesAfter t x.2 := by
  intro q produced hq hlhs
  obtain ⟨p, production, front, hp, hleft, hrhs⟩ := exists_of_mem_trails hx
  have hright := (rhsOf_eq hp).trans hrhs
  have hlast : g.Sees ⟨p, front.length⟩ t := by
    refine (h p production hp hleft).moved hg ?_
    rw [hright, List.length_append]
    exact Nat.le_add_right _ _
  have hdrop : (g.rhsOf p).drop front.length = [.nonterminal produced.lhs] := by
    rw [hright, List.drop_left, hlhs]
  exact hlast.begin hg hdrop hq (canBegin_terminal _ _)

theorem seesAfter_widen {pairs : List (Nat × Nat)} {ids : Nat}
    (hpairs : ∀ x ∈ pairs, x ∈ trails g.productions.toList)
    (h : ∀ id, ids.testBit id = true → g.SeesAfter t id) :
    ∀ id, (widen pairs ids).testBit id = true → g.SeesAfter t id := by
  induction pairs generalizing ids with
  | nil => exact h
  | cons x pairs ih =>
      have hrest := fun y hy => hpairs y (List.mem_cons_of_mem x hy)
      rw [widen, Bool.cond_eq_ite, hasBit_eq]
      split
      · rename_i hbit
        refine ih hrest fun id hid => ?_
        rw [Nat.testBit_or, Bool.or_eq_true, Nat.one_shiftLeft, Nat.testBit_two_pow,
          decide_eq_true_eq] at hid
        rcases hid with hold | rfl
        · exact h id hold
        · exact (h _ hbit).trail hg (hpairs x List.mem_cons_self)
      · exact ih hrest h

/-- What is seen after a nonterminal is seen after all that it can end with. -/
theorem seesAfter_corners {start : Nat} (h : g.SeesAfter t start) (rounds : Nat) :
    ∀ id, (corners (trails g.productions.toList) start rounds).testBit id = true →
      g.SeesAfter t id := by
  induction rounds with
  | zero =>
      intro id hid
      unfold corners at hid
      rw [Nat.one_shiftLeft, Nat.testBit_two_pow, decide_eq_true_eq] at hid
      exact hid ▸ h
  | succ rounds ih =>
      refine seesAfter_widen hg (fun x hx => List.mem_reverse.mp hx) ?_
      exact seesAfter_widen hg (fun x hx => hx) ih

end

/-! ### Lone items -/

/-- The item is the only one of a state. -/
def IsOnly (g : Grammar) (kernel : List Item) (i : Item) : Prop := ∀ j, g.ItemOf kernel j → j = i

/-- The item is the only one in every state that has it. -/
def IsLone (g : Grammar) (i : Item) : Prop :=
  ∀ kernel, g.Reached kernel → g.ItemOf kernel i → g.IsOnly kernel i

section

variable (hg : g.WellFormed) (hk : g.itemGraph.kernels[state]? = some kernel)

include hg hk

/-- **The state of a lone item looks for all that is seen after the item.** -/
theorem IsLone.looks (h : g.IsLone i) (hi : g.ItemOf kernel i) (hsees : g.Sees i t) :
    g.Looks state i t := by
  obtain ⟨state', kernel', hk', hlooks⟩ := hsees
  have hi' := itemOf_of_looks hg hk' hlooks
  have hsame : g.itemsOf kernel = g.itemsOf kernel' := by
    ext j
    constructor
    · intro hj
      rw [h kernel (hg.reached hk) hi j hj]
      exact hi'
    · intro hj
      rw [h kernel' (hg.reached hk') hi' j hj]
      exact hi
  rw [hg.state_eq_of_itemsOf hk hk' hsame]
  exact hlooks

/-- A state with one item completes no production but that of the item. -/
theorem IsOnly.eq_of_completed {q : Nat} (h : g.IsOnly kernel (g.ended p))
    (hq : Completed g state q t) : q = p :=
  congrArg Item.production (h _ (itemOf_of_looks hg hk hq))

/-- No edge leads on from a single item with its dot at the end. -/
theorem IsOnly.edge_eq_none (h : g.IsOnly kernel (g.ended p)) {s : Symbol} (hs : g.HasSymbol s) :
    g.itemGraph.edge? state s = none := by
  cases hedge : g.itemGraph.edge? state s with
  | none => rfl
  | some target =>
      obtain ⟨_, _, _, j, hj, hnext⟩ := hg.kernel_of_edge hk hs hedge
      rw [h j hj, next?_ended] at hnext
      cases hnext

end

/-- Equal proposals for a free slot settle it. -/
theorem settle_eq_of_forall {a : Action} (ha : (a.place a {}).1 = a) {l : List Action}
    (hl : ∀ b ∈ l, b = a) : settle a l = a := by
  induction l with
  | nil => rfl
  | cons b l ih =>
      obtain ⟨rfl, hl⟩ := List.forall_mem_cons.mp hl
      change settle (b.place b {}).1 l = b
      rw [ha]
      exact ih hl

section

variable (hg : g.WellFormed) (hstart : g.StartIsolated)
  (hk : g.itemGraph.kernels[state]? = some kernel)

include hg hstart hk

/-- **A state that completes a single production before a terminal acts by it**, unless the terminal
leads on. -/
theorem action_of_sole (hfree : g.itemGraph.edge? state (.terminal t) = none)
    (hsole : ∀ q, Completed g state q t → q = p) (ht : t ∈ TokenKind.all)
    (hlooks : g.Looks state (g.ended p) t) : (GrammarIndex.of g).tables.action state t =
      if p = 0 ∧ t = .eof then .accept else .reduce p := by
  generalize haction : (if p = 0 ∧ t = .eof then Action.accept else .reduce p) = a
  have hproposed : (t.column, a) ∈
      (GrammarIndex.of g).reductions (stateItems g (followSets g) state) := by
    have hproposes := (proposes_iff_looks hg hk).mpr hlooks
    unfold Proposes at hproposes
    rwa [haction] at hproposes
  have hsame : ∀ b ∈ forColumn t.column
      ((GrammarIndex.of g).reductions (stateItems g (followSets g) state)), b = a := by
    intro b hb
    obtain ⟨q, hcompleted, hb⟩ := completed_of_mem_reductions hg hk (mem_forColumn.mp hb)
    obtain rfl := hsole q hcompleted
    have heof : t.column = TokenKind.eof.column ↔ t = .eof :=
      ⟨fun hsame => TokenKind.column_injective hsame, fun hsame => hsame ▸ rfl⟩
    simp only [heof] at hb
    exact hb.trans haction
  have hplace : (a.place a {}).1 = a := by
    rcases reductions_proposed hg hstart hk hproposed with haccept | ⟨q, hreduce, _⟩
    · rw [show a = .accept from haccept]
      rfl
    · rw [show a = .reduce q from hreduce]
      simp [Action.place_reduce, Action.number]
  rw [action_eq_settle hg hk (column_lt_of_mem_all ht), hfree]
  have hmem := mem_forColumn.mpr hproposed
  generalize forColumn t.column _ = l at hsame hmem
  cases l with
  | nil => cases hmem
  | cons b l =>
      obtain ⟨rfl, hl⟩ := List.forall_mem_cons.mp hsame
      exact settle_eq_of_forall hplace hl

/-- A state with one completed item acts by it before every terminal that it looks for. -/
theorem IsOnly.action_of_looks (h : g.IsOnly kernel (g.ended p)) (ht : t ∈ TokenKind.all)
    (hlooks : g.Looks state (g.ended p) t) : (GrammarIndex.of g).tables.action state t =
      if p = 0 ∧ t = .eof then .accept else .reduce p :=
  action_of_sole hg hstart hk (h.edge_eq_none hg hk ht)
    (fun _ hq => h.eq_of_completed hg hk hq) ht hlooks

/-- Before a terminal that does not lead on and completes nothing there is no action. -/
theorem action_of_none (hfree : g.itemGraph.edge? state (.terminal t) = none)
    (hnone : ∀ q, ¬ Completed g state q t) :
    (GrammarIndex.of g).tables.action state t = .error := by
  by_contra haction
  obtain ⟨_, ⟨target, hedge, _⟩ | hmem⟩ := action_cases hg hstart hk haction
  · rw [hfree] at hedge
    cases hedge
  · obtain ⟨q, hcompleted, _⟩ := completed_of_mem_reductions hg hk hmem
    exact hnone q hcompleted

/-- Before a terminal that it does not look for, a state with one completed item has no action. -/
theorem IsOnly.action_of_not_looks (h : g.IsOnly kernel (g.ended p)) (ht : t ∈ TokenKind.all)
    (hnot : ¬ g.Looks state (g.ended p) t) :
    (GrammarIndex.of g).tables.action state t = .error := by
  refine action_of_none hg hstart hk (h.edge_eq_none hg hk ht) fun q hq => hnot ?_
  obtain rfl := h.eq_of_completed hg hk hq
  exact hq

/-- **A state with a lone item acts by it** before every terminal that is seen after the item. -/
theorem IsLone.action_of_sees (h : g.IsLone (g.ended p)) (hi : g.ItemOf kernel (g.ended p))
    (ht : t ∈ TokenKind.all) (hsees : g.Sees (g.ended p) t) :
    (GrammarIndex.of g).tables.action state t =
      if p = 0 ∧ t = .eof then .accept else .reduce p :=
  (h kernel (hg.reached hk) hi).action_of_looks hg hstart hk ht (h.looks hg hk hi hsees)

end

/-! ### Finding lone items -/

/-- The productions with a dot behind a symbol, and their numbers. -/
def movedOver (productions : List Production) (s : Symbol) : List (Nat × Dotted) :=
  (productions.zipIdx.flatMap fun (p, number) => p.moves.map (number, ·)).filter
    fun x => x.2.before.head?.any (·.key == s.key)

/-- Whether a production with its dot at the end is apart from all others with a dot behind the
same symbol. -/
def endsAlone (onsets : List Onset) (steps : Nat) (productions : List Production) (number : Nat)
    (p : Production) : Bool :=
  match p.rhs.getLast? with
  | none => false
  | some s => (movedOver productions s).all fun x => (x.1 == number && x.2.after.isEmpty) ||
    apart onsets steps (.moved (p.dotted p.rhs.length)) (.moved x.2)

theorem mem_movedOver {production : Production} {dot : Nat} {s : Symbol}
    (hp : g.productions[p]? = some production) (hs : production.rhs[dot]? = some s) :
    (p, production.dotted (dot + 1)) ∈ movedOver g.productions.toList s := by
  have hle : dot + 1 ≤ production.rhs.length := (List.getElem?_eq_some_iff.mp hs).1
  refine List.mem_filter.mpr ⟨List.mem_flatMap.mpr ⟨(production, p), ?_, ?_⟩, ?_⟩
  · rw [List.mk_mem_zipIdx_iff_getElem?, Array.getElem?_toList]
    exact hp
  · exact List.mem_map_of_mem (production.dotted_mem_moves (Nat.succ_pos dot) hle)
  · have hhead : (production.dotted (dot + 1)).before.head? = some s := by
      unfold Production.dotted
      rw [List.take_add_one, hs, Option.toList_some, List.reverse_concat, List.head?_cons]
    simp [hhead]

/-- The items of a kernel, but for the start, have their dots behind one symbol. -/
theorem Reached.exists_symbol (h : g.Reached kernel) (hstart : kernel ≠ [⟨0, 0⟩]) :
    ∃ s, ∀ i ∈ kernel, ∃ production dot, g.productions[i.production]? = some production ∧
      i.dot = dot + 1 ∧ production.rhs[dot]? = some s := by
  cases h with
  | start => contradiction
  | @step _ _ s _ hnext =>
      refine ⟨s, fun i hi => ?_⟩
      obtain ⟨j, _, hs, rfl⟩ := (hnext i).mp hi
      obtain ⟨production, hp, hs⟩ := exists_production_of_next? hs
      exact ⟨production, j.dot, hp, rfl, hs⟩

/-- **What ends alone is a lone item.** -/
theorem isLone_of_endsAlone {onsets : List Onset} (honsets : ∀ o ∈ onsets, o.Covers g)
    {steps : Nat} {production : Production} (hp : g.productions[p]? = some production)
    (h : endsAlone onsets steps g.productions.toList p production = true) :
    g.IsLone (g.ended p) := by
  unfold endsAlone at h
  split at h
  · cases h
  · rename_i last hlast
    have hend : (g.ended p).dot = production.rhs.length := congrArg List.length (rhsOf_eq hp)
    have hpos : 0 < production.rhs.length :=
      List.length_pos_iff.mpr fun hnil => by simp [hnil] at hlast
    intro kernel hk hi j hj
    have hmem : g.ended p ∈ kernel := mem_of_itemOf hi (hend ▸ hpos.ne')
    have hmoved : g.Moved kernel (production.dotted production.rhs.length) :=
      ⟨g.ended p, hmem, hend ▸ hpos, production, hp, by rw [hend]⟩
    obtain ⟨s, hbehind⟩ := hk.exists_symbol fun hstart => not_moved_start (hstart ▸ hmoved)
    have hs : last = s := by
      obtain ⟨own, dot, hown, hdot, hs⟩ := hbehind _ hmem
      obtain rfl : production = own := Option.some.inj (hp.symm.trans hown)
      rw [List.getLast?_eq_getElem?, ← hend, hdot, Nat.add_sub_cancel, hs] at hlast
      exact (Option.some.inj hlast).symm
    subst hs
    induction hj with
    | @kernel j hj =>
        obtain ⟨own, dot, hown, hdot, hs⟩ := hbehind j hj
        rcases Bool.or_eq_true_iff.mp (List.all_eq_true.mp h _ (mem_movedOver hown hs)) with
          hsame | hapart
        · -- the same production with its dot at the end
          simp only [Bool.and_eq_true, beq_iff_eq, List.isEmpty_iff] at hsame
          obtain ⟨hnumber, hafter⟩ := hsame
          rw [hnumber, hp, Option.some.injEq] at hown
          subst hown
          have hle : production.rhs.length ≤ dot + 1 := List.drop_eq_nil_iff.mp hafter
          have hlt : dot < production.rhs.length := (List.getElem?_eq_some_iff.mp hs).1
          obtain ⟨number, moved⟩ := j
          obtain rfl : number = p := hnumber
          exact congrArg (Item.mk number) (hdot.trans ((Nat.le_antisymm hlt hle).trans hend.symm))
        · have hother : g.Moved kernel (own.dotted (dot + 1)) :=
            ⟨j, hj, hdot ▸ Nat.succ_pos dot, own, hown, by rw [hdot]⟩
          exact (not_shared_of_apart honsets hapart hk hmoved hother).elim
    | start _ hnext _ ih =>
        rw [ih, next?_ended] at hnext
        cases hnext

end Grammar

end AspectLang
