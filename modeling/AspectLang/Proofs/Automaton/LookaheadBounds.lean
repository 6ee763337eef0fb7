import AspectLang.Proofs.Automaton.Propagation

/-! # Upper bounds for first sets and lookaheads

What the computed first sets and lookaheads hold is never more than what the productions give rise
to.  For the terminal of one column, `FirstBound` is a guess at the nonterminals that can vanish or
begin with the terminal, and a guess that no production goes beyond bounds the first sets
(`FirstBound.bounds_firstSets`).  `FollowBound` is a guess at the items of each state that the
terminal may follow; one that is kept by the closure of a state and by the edges between states
bounds the lookaheads of the tables (`FollowBound.of_mem_stateItems`). -/

namespace AspectLang

/-! ### First sets -/

/-- A guess at the nonterminals that can vanish, and at those that can begin with the terminal of
a column. -/
structure FirstBound where
  column : Nat
  vanishes : Nat → Bool
  begins : Nat → Bool

namespace FirstBound

variable {b : FirstBound} {f : FirstSets} {g : Grammar}

/-- Whether symbols can vanish. -/
def empties (b : FirstBound) : List Symbol → Bool
  | [] => true
  | .terminal _ :: _ => false
  | .nonterminal id :: rest => b.vanishes id && b.empties rest

/-- Whether symbols can begin with the terminal. -/
def starts (b : FirstBound) : List Symbol → Bool
  | [] => false
  | .terminal k :: _ => k.column == b.column
  | .nonterminal id :: rest => b.begins id || (b.vanishes id && b.starts rest)

/-- Whether a production stays within the guess. -/
def allows (b : FirstBound) (p : Production) : Bool :=
  (!b.empties p.rhs || b.vanishes p.lhs) && (!b.starts p.rhs || b.begins p.lhs)

/-- First sets stay within the guess. -/
structure Bounds (b : FirstBound) (f : FirstSets) : Prop where
  vanishes : ∀ id, f.isNullable id = true → b.vanishes id = true
  begins : ∀ id, (f.firstOf id).has b.column = true → b.begins id = true

theorem Bounds.ofSymbols (h : b.Bounds f) (symbols : List Symbol) :
    ((f.ofSymbols symbols).2 = true → b.empties symbols = true) ∧
      ((f.ofSymbols symbols).1.has b.column = true → b.starts symbols = true) := by
  induction symbols with
  | nil => simp [FirstSets.ofSymbols, empties]
  | cons s rest ih =>
      cases s with
      | terminal k =>
          refine ⟨by simp [FirstSets.ofSymbols], fun hhas => ?_⟩
          have hcolumn : k.column = b.column := by
            simpa [FirstSets.ofSymbols, KindSet.has_ofKind] using hhas
          simp [starts, hcolumn]
      | nonterminal id =>
          have hvanishes := h.vanishes id
          have hbegins := h.begins id
          unfold FirstSets.isNullable at hvanishes
          unfold FirstSets.firstOf at hbegins
          unfold FirstSets.ofSymbols empties starts
          dsimp only
          cases hnullable : f.nullable.getD id false with
          | false =>
              refine ⟨by simp, fun hhas => ?_⟩
              rw [hbegins (by simpa using hhas), Bool.true_or]
          | true =>
              rw [hvanishes hnullable]
              refine ⟨by simpa using ih.1, fun hhas => ?_⟩
              have hcases : KindSet.has (f.first.getD id 0) b.column = true ∨
                  (f.ofSymbols rest).1.has b.column = true := by
                simpa using hhas
              rcases hcases with hown | hmore
              · rw [hbegins hown, Bool.true_or]
              · rw [ih.2 hmore, Bool.true_and, Bool.or_true]

theorem Bounds.addProduction (h : b.Bounds f) {p : Production} (hp : b.allows p = true) :
    b.Bounds (f.addProduction p) := by
  obtain ⟨hempties, hstarts⟩ := h.ofSymbols p.rhs
  unfold allows at hp
  rw [Bool.and_eq_true, Bool.or_eq_true, Bool.or_eq_true] at hp
  refine ⟨fun id hid => ?_, fun id hid => ?_⟩
  · rw [FirstSets.isNullable_addProduction, Bool.or_eq_true, Bool.and_eq_true,
      decide_eq_true_eq] at hid
    rcases hid with hold | ⟨hrhs, rfl, _⟩
    · exact h.vanishes id hold
    · exact hp.1.resolve_left (by simp [hempties hrhs])
  · rw [FirstSets.firstOf_addProduction] at hid
    split at hid
    · rename_i hlhs
      rw [KindSet.has_or, Bool.or_eq_true] at hid
      rcases hid with hold | hrhs
      · exact h.begins id hold
      · rw [← hlhs.1]
        exact hp.2.resolve_left (by simp [hstarts hrhs])
    · exact h.begins id hid

theorem Bounds.saturate {productions : Array Production}
    (hall : ∀ p ∈ productions, b.allows p = true) (fuel : Nat) (h : b.Bounds f) :
    b.Bounds (FirstSets.saturate productions fuel f) := by
  have hfold : ∀ (l : List Production) (f : FirstSets), (∀ p ∈ l, b.allows p = true) →
      b.Bounds f → b.Bounds (l.foldl FirstSets.addProduction f) := by
    intro l
    induction l with
    | nil => exact fun f _ hf => hf
    | cons p l ih =>
        intro f hl hf
        exact ih _ (fun q hq => hl q (List.mem_cons_of_mem p hq))
          (hf.addProduction (hl p List.mem_cons_self))
  induction fuel generalizing f with
  | zero => exact h
  | succ fuel ih =>
      unfold FirstSets.saturate
      dsimp only
      split
      · exact h
      · apply ih
        unfold FirstSets.round
        rw [← Array.foldl_toList]
        exact hfold _ f (fun p hp => hall p (Array.mem_toList_iff.mp hp)) h

/-- **A guess that every production stays within bounds the first sets.** -/
theorem bounds_firstSets (hall : ∀ p ∈ g.productions, b.allows p = true) :
    b.Bounds g.firstSets := by
  refine Bounds.saturate hall _ ⟨fun id hid => ?_, fun id hid => ?_⟩
  · simp [FirstSets.isNullable, Array.getD_eq_getD_getElem?, Array.getElem?_replicate] at hid
    split at hid <;> simp at hid
  · simp [FirstSets.firstOf, Array.getD_eq_getD_getElem?, Array.getElem?_replicate] at hid
    split at hid <;> simp at hid

end FirstBound

namespace GrammarIndex

variable {g : Grammar}

/-! ### Lookaheads -/

/-- A guess at the items of each state that the terminal of a column may follow: the closures of
the states and the edges between them keep within it. -/
structure FollowBound (g : Grammar) (column : Nat) (Q : Nat → Item → Prop) : Prop where
  start : column = TokenKind.eof.column → Q 0 ⟨0, 0⟩
  begin : ∀ (state : Nat) (kernel : List Item) (i : Item) (p : Nat) (production : Production)
    (rest : List Symbol), g.itemGraph.kernels[state]? = some kernel → g.ItemOf kernel i →
      (g.rhsOf i.production).drop i.dot = .nonterminal production.lhs :: rest →
      g.productions[p]? = some production →
      ((g.firstSets.ofSymbols rest).1.has column = true ∨
        (g.firstSets.ofSymbols rest).2 = true ∧ Q state i) → Q state ⟨p, 0⟩
  advance : ∀ (state target : Nat) (kernel : List Item) (i : Item) (s : Symbol),
    g.itemGraph.kernels[state]? = some kernel → g.ItemOf kernel i → Q state i →
      g.next? i = some s → g.itemGraph.edge? state s = some target → Q target i.advance

/-- The sets of kernel items keep within the guess. -/
def SetsWithin (g : Grammar) (column : Nat) (Q : Nat → Item → Prop)
    (sets : Array (List KindSet)) : Prop :=
  ∀ (state place : Nat) (kernel : List Item) (i : Item),
    g.itemGraph.kernels[state]? = some kernel → kernel[place]? = some i →
      (setAt sets state place).has column = true → Q state i

namespace FollowBound

variable {column : Nat} {Q : Nat → Item → Prop} {sets : Array (List KindSet)}
  (hg : g.WellFormed) (h : FollowBound g column Q)

include hg h

theorem of_mem_closure (hf : Fits g sets) (hsets : SetsWithin g column Q sets) {state : Nat}
    {kernel : List Item} (hk : g.itemGraph.kernels[state]? = some kernel) {i : LookaheadItem}
    (hi : i ∈ stateItems g sets state) : i.follow.has column = true → Q state i.item := by
  have hall : ∀ j ∈ stateItems g sets state,
      g.ItemOf kernel j.item ∧ (j.follow.has column = true → Q state j.item) := by
    unfold stateItems
    rw [getD_kernels hk]
    refine forall_mem_closure hg (hf.withFollow_markable hk) ?_ ?_ ?_
    · intro item follow follow' hown hother
      refine ⟨hown.1, fun hhas => ?_⟩
      rw [KindSet.has_or, Bool.or_eq_true] at hhas
      exact hhas.elim hown.2 hother.2
    · intro j id rest hj hdrop p hp
      obtain ⟨production, hproduction, rfl⟩ := Grammar.mem_byLhs hp
      refine ⟨.start hj.1 (next?_of_drop hdrop) hproduction, fun hhas => ?_⟩
      apply h.begin state kernel j.item p production rest hk hj.1 hdrop hproduction
      exact (FirstSets.has_ofSymbolsThen.mp hhas).imp_right (And.imp_right hj.2)
    · intro j hj
      obtain ⟨place, hplace⟩ := List.mem_iff_getElem?.mp hj
      obtain ⟨hitem, hset⟩ := (hf.getElem?_withFollow hk).mp hplace
      refine ⟨.kernel (List.mem_of_getElem? hitem), fun hhas => ?_⟩
      exact hsets state place kernel j.item hk hitem (hset ▸ hhas)
  exact (hall i hi).2

/-- A probe keeps within the guess, and so does what the mark stands for. -/
theorem of_mem_probe {state : Nat} {kernel : List Item}
    (hk : g.itemGraph.kernels[state]? = some kernel) {j : Item} (hj : j ∈ kernel)
    {i : LookaheadItem} (hi : i ∈ probeItems g j) :
    (i.follow.unmarked.has column = true → Q state i.item) ∧
      (i.follow.isMarked = true → Q state j → Q state i.item) := by
  have hall : ∀ i ∈ probeItems g j, g.ItemOf kernel i.item ∧
      (i.follow.unmarked.has column = true → Q state i.item) ∧
        (i.follow.isMarked = true → Q state j → Q state i.item) := by
    refine forall_mem_closure hg (markable_probe j) ?_ ?_ ?_
    · intro item follow follow' hown hother
      refine ⟨hown.1, fun hhas => ?_, fun hmarked => ?_⟩
      · rw [KindSet.has_unmarked, KindSet.has_or, Bool.and_or_distrib_left, Bool.or_eq_true,
          ← KindSet.has_unmarked, ← KindSet.has_unmarked] at hhas
        exact hhas.elim hown.2.1 hother.2.1
      · unfold KindSet.isMarked at hmarked
        rw [KindSet.has_or, Bool.or_eq_true] at hmarked
        exact hmarked.elim hown.2.2 hother.2.2
    · intro i id rest hi hdrop p hp
      obtain ⟨production, hproduction, rfl⟩ := Grammar.mem_byLhs hp
      have hbegin := h.begin state kernel i.item p production rest hk hi.1 hdrop hproduction
      refine ⟨.start hi.1 (next?_of_drop hdrop) hproduction, fun hhas => ?_, fun hmarked hj => ?_⟩
      · rw [KindSet.has_unmarked, Bool.and_eq_true, decide_eq_true_eq,
          FirstSets.has_ofSymbolsThen] at hhas
        obtain ⟨hlt, hhas⟩ := hhas
        exact hbegin (hhas.imp_right (And.imp_right fun htail =>
          hi.2.1 (KindSet.has_unmarked_of_lt htail hlt)))
      · rcases FirstSets.has_ofSymbolsThen.mp hmarked with hown | ⟨hvanishes, htail⟩
        · exact absurd (proper_ofSymbols_of_drop hg hdrop _ hown) (Nat.lt_irrefl _)
        · exact hbegin (.inr ⟨hvanishes, hi.2.2 htail hj⟩)
    · intro i hi
      obtain rfl := List.mem_singleton.mp hi
      refine ⟨.kernel hj, fun hhas => ?_, fun _ hj => hj⟩
      rw [KindSet.has_unmarked, KindSet.has_mark, Bool.and_eq_true, decide_eq_true_eq,
        decide_eq_true_eq] at hhas
      omega
  exact (hall i hi).2

/-- Where what is given keeps within the guess, merging it does. -/
theorem mergeEach {give : Array (List KindSet) → Finding → KindSet} {findings : List Finding}
    (hgive : ∀ f ∈ findings, ∀ sets j i, SetsWithin g column Q sets → Found g f j i →
      (give sets f).has column = true → Q f.state i.item)
    (hsets : SetsWithin g column Q sets) (hfound : ∀ f ∈ findings, ∃ j i, Found g f j i) :
    SetsWithin g column Q (GrammarIndex.mergeEach give findings sets) := by
  induction findings generalizing sets with
  | nil => exact hsets
  | cons f rest ih =>
      obtain ⟨j, i, hfirst⟩ := hfound f List.mem_cons_self
      refine ih (fun other hother => hgive other (List.mem_cons_of_mem f hother))
        (fun state place k item hk hitem hhas => ?_)
        fun other hother => hfound other (List.mem_cons_of_mem f hother)
      rw [setAt_mergeAt] at hhas
      split at hhas
      · rename_i hhere
        obtain ⟨rfl, rfl, _⟩ := hhere
        rw [KindSet.has_or, Bool.or_eq_true] at hhas
        rcases hhas with hold | hgiven
        · exact hsets _ _ k item hk hitem hold
        · obtain ⟨kernel', hk', hadvanced⟩ := hfirst.advanced hg
          rw [hk', Option.some.injEq] at hk
          subst hk
          rw [hadvanced, Option.some.injEq] at hitem
          subst hitem
          obtain ⟨kernel, hkernel, hj⟩ := hfirst.probed
          obtain ⟨s, hnext, hedge⟩ := hfirst.edge
          exact h.advance f.state f.target kernel i.item s hkernel
            (itemOf_probe hg (List.mem_of_getElem? hj) hfirst.mem)
            (hgive f List.mem_cons_self sets j i hsets hfirst hgiven) hnext hedge
      · exact hsets state place k item hk hitem hhas

theorem handOn (hsets : SetsWithin g column Q sets) {links : List Finding}
    (hlinks : ∀ f ∈ links, (∃ j i, Found g f j i) ∧ f.follow.isMarked = true) (fuel : Nat) :
    SetsWithin g column Q (GrammarIndex.handOn links fuel sets) := by
  have hgive : ∀ f ∈ links, ∀ sets j i, SetsWithin g column Q sets → Found g f j i →
      (givenOn sets f).has column = true → Q f.state i.item := by
    intro f hf sets j i hsets hfound hhas
    obtain ⟨kernel, hk, hj⟩ := hfound.probed
    obtain ⟨_, hpass⟩ := of_mem_probe hg h hk (List.mem_of_getElem? hj) hfound.mem
    exact hpass (hfound.follow ▸ (hlinks f hf).2) (hsets f.state f.place kernel j hk hj hhas)
  induction fuel generalizing sets with
  | zero => exact hsets
  | succ fuel ih =>
      have hnext := mergeEach hg h hgive hsets fun f hf => (hlinks f hf).1
      unfold GrammarIndex.handOn
      dsimp only
      split
      · exact hsets
      · exact ih hnext

theorem setsWithin_startSets : SetsWithin g column Q (startSets g.itemGraph) := by
  intro state place kernel i hk hi hhas
  unfold startSets at hhas
  rw [setAt_mergeAt, setAt_none] at hhas
  split at hhas
  · rename_i hhere
    obtain ⟨rfl, rfl, _⟩ := hhere
    rw [hg.kernels_zero, Option.some.injEq] at hk
    subst hk
    obtain rfl : (⟨0, 0⟩ : Item) = i := by simpa using hi
    apply h.start
    simpa [KindSet.has_ofKind, eq_comm] using hhas
  · simp at hhas

theorem setsWithin_followSets : SetsWithin g column Q (followSets g) := by
  have hfindings : ∀ f ∈ (GrammarIndex.of g).findings g.itemGraph, ∃ j i, Found g f j i :=
    fun f hf => mem_findings_iff.mp hf
  have hown : ∀ f ∈ (GrammarIndex.of g).findings g.itemGraph, ∀ sets j i,
      SetsWithin g column Q sets → Found g f j i → f.follow.unmarked.has column = true →
        Q f.state i.item := by
    intro f _ sets j i _ hfound hhas
    obtain ⟨kernel, hk, hj⟩ := hfound.probed
    exact (of_mem_probe hg h hk (List.mem_of_getElem? hj) hfound.mem).1 (hfound.follow ▸ hhas)
  have hmerged := mergeEach hg h hown (setsWithin_startSets hg h) hfindings
  refine handOn hg h hmerged (fun f hf => ?_) _
  obtain ⟨hmem, hmarked⟩ := List.mem_filter.mp hf
  exact ⟨hfindings f hmem, hmarked⟩

/-- **The lookaheads of the tables keep within the guess.** -/
theorem of_mem_stateItems {state : Nat} {kernel : List Item}
    (hk : g.itemGraph.kernels[state]? = some kernel) {i : LookaheadItem}
    (hi : i ∈ stateItems g (followSets g) state) (hhas : i.follow.has column = true) :
    Q state i.item :=
  of_mem_closure hg h (lookaheads_stable hg).1 (setsWithin_followSets hg h) hk hi hhas

end FollowBound

/-! ### Lookaheads by nonterminal -/

/-- Whether a guess at the nonterminals that the terminal may follow has those of a right side. -/
def followsWithin (b : FirstBound) (follows : Nat → Bool) (lhs : Nat) : List Symbol → Bool
  | [] => true
  | .terminal _ :: rest => followsWithin b follows lhs rest
  | .nonterminal id :: rest =>
    (follows id || !(b.starts rest || (b.empties rest && follows lhs))) &&
      followsWithin b follows lhs rest

theorem follows_of_followsWithin {b : FirstBound} {follows : Nat → Bool} {lhs dot id : Nat}
    {symbols rest : List Symbol} (h : followsWithin b follows lhs symbols = true)
    (hdrop : symbols.drop dot = .nonterminal id :: rest)
    (hrest : b.starts rest = true ∨ b.empties rest = true ∧ follows lhs = true) :
    follows id = true := by
  induction symbols generalizing dot with
  | nil => simp at hdrop
  | cons s symbols ih =>
      cases dot with
      | zero =>
          obtain ⟨rfl, rfl⟩ := List.cons.inj hdrop
          unfold followsWithin at h
          rw [Bool.and_eq_true, Bool.or_eq_true] at h
          refine h.1.resolve_right fun hnot => ?_
          rcases hrest with hstarts | ⟨hempties, hlhs⟩
          · simp [hstarts] at hnot
          · simp [hempties, hlhs] at hnot
      | succ dot =>
          refine ih ?_ hdrop
          cases s with
          | terminal k => exact h
          | nonterminal id' => exact (Bool.and_eq_true_iff.mp h).2

theorem exists_production_of_drop {i : Item} {s : Symbol} {rest : List Symbol}
    (hdrop : (g.rhsOf i.production).drop i.dot = s :: rest) :
    ∃ production, g.productions[i.production]? = some production ∧
      production.rhs.drop i.dot = s :: rest := by
  cases hp : g.productions[i.production]? with
  | none => simp [Grammar.rhsOf, hp] at hdrop
  | some production => exact ⟨production, rfl, by rwa [Grammar.rhsOf_eq hp] at hdrop⟩

/-- A guess at the nonterminals that a terminal may follow bounds the lookaheads in every state. -/
theorem followBound_of_follows {b : FirstBound} {follows : Nat → Bool}
    (hbounds : b.Bounds g.firstSets)
    (hstart : b.column = TokenKind.eof.column → follows (g.lhsOf 0) = true)
    (hall : ∀ p ∈ g.productions, followsWithin b follows p.lhs p.rhs = true) :
    FollowBound g b.column fun _ i => follows (g.lhsOf i.production) = true where
  start := hstart
  begin := by
    intro state kernel i p production rest _ _ hdrop hp hrest
    obtain ⟨own, hown, hdrop⟩ := exists_production_of_drop hdrop
    obtain ⟨hempties, hstarts⟩ := hbounds.ofSymbols rest
    rw [Grammar.lhsOf_eq hown] at hrest
    rw [Grammar.lhsOf_eq hp]
    refine follows_of_followsWithin (hall own (Array.mem_of_getElem? hown)) hdrop ?_
    exact hrest.imp hstarts fun hvanishes => ⟨hempties hvanishes.1, hvanishes.2⟩
  advance := fun _ _ _ _ _ _ _ hfollows _ _ => hfollows

end GrammarIndex

end AspectLang
