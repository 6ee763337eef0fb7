import AspectLang.Proofs.Automaton.ItemGraph

/-! # Items that share no state

Which two items can stand in one state is found out by going back along the edges that lead to
it.  All items whose dot has moved have the same symbol before it, and come from the items before
that symbol in one earlier state; an item with its dot in front stands where a moved item expects
a nonterminal that its left side can begin (`Onset`).  `apart` follows two items back until they
would need different symbols or different states, and then no kernel that can be reached holds
both (`not_shared_of_apart`).  No table is computed: the search only looks at productions. -/

namespace AspectLang

namespace Grammar

variable {g : Grammar} {kernel : List Item}

/-- The symbol after a dot is one of the production. -/
theorem exists_production_of_next? {i : Item} {s : Symbol} (h : g.next? i = some s) :
    ∃ production, g.productions[i.production]? = some production ∧
      production.rhs[i.dot]? = some s := by
  unfold next? at h
  cases hp : g.productions[i.production]? with
  | none => simp [rhsOf, hp] at h
  | some production => exact ⟨production, rfl, by rwa [rhsOf_eq hp] at h⟩

/-! ### Kernels that can be reached -/

/-- The kernels that edges lead to from the start. -/
inductive Reached (g : Grammar) : List Item → Prop
  | start : Reached g [⟨0, 0⟩]
  | step {kernel next : List Item} {s : Symbol} : Reached g kernel →
      (∀ j, j ∈ next ↔ ∃ i, g.ItemOf kernel i ∧ g.next? i = some s ∧ i.advance = j) →
        Reached g next

theorem mem_internKernel {kernels : Array (List Item)} {k : List Item}
    (h : k ∈ (internKernel kernels kernel).2) : k ∈ kernels ∨ k = kernel := by
  unfold internKernel at h
  split at h
  · exact .inl h
  · exact Array.mem_push.mp h

theorem mem_addEdges {items : List Item} {symbols : List Symbol} {kernels : Array (List Item)}
    {row : Array (Option Nat)} {k : List Item}
    (h : k ∈ (g.addEdges items symbols kernels row).1) :
    k ∈ kernels ∨ ∃ s, k = g.successor items s := by
  induction symbols generalizing kernels row with
  | nil => exact .inl h
  | cons s symbols ih =>
      unfold addEdges at h
      rcases ih h with hfound | hnew
      · rcases mem_internKernel hfound with hold | rfl
        · exact .inl hold
        · exact .inr ⟨s, rfl⟩
      · exact .inr hnew

theorem WellFormed.reached_explore (hg : g.WellFormed) {graph : ItemGraph} {fuel state : Nat}
    (h : ∀ k ∈ graph.kernels, g.Reached k) :
    ∀ k ∈ (g.explore g.byLhs fuel state graph).kernels, g.Reached k := by
  induction fuel generalizing graph state with
  | zero => exact h
  | succ fuel ih =>
      unfold explore
      cases hkernel : graph.kernels[state]? with
      | none => exact h
      | some found =>
          refine ih fun k hk => ?_
          rcases mem_addEdges hk with hold | ⟨s, rfl⟩
          · exact h k hold
          · refine .step (s := s) (h found (Array.mem_of_getElem? hkernel)) fun j => ?_
            simp only [mem_successor, hg.mem_closure_iff]

/-- Every kernel of the item graph can be reached. -/
theorem WellFormed.reached (hg : g.WellFormed) {state : Nat}
    (h : g.itemGraph.kernels[state]? = some kernel) : g.Reached kernel := by
  refine hg.reached_explore (fun k hk => ?_) kernel (Array.mem_of_getElem? h)
  obtain rfl : k = [⟨0, 0⟩] := by simpa using hk
  exact .start

/-- Only the start has an item in its kernel whose dot stands in front. -/
theorem Reached.eq_start (h : g.Reached kernel) {i : Item} (hi : i ∈ kernel) (hdot : i.dot = 0) :
    kernel = [⟨0, 0⟩] ∧ i = ⟨0, 0⟩ := by
  cases h with
  | start => exact ⟨rfl, by simpa using hi⟩
  | step _ hnext =>
      obtain ⟨j, _, _, rfl⟩ := (hnext i).mp hi
      cases hdot

end Grammar

/-! ### Tests that compute at once -/

/-- Whether a bit is set: `Nat.testBit`, without instances on the way. -/
def hasBit (n place : Nat) : Bool := Nat.ble 1 (Nat.land 1 (Nat.shiftRight n place))

@[simp] theorem hasBit_eq (n place : Nat) : hasBit n place = n.testBit place := by
  change Nat.ble 1 (1 &&& n >>> place) = ((1 &&& n >>> place) != 0)
  cases 1 &&& n >>> place <;> rfl

/-- Whether two numbers differ. -/
def differ (m n : Nat) : Bool := !Nat.beq m n

@[simp] theorem differ_eq (m n : Nat) : differ m n = (m != n) := by
  unfold differ bne
  congr 1
  exact Bool.eq_iff_iff.mpr (by rw [Nat.beq_eq, beq_iff_eq])

/-! ### Productions with a dot -/

/-- A production with a dot: the symbols before the dot, the last one first, and those after. -/
structure Dotted where
  lhs : Nat
  before : List Symbol
  after : List Symbol

/-- What a state can hold: an item whose dot has moved, or items with the dot in front for a
nonterminal. -/
inductive Spot where
  | moved (d : Dotted)
  | due (id : Nat)

namespace Dotted

/-- Where a production with a dot is found in a state. -/
def spot (d : Dotted) : Spot := if d.before.isEmpty then .due d.lhs else .moved d

/-- The symbol before the dot, and the production with the dot moved back over it. -/
def back? (d : Dotted) : Option (Symbol × Dotted) :=
  match d.before with
  | [] => none
  | s :: before => some (s, ⟨d.lhs, before, s :: d.after⟩)

/-- A right side with its dot moved on, over one symbol and more. -/
def moves (lhs : Nat) : (before after : List Symbol) → List Dotted
  | _, [] => []
  | before, s :: rest => ⟨lhs, s :: before, rest⟩ :: moves lhs (s :: before) rest

theorem mem_moves (lhs : Nat) (before after : List Symbol) {n : Nat} (hn : n < after.length) :
    ⟨lhs, (after.take (n + 1)).reverse ++ before, after.drop (n + 1)⟩ ∈
      moves lhs before after := by
  induction after generalizing before n with
  | nil => cases hn
  | cons s rest ih =>
      unfold moves
      cases n with
      | zero => simp
      | succ n =>
          have hrest : n < rest.length := by simpa using hn
          have hmem := ih (s :: before) hrest
          refine List.mem_cons_of_mem _ ?_
          simpa using hmem

end Dotted

namespace Production

/-- A production with a dot after so many symbols. -/
def dotted (p : Production) (dot : Nat) : Dotted :=
  ⟨p.lhs, (p.rhs.take dot).reverse, p.rhs.drop dot⟩

/-- A production with its dot moved, in all ways. -/
def moves (p : Production) : List Dotted := Dotted.moves p.lhs [] p.rhs

theorem dotted_mem_moves (p : Production) {dot : Nat} (hpos : 0 < dot)
    (hle : dot ≤ p.rhs.length) : p.dotted dot ∈ p.moves := by
  obtain ⟨n, rfl⟩ : ∃ n, dot = n + 1 := ⟨dot - 1, by omega⟩
  have hmem := Dotted.mem_moves p.lhs [] p.rhs (n := n) (by omega)
  rwa [List.append_nil] at hmem

/-- A production with its dot anywhere. -/
def dots (p : Production) : List Dotted := p.dotted 0 :: p.moves

theorem dotted_mem_dots (p : Production) {dot : Nat} (hle : dot ≤ p.rhs.length) :
    p.dotted dot ∈ p.dots := by
  rcases Nat.eq_zero_or_pos dot with rfl | hpos
  · exact List.mem_cons_self
  · exact List.mem_cons_of_mem _ (p.dotted_mem_moves hpos hle)

theorem dotted_back? (p : Production) {dot : Nat} {s : Symbol} (h : p.rhs[dot]? = some s) :
    (p.dotted (dot + 1)).back? = some (s, p.dotted dot) := by
  obtain ⟨hlt, rfl⟩ := List.getElem?_eq_some_iff.mp h
  have htake : (p.rhs.take (dot + 1)).reverse = p.rhs[dot] :: (p.rhs.take dot).reverse := by
    rw [List.take_add_one, List.getElem?_eq_getElem hlt, List.reverse_append]
    rfl
  have hdrop : p.rhs.drop dot = p.rhs[dot] :: p.rhs.drop (dot + 1) :=
    List.drop_eq_getElem_cons hlt
  unfold dotted Dotted.back?
  dsimp only
  rw [htake, hdrop]

end Production

namespace Grammar

variable {g : Grammar} {kernel : List Item}

/-- A production with its dot moved is in a kernel. -/
def Moved (g : Grammar) (kernel : List Item) (d : Dotted) : Prop :=
  ∃ i ∈ kernel, 0 < i.dot ∧ ∃ production,
    g.productions[i.production]? = some production ∧ d = production.dotted i.dot

/-- Productions of a nonterminal begin in the state of a kernel. -/
def Due (g : Grammar) (kernel : List Item) (id : Nat) : Prop :=
  (∃ i, g.ItemOf kernel i ∧ g.next? i = some (.nonterminal id)) ∨
    id = g.lhsOf 0 ∧ ⟨0, 0⟩ ∈ kernel

/-- The state of a kernel holds a spot. -/
def HasSpot (g : Grammar) (kernel : List Item) : Spot → Prop
  | .moved d => g.Moved kernel d
  | .due id => g.Due kernel id

/-- An item of a state is found at its spot. -/
theorem Reached.hasSpot (h : g.Reached kernel) {i : Item} (hi : g.ItemOf kernel i)
    {production : Production} (hp : g.productions[i.production]? = some production)
    (hle : i.dot ≤ production.rhs.length) : g.HasSpot kernel (production.dotted i.dot).spot := by
  have hlength : (production.dotted i.dot).before.length = i.dot := by
    unfold Production.dotted
    rw [List.length_reverse, List.length_take, Nat.min_eq_left hle]
  unfold Dotted.spot
  split
  · rename_i hempty
    have hdot : i.dot = 0 := by
      rw [List.isEmpty_iff] at hempty
      rw [hempty] at hlength
      exact hlength.symm
    cases hi with
    | kernel hmem =>
        obtain ⟨_, rfl⟩ := h.eq_start hmem hdot
        exact .inr ⟨(lhsOf_eq hp).symm, hmem⟩
    | start hj hnext hq =>
        rw [hp, Option.some.injEq] at hq
        subst hq
        exact .inl ⟨_, hj, hnext⟩
  · rename_i hnonempty
    have hdot : 0 < i.dot := by
      rw [← hlength, List.length_pos_iff]
      simpa using hnonempty
    cases hi with
    | kernel hmem => exact ⟨i, hmem, hdot, production, hp, rfl⟩
    | start => cases hdot

/-! ### Where productions of a nonterminal begin -/

/-- The moved items at whose dots the productions of a nonterminal can begin, and whether they
can begin at the start. -/
structure Onset where
  id : Nat
  atStart : Bool
  items : List Dotted

/-- The productions of the nonterminal begin nowhere else. -/
def Onset.Covers (o : Onset) (g : Grammar) : Prop :=
  ∀ kernel, g.Reached kernel → g.Due kernel o.id →
    kernel = [⟨0, 0⟩] ∧ o.atStart = true ∨ ∃ d ∈ o.items, g.Moved kernel d

/-- The productions that begin with a nonterminal: it, and the left side. -/
def leads (productions : List Production) : List (Nat × Nat) :=
  productions.filterMap fun p =>
    match p.rhs with
    | .nonterminal id :: _ => some (id, p.lhs)
    | _ => none

/-- The moved items that expect a nonterminal: it, and the item. -/
def expecting (productions : List Production) : List (Nat × Dotted) :=
  (productions.flatMap Production.moves).filterMap fun d =>
    match d.after with
    | .nonterminal id :: _ => some (id, d)
    | _ => none

/-- Adds to a set of nonterminals those that lead to one of them. -/
def widen : List (Nat × Nat) → (ids : Nat) → Nat
  | [], ids => ids
  | (id, lhs) :: rest, ids =>
    bif hasBit ids id then widen rest (ids ||| 1 <<< lhs) else widen rest ids

/-- The nonterminals that can begin with a given one, found in a number of rounds. -/
def corners (leads : List (Nat × Nat)) (id : Nat) : (rounds : Nat) → Nat
  | 0 => 1 <<< id
  | rounds + 1 => widen leads.reverse (widen leads (corners leads id rounds))

/-- Whether a set of nonterminals has all that lead to one of them. -/
def areCorners (leads : List (Nat × Nat)) (ids : Nat) : Bool :=
  leads.all fun (id, lhs) => !hasBit ids id || hasBit ids lhs

/-- Where the nonterminals of a set are expected. -/
def onset (expecting : List (Nat × Dotted)) (start id ids : Nat) : Onset where
  id := id
  atStart := ids.testBit start
  items := (expecting.filter fun x => hasBit ids x.1).map Prod.snd

theorem testBit_lhs_of_areCorners {productions : List Production} {ids id : Nat}
    (h : areCorners (leads productions) ids = true) {p : Production} (hp : p ∈ productions)
    {rest : List Symbol} (hrhs : p.rhs = .nonterminal id :: rest)
    (hid : ids.testBit id = true) : ids.testBit p.lhs = true := by
  have hmem : (id, p.lhs) ∈ leads productions := by
    refine List.mem_filterMap.mpr ⟨p, hp, ?_⟩
    rw [hrhs]
  simpa [hid] using List.all_eq_true.mp h _ hmem

/-- A nonterminal of such a set is expected by a moved item that expects one of the set, or at
the start. -/
theorem Reached.exists_expecting (hk : g.Reached kernel) {ids : Nat}
    (hids : areCorners (leads g.productions.toList) ids = true) {i : Item}
    (hi : g.ItemOf kernel i) {id : Nat} (hnext : g.next? i = some (.nonterminal id))
    (hid : ids.testBit id = true) :
    kernel = [⟨0, 0⟩] ∧ ids.testBit (g.lhsOf 0) = true ∨
      ∃ x ∈ expecting g.productions.toList, ids.testBit x.1 = true ∧ g.Moved kernel x.2 := by
  induction hi generalizing id with
  | @kernel i hmem =>
      obtain ⟨production, hp, hnext⟩ := exists_production_of_next? hnext
      have hlt : i.dot < production.rhs.length := (List.getElem?_eq_some_iff.mp hnext).1
      have hdrop : production.rhs.drop i.dot =
          .nonterminal id :: production.rhs.drop (i.dot + 1) := by
        rw [List.drop_eq_getElem_cons hlt]
        exact congrArg (· :: _) (List.getElem?_eq_some_iff.mp hnext).2
      have hproduction : production ∈ g.productions.toList :=
        Array.mem_toList_iff.mpr (Array.mem_of_getElem? hp)
      rcases Nat.eq_zero_or_pos i.dot with hdot | hdot
      · -- the dot stands in front only in the start, and the start production begins so
        obtain ⟨hkernel, rfl⟩ := hk.eq_start hmem hdot
        have hlhs := testBit_lhs_of_areCorners hids hproduction hdrop hid
        rw [← lhsOf_eq hp] at hlhs
        exact .inl ⟨hkernel, hlhs⟩
      · refine .inr ⟨(id, production.dotted i.dot), List.mem_filterMap.mpr
          ⟨production.dotted i.dot, ?_, ?_⟩, hid, i, hmem, hdot, production, hp, rfl⟩
        · exact List.mem_flatMap.mpr
            ⟨production, hproduction, production.dotted_mem_moves hdot hlt.le⟩
        · have hafter : (production.dotted i.dot).after =
              .nonterminal id :: production.rhs.drop (i.dot + 1) := hdrop
          rw [hafter]
  | @start j p production hj hbegins hp ih =>
      have hrhs : production.rhs = .nonterminal id :: production.rhs.tail := by
        unfold next? at hnext
        rw [rhsOf_eq hp, ← List.head?_eq_getElem?] at hnext
        exact List.eq_cons_of_mem_head? hnext
      have hlhs := testBit_lhs_of_areCorners hids
        (Array.mem_toList_iff.mpr (Array.mem_of_getElem? hp)) hrhs hid
      exact ih hbegins hlhs

theorem onset_covers {ids id : Nat} (hids : areCorners (leads g.productions.toList) ids = true)
    (hid : ids.testBit id = true) :
    (onset (expecting g.productions.toList) (g.lhsOf 0) id ids).Covers g := by
  intro kernel hk hdue
  rcases hdue with ⟨i, hi, hnext⟩ | ⟨heq, hmem⟩
  · rcases hk.exists_expecting hids hi hnext hid with hstart | ⟨x, hx, hbit, hmoved⟩
    · exact .inl hstart
    · exact .inr ⟨x.2, List.mem_map_of_mem (List.mem_filter.mpr ⟨hx, (hasBit_eq ..).trans hbit⟩),
        hmoved⟩
  · rw [show id = g.lhsOf 0 from heq] at hid
    exact .inl ⟨(hk.eq_start hmem rfl).1, hid⟩

/-! ### The search -/

/-- Follows two spots back for so many steps; whether no state holds both. -/
def apart (onsets : List Onset) : (steps : Nat) → Spot → Spot → Bool
  | 0, _, _ => false
  | steps + 1, .moved d, .moved e =>
    match d.back?, e.back? with
    | some (s, d), some (t, e) => differ s.key t.key || apart onsets steps d.spot e.spot
    | _, _ => false
  | steps + 1, .moved d, .due id | steps + 1, .due id, .moved d =>
    match onsets.find? fun o => o.id == id with
    | some o => o.items.all fun e => apart onsets steps (.moved d) (.moved e)
    | none => false
  | steps + 1, .due id, .due id' =>
    match onsets.find? fun o => o.id == id, onsets.find? fun o => o.id == id' with
    | some o, some o' =>
      !(o.atStart && o'.atStart) &&
        o.items.all fun d => o'.items.all fun e => apart onsets steps (.moved d) (.moved e)
    | _, _ => false

theorem covers_of_find? {onsets : List Onset} (honsets : ∀ o ∈ onsets, o.Covers g) {id : Nat}
    {o : Onset} (h : onsets.find? (fun o => o.id == id) = some o) : o.id = id ∧ o.Covers g :=
  ⟨by simpa using List.find?_some h, honsets o (List.mem_of_find?_eq_some h)⟩

/-- A moved item comes from one before the symbol that leads to its kernel. -/
theorem Moved.back {d : Dotted} (h : g.Moved kernel d) {previous : List Item} {s : Symbol}
    (hprevious : g.Reached previous)
    (hnext : ∀ j, j ∈ kernel ↔ ∃ i, g.ItemOf previous i ∧ g.next? i = some s ∧ i.advance = j) :
    ∃ e, d.back? = some (s, e) ∧ g.HasSpot previous e.spot := by
  obtain ⟨j, hj, _, production, hp, rfl⟩ := h
  obtain ⟨i, hi, hs, rfl⟩ := (hnext j).mp hj
  have hp' : g.productions[i.production]? = some production := hp
  unfold next? at hs
  rw [rhsOf_eq hp'] at hs
  have hlt : i.dot < production.rhs.length := (List.getElem?_eq_some_iff.mp hs).1
  exact ⟨production.dotted i.dot, production.dotted_back? hs, hprevious.hasSpot hi hp' hlt.le⟩

theorem not_moved_start {d : Dotted} : ¬ g.Moved [⟨0, 0⟩] d := by
  rintro ⟨i, hi, hdot, _⟩
  obtain rfl : i = ⟨0, 0⟩ := by simpa using hi
  cases hdot

/-- **Spots that are found apart are in no kernel together.** -/
theorem not_shared_of_apart {onsets : List Onset} (honsets : ∀ o ∈ onsets, o.Covers g)
    {steps : Nat} {s t : Spot} (h : apart onsets steps s t = true) (hk : g.Reached kernel)
    (hs : g.HasSpot kernel s) (ht : g.HasSpot kernel t) : False := by
  induction steps generalizing s t kernel with
  | zero => cases h
  | succ steps ih =>
      -- a moved item and a nonterminal that is due: one of the items that expect it is there too
      have hmixed : ∀ (d : Dotted) (id : Nat), g.Moved kernel d → g.Due kernel id →
          (match onsets.find? fun o => o.id == id with
            | some o => o.items.all fun e => apart onsets steps (.moved d) (.moved e)
            | none => false) = true → False := by
        intro d id hd hdue hall
        split at hall
        · rename_i o hfind
          obtain ⟨rfl, hcovers⟩ := covers_of_find? honsets hfind
          rcases hcovers kernel hk hdue with ⟨rfl, _⟩ | ⟨e, he, hmoved⟩
          · exact not_moved_start hd
          · exact ih (List.all_eq_true.mp hall e he) hk hd hmoved
        · cases hall
      match s, t with
      | .moved d, .moved e =>
          cases hk with
          | start => exact not_moved_start hs
          | step hprevious hnext =>
              obtain ⟨d', hd, hspot⟩ := Moved.back hs hprevious hnext
              obtain ⟨e', he, hspot'⟩ := Moved.back ht hprevious hnext
              unfold apart at h
              rw [hd, he] at h
              exact ih (by simpa using h) hprevious hspot hspot'
      | .moved d, .due id => exact hmixed d id hs ht (by unfold apart at h; exact h)
      | .due id, .moved d => exact hmixed d id ht hs (by unfold apart at h; exact h)
      | .due id, .due id' =>
          unfold apart at h
          split at h
          · rename_i o o' hfind hfind'
            obtain ⟨rfl, hcovers⟩ := covers_of_find? honsets hfind
            obtain ⟨rfl, hcovers'⟩ := covers_of_find? honsets hfind'
            rw [Bool.and_eq_true] at h
            rcases hcovers kernel hk hs with ⟨rfl, hstart⟩ | ⟨d, hd, hmoved⟩
            · rcases hcovers' _ hk ht with ⟨_, hstart'⟩ | ⟨e, _, hmoved'⟩
              · simp [hstart, hstart'] at h
              · exact not_moved_start hmoved'
            · rcases hcovers' kernel hk ht with ⟨rfl, _⟩ | ⟨e, he, hmoved'⟩
              · exact not_moved_start hmoved
              · exact ih (List.all_eq_true.mp (List.all_eq_true.mp h.2 d hd) e he) hk hmoved
                  hmoved'
          · cases h

end Grammar

end AspectLang
