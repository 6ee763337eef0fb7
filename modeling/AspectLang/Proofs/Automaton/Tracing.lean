import AspectLang.Proofs.Automaton.Lanes
import AspectLang.Proofs.Automaton.LoneItems

/-! # Following the automaton without its tables

A `View` of a state has the items of the state, and after each of them terminals that the state
looks for.  Views are computed from one another (`Outlook.view?`): which items a state has is known
exactly, and what it looks for is known from below, by the way that led to it, and from above, by
the follow sets of the grammar.  Mostly this settles what the tables do (`Outlook.holds_move?`);
where it does not, a view says so, or leaves open whether a reduction is made.

From stacks of views whole turns of the automaton are found (`Outlook.holds_turn?`), and from these
what becomes of the kinds that it is fed (`Outlook.feed?_sound`, `Outlook.reads?_sound`).  None of
the states is ever numbered; but two states with the same items are the same (`View.Shows.eq_of_items`),
so that what is seen on one way to a state holds on another. -/

namespace AspectLang

/-- The productions of a grammar with their numbers, by what they begin with and cut into blocks, and
lanes for its first and follow sets. -/
structure Outlook where
  /-- Productions that begin with a nonterminal. -/
  leads : List (List (Production × Nat))
  /-- Productions that begin with a terminal. -/
  tokens : List (List (Production × Nat))
  /-- Productions without symbols. -/
  empties : List (List (Production × Nat))
  first : Lanes
  follow : Lanes

/-- What is known of an item of a state: its production, the symbols after its dot, and terminals
that the state looks for after it. -/
structure Prospect where
  number : Nat
  dot : Nat
  lhs : Nat
  after : List Symbol
  looks : Nat

/-- The items in the kernel of a state; the nonterminals that stand after dots in the state are
marked, with terminals that are looked for after them. -/
structure View where
  kernel : List Prospect
  starts : Lanes

namespace Prospect

/-- The item. -/
def item (x : Prospect) : Item := ⟨x.number, x.dot⟩

/-- The item moved over a symbol. -/
def over? (s : Symbol) (x : Prospect) : Option Prospect :=
  match x.after with
  | [] => none
  | next :: rest => if next = s then some { x with dot := x.dot + 1, after := rest } else none

end Prospect

namespace Outlook

variable (o : Outlook)

/-- The productions that may begin with a symbol, or those without symbols. -/
def starting : Option Symbol → List (List (Production × Nat))
  | some (.nonterminal _) => o.leads
  | some (.terminal _) => o.tokens
  | none => o.empties

/-! ### Views of states -/

/-- Marks the nonterminal after a dot, with what comes after it. -/
def spread (after : List Symbol) (looks : Nat) (m : Lanes) : Lanes :=
  match after with
  | .nonterminal id :: rest => m.join id (o.first.headSet rest looks ||| 1 <<< Lanes.mark)
  | _ => m

/-- The start of a production whose nonterminal is marked. -/
def start? (m : Lanes) (x : Production × Nat) : Option Prospect :=
  let looks := m.lane x.1.lhs
  bif hasBit looks Lanes.mark then some ⟨x.2, 0, x.1.lhs, x.1.rhs, looks⟩ else none

/-- Marks the nonterminal that a production of a marked one begins with.  The old lanes are never
handed on as they are, so that no step is looked through again in a later one. -/
def spreadRule (m : Lanes) (x : Production × Nat) : Lanes :=
  m ||| match start? m x with
    | some p => o.spread p.after p.looks 0
    | none => 0

/-- The marks of the left sides of a block. -/
def marksOf (rules : List (Production × Nat)) : Lanes :=
  rules.foldr (fun x marks => 1 <<< (Lanes.width * x.1.lhs + Lanes.mark) ||| marks) 0

/-- Whether no left side of a block is marked, so that the block can be passed over. -/
def sleeps (m : Lanes) (rules : List (Production × Nat)) : Bool :=
  Nat.beq (Nat.land m (marksOf rules)) 0

/-- Marks what the productions of a block begin with. -/
def spreadBlock (m : Lanes) (rules : List (Production × Nat)) : Lanes :=
  m ||| bif sleeps m rules then 0 else rules.foldl o.spreadRule m

/-- A round over all blocks. -/
def round (m : Lanes) : Lanes := o.leads.foldl o.spreadBlock m

/-- Rounds until nothing changes. -/
def close? : (gas : Nat) → Lanes → Option Lanes
  | 0, _ => none
  | gas + 1, m =>
    let next := o.round m
    if next = m then some m else close? gas next

/-- Rounds that closing a state may take. -/
def closeGas : Nat := 32

/-- The view of the state with a given kernel. -/
def view? (kernel : List Prospect) : Option View :=
  (o.close? closeGas (kernel.foldl (fun m x => o.spread x.after x.looks m) 0)).map (⟨kernel, ·⟩)

/-- The items of a state with a symbol after their dots; items with another symbol may be among
them. -/
def items (v : View) (s : Option Symbol) : List Prospect :=
  v.kernel ++ (o.starting s).flatMap fun rules =>
    bif sleeps v.starts rules then [] else rules.filterMap (start? v.starts)

/-- The items that a symbol leads to. -/
def moved (v : View) (s : Symbol) : List Prospect :=
  (o.items v (some s)).filterMap (Prospect.over? s)

/-- The view of the state that a symbol leads to. -/
def next? (v : View) (s : Symbol) : Option View :=
  match o.moved v s with
  | [] => none
  | moved => o.view? moved

/-! ### Moves -/

/-- What a state does before a terminal; a reduction that is not sure may be an error instead. -/
inductive Move where
  | shift (next : View)
  | reduce (number lhs arity : Nat) (sure : Bool)
  | accept
  | error

/-- The completed items of a state that may be followed by a terminal. -/
def due (v : View) (k : TokenKind) : List Prospect :=
  (o.items v none).filter fun x => x.after.isEmpty &&
    (hasBit x.looks k.column || hasBit (o.follow.lane x.lhs) k.column)

/-- What a state does before a terminal, if its view settles it. -/
def move? (v : View) (k : TokenKind) : Option Move :=
  if (o.moved v (.terminal k)).isEmpty then
    match o.due v k with
    | [] => some .error
    | [x] =>
      if x.number = 0 then
        if k = .eof ∧ x.looks.testBit k.column = true then some .accept else none
      else some (.reduce x.number x.lhs x.dot (x.looks.testBit k.column))
    | _ => none
  else (o.next? v (.terminal k)).map .shift

/-- What a stack comes to by one turn before a terminal. -/
inductive Turned where
  | shifted (views : List View)
  | reduced (number : Nat) (sure : Bool) (views : List View)
  | accepted
  | rejected

/-- One turn before a terminal. -/
def turn? (k : TokenKind) : List View → Option Turned
  | [] => none
  | v :: below =>
    match o.move? v k with
    | none => none
    | some (.shift next) => some (.shifted (next :: v :: below))
    | some (.reduce number lhs arity sure) =>
      match (v :: below).drop arity with
      | [] => none
      | top :: rest =>
        (o.next? top (.nonterminal lhs)).map fun next => .reduced number sure (next :: top :: rest)
    | some .accept => some .accepted
    | some .error => some .rejected

/-! ### Reading kinds -/

/-- What becomes of a kind that is fed to a stack. -/
inductive Fed where
  | shifted (views : List View)
  | accepted
  | rejected

/-- What becomes of a kind that is fed to a stack, if that is settled within some turns. -/
def feed? (k : TokenKind) : (gas : Nat) → List View → Option Fed
  | 0, _ => none
  | gas + 1, views =>
    match o.turn? k views with
    | none => none
    | some (.shifted views) => some (.shifted views)
    | some .accepted => some .accepted
    | some .rejected => some .rejected
    | some (.reduced _ sure views) =>
      match feed? k gas views with
      | some .rejected => some .rejected
      | fed => if sure then fed else none

/-- Turns that reading a kind may take. -/
def feedTurns : Nat := 64

/-- What becomes of a kind that is split if it does not fit, if that is settled within some feeds. -/
def feedOrSplit? : (gas : Nat) → TokenKind → List View → Option Fed
  | 0, _, _ => none
  | gas + 1, k, views =>
    match o.feed? k feedTurns views with
    | some .rejected =>
      match k.halves? with
      | none => some .rejected
      | some (first, rest) =>
        match o.feed? first feedTurns views with
        | some (.shifted views) => feedOrSplit? gas rest views
        | fed => fed
    | fed => fed

/-- Whether the kinds can be read one after the other, if that is settled. -/
def reads? : List TokenKind → List View → Option Bool
  | [], _ => some true
  | k :: kinds, views =>
    match o.feedOrSplit? k.brackets k views with
    | some (.shifted views) => reads? kinds views
    | some .accepted => some true
    | some .rejected => some false
    | none => none

end Outlook

/-! ### What views show -/

/-- The item is one of a state, which looks for the terminals after it. -/
structure Prospect.Holds (g : Grammar) (state : Nat) (kernel : List Item) (x : Prospect) :
    Prop where
  production : ∃ production, g.productions[x.number]? = some production ∧
    production.lhs = x.lhs ∧ x.dot ≤ production.rhs.length ∧ production.rhs.drop x.dot = x.after
  itemOf : g.ItemOf kernel x.item
  looks : ∀ k ∈ TokenKind.all, x.looks.testBit k.column = true → g.Looks state x.item k

/-- What is marked stands after a dot, and the state looks for the terminals after it. -/
structure Spread (g : Grammar) (state : Nat) (kernel : List Item) (m : Lanes) : Prop where
  expects : ∀ id, (m.lane id).testBit Lanes.mark = true →
    ∃ i, g.ItemOf kernel i ∧ g.next? i = some (.nonterminal id)
  looks : ∀ id, ∀ k ∈ TokenKind.all, (m.lane id).testBit k.column = true → ∀ p production,
    g.productions[p]? = some production → production.lhs = id → g.Looks state ⟨p, 0⟩ k

/-- The view is one of a state with a kernel. -/
structure View.Of (g : Grammar) (state : Nat) (kernel : List Item) (v : View) : Prop where
  hasKernel : g.itemGraph.kernels[state]? = some kernel
  holds : ∀ x ∈ v.kernel, x.Holds g state kernel
  mem : ∀ i ∈ kernel, ∃ x ∈ v.kernel, x.item = i
  spread : Spread g state kernel v.starts
  marked : ∀ i id, g.ItemOf kernel i → g.next? i = some (.nonterminal id) →
    (v.starts.lane id).testBit Lanes.mark = true

/-- The view is one of a state. -/
def View.Shows (g : Grammar) (v : View) (state : Nat) : Prop := ∃ kernel, v.Of g state kernel

/-- An outlook is one on a grammar: it has all productions, and the lanes hold no terminal that
does not begin a nonterminal, and all that are looked for after one. -/
structure Outlook.Fits (o : Outlook) (g : Grammar) : Prop where
  sound : ∀ s, ∀ rules ∈ o.starting s, ∀ x ∈ rules, g.productions[x.2]? = some x.1
  mem : ∀ production p, g.productions[p]? = some production →
    ∃ rules ∈ o.starting production.rhs.head?, (production, p) ∈ rules
  first : o.first.Derives g
  follow : ∀ {state : Nat} {kernel : List Item} {i : Item} {k : TokenKind},
    g.itemGraph.kernels[state]? = some kernel → k ∈ TokenKind.all → g.Looks state i k →
      (o.follow.lane (g.lhsOf i.production)).testBit k.column = true

section

variable {g : Grammar} {state : Nat} {kernel : List Item} {x : Prospect} {m : Lanes}

theorem Prospect.Holds.drop_eq (h : x.Holds g state kernel) :
    (g.rhsOf x.item.production).drop x.item.dot = x.after := by
  obtain ⟨production, hp, _, _, hafter⟩ := h.production
  change (g.rhsOf x.number).drop x.dot = x.after
  rw [Grammar.rhsOf_eq hp, hafter]

theorem Prospect.Holds.next?_eq (h : x.Holds g state kernel) : g.next? x.item = x.after.head? := by
  rw [← h.drop_eq, List.head?_drop]
  rfl

/-- An item with nothing after its dot has its dot at the end. -/
theorem Prospect.Holds.item_eq_ended (h : x.Holds g state kernel) (hafter : x.after = []) :
    x.item = g.ended x.number := by
  obtain ⟨production, hp, _, hdot, hdrop⟩ := h.production
  have hle : production.rhs.length ≤ x.dot := List.drop_eq_nil_iff.mp (hdrop.trans hafter)
  have hlength : x.dot = (g.rhsOf x.number).length := by
    rw [Grammar.rhsOf_eq hp]
    exact Nat.le_antisymm hdot hle
  exact congrArg (Item.mk x.number) hlength

theorem Prospect.Holds.lhsOf_eq (h : x.Holds g state kernel) :
    g.lhsOf x.item.production = x.lhs := by
  obtain ⟨production, hp, hlhs, _⟩ := h.production
  exact (Grammar.lhsOf_eq hp).trans hlhs

end

/-! ### Closing a state -/

section

variable {o : Outlook} {g : Grammar} {state : Nat} {kernel : List Item} {m : Lanes} {x : Prospect}
  (ho : o.Fits g) (hg : g.WellFormed) (hk : g.itemGraph.kernels[state]? = some kernel)

include hg hk in
theorem exists_follow {i : Item} (hi : g.ItemOf kernel i) : ∃ follow,
    ⟨i, follow⟩ ∈ GrammarIndex.stateItems g (GrammarIndex.followSets g) state := by
  have hfits := (GrammarIndex.lookaheads_stable hg).1
  induction hi with
  | kernel hi =>
      obtain ⟨place, hplace⟩ := List.mem_iff_getElem?.mp hi
      obtain ⟨follow, hitem, _⟩ := GrammarIndex.stateItems_keeps hg hfits hk hplace
      exact ⟨follow, Array.mem_of_getElem? hitem⟩
  | start _ hnext hp ih =>
      obtain ⟨follow, hitem⟩ := ih
      obtain ⟨rest, hdrop⟩ := Grammar.exists_drop_of_next? hnext
      obtain ⟨follow', hstart, _⟩ := GrammarIndex.stateItems_hasStart hg hfits hk hitem hdrop hp
      exact ⟨follow', hstart⟩

include hg hk in
/-- What comes after a nonterminal is looked for after its productions. -/
theorem looks_start_of_begin {i : Item} {p : Nat} {production : Production} {rest : List Symbol}
    {k : TokenKind} (hi : g.ItemOf kernel i)
    (hdrop : (g.rhsOf i.production).drop i.dot = .nonterminal production.lhs :: rest)
    (hp : g.productions[p]? = some production)
    (h : g.CanBegin rest k ∨ g.Derives rest [] ∧ g.Looks state i k) : g.Looks state ⟨p, 0⟩ k := by
  rcases h with hbegin | ⟨hempty, hlooks⟩
  · obtain ⟨follow, hitem⟩ := exists_follow hg hk hi
    obtain ⟨follow', hstart, hwithin⟩ := GrammarIndex.stateItems_hasStart hg
      (GrammarIndex.lookaheads_stable hg).1 hk hitem hdrop hp
    exact ⟨follow', hstart,
      hwithin _ (FirstSets.has_ofSymbolsThen.mpr (.inl (hg.has_first_iff.mpr hbegin)))⟩
  · refine Grammar.looks_of_inClosure (I := {(i, k)}) (x := (⟨p, 0⟩, k)) hg hk ?_
      (.start (.base rfl) hdrop hp (.after_empty hempty (Grammar.canBegin_terminal k [])))
    intro j b hj
    obtain ⟨rfl, rfl⟩ := Prod.mk.inj hj
    exact hlooks

theorem spread_zero : Spread g state kernel 0 where
  expects id h := by rw [Lanes.testBit_lane_zero] at h; cases h
  looks id k _ h := by rw [Lanes.testBit_lane_zero] at h; cases h

theorem Spread.or {n : Lanes} (h : Spread g state kernel m) (h' : Spread g state kernel n) :
    Spread g state kernel (m ||| n : Nat) where
  expects id hid := by
    rw [Lanes.testBit_lane_or, Bool.or_eq_true] at hid
    exact hid.elim (h.expects id) (h'.expects id)
  looks id k hkind hid := by
    rw [Lanes.testBit_lane_or, Bool.or_eq_true] at hid
    exact hid.elim (h.looks id k hkind) (h'.looks id k hkind)

include ho hg hk in
/-- Marking what stands after the dot of an item. -/
theorem Spread.spread (h : Spread g state kernel m) (hx : x.Holds g state kernel) :
    Spread g state kernel (o.spread x.after x.looks m) := by
  unfold Outlook.spread
  split
  · rename_i id rest hafter
    have hdrop := hx.drop_eq.trans hafter
    refine ⟨fun other hmark => ?_, fun other k hkind hbit p production hp hlhs => ?_⟩
    · rw [Lanes.testBit_lane_join, Bool.or_eq_true, Bool.and_eq_true, decide_eq_true_eq] at hmark
      rcases hmark with hold | ⟨⟨rfl, _⟩, _⟩
      · exact h.expects other hold
      · exact ⟨x.item, hx.itemOf, by rw [hx.next?_eq, hafter, List.head?_cons]⟩
    · have hcolumn : k.column < Lanes.mark := Grammar.column_lt_of_mem_all hkind
      rw [Lanes.testBit_lane_join, Bool.or_eq_true, Bool.and_eq_true, decide_eq_true_eq,
        Nat.testBit_or, Lanes.testBit_headSet hcolumn, Nat.one_shiftLeft, Nat.testBit_two_pow,
        decide_eq_false (Nat.ne_of_gt hcolumn), Bool.or_false, Bool.or_eq_true,
        Bool.and_eq_true] at hbit
      rcases hbit with hold | ⟨⟨rfl, _⟩, hbegins⟩
      · exact h.looks other k hkind hold p production hp hlhs
      · subst hlhs
        refine looks_start_of_begin hg hk hx.itemOf hdrop hp (hbegins.imp ?_ ?_)
        · exact ho.first.canBegin hcolumn
        · exact fun ⟨hempties, hlooks⟩ =>
            ⟨ho.first.derives_nil hempties, hx.looks k hkind hlooks⟩
  · exact h

/-- The start of a production whose nonterminal is marked is an item. -/
theorem Spread.holds_start (h : Spread g state kernel m) {production : Production} {p : Nat}
    (hp : g.productions[p]? = some production)
    (hx : Outlook.start? m (production, p) = some x) : x.Holds g state kernel := by
  unfold Outlook.start? at hx
  dsimp only at hx
  rw [hasBit_eq, Bool.cond_eq_ite] at hx
  split at hx
  · rename_i hmark
    obtain rfl := Option.some.inj hx
    obtain ⟨i, hi, hnext⟩ := h.expects _ hmark
    refine ⟨⟨production, hp, rfl, Nat.zero_le _, rfl⟩, .start hi hnext hp, fun k hkind hbit => ?_⟩
    exact h.looks _ k hkind hbit p production hp rfl
  · cases hx

include ho hg hk in
theorem Spread.rules {rules : List (Production × Nat)} (h : Spread g state kernel m)
    (hsound : ∀ x ∈ rules, g.productions[x.2]? = some x.1) :
    Spread g state kernel (rules.foldl o.spreadRule m) := by
  induction rules generalizing m with
  | nil => exact h
  | cons y rules ih =>
      obtain ⟨hy, hrest⟩ := List.forall_mem_cons.mp hsound
      refine ih (h.or ?_) hrest
      split
      · rename_i started hstarted
        exact spread_zero.spread ho hg hk (h.holds_start hy hstarted)
      · exact spread_zero

include ho hg hk in
theorem Spread.round (h : Spread g state kernel m) : Spread g state kernel (o.round m) := by
  have hsound := ho.sound (some (.nonterminal 0))
  change ∀ rules ∈ o.leads, _ at hsound
  unfold Outlook.round
  generalize o.leads = blocks at hsound
  induction blocks generalizing m with
  | nil => exact h
  | cons rules blocks ih =>
      obtain ⟨hrules, hrest⟩ := List.forall_mem_cons.mp hsound
      refine ih (h.or ?_) hrest
      cases Outlook.sleeps m rules with
      | true => exact spread_zero
      | false => exact h.rules ho hg hk hrules

/-! ### All that is marked -/

/-- Marks stay. -/
theorem marked_spread {id : Nat} (after : List Symbol) (looks : Nat)
    (h : (m.lane id).testBit Lanes.mark = true) :
    ((o.spread after looks m).lane id).testBit Lanes.mark = true := by
  unfold Outlook.spread
  split
  · exact Lanes.testBit_join_of h
  · exact h

theorem marked_spreadRule {id : Nat} (y : Production × Nat)
    (h : (m.lane id).testBit Lanes.mark = true) :
    ((o.spreadRule m y).lane id).testBit Lanes.mark = true := by
  rw [Outlook.spreadRule, Lanes.testBit_lane_or, h, Bool.true_or]

theorem marked_rules {id : Nat} (rules : List (Production × Nat))
    (h : (m.lane id).testBit Lanes.mark = true) :
    ((rules.foldl o.spreadRule m).lane id).testBit Lanes.mark = true := by
  induction rules generalizing m with
  | nil => exact h
  | cons y rules ih => exact ih (marked_spreadRule y h)

theorem marked_blocks {id : Nat} (blocks : List (List (Production × Nat)))
    (h : (m.lane id).testBit Lanes.mark = true) :
    ((blocks.foldl o.spreadBlock m).lane id).testBit Lanes.mark = true := by
  induction blocks generalizing m with
  | nil => exact h
  | cons rules blocks ih =>
      refine ih ?_
      rw [Outlook.spreadBlock, Lanes.testBit_lane_or, h, Bool.true_or]

/-- A block with a marked left side does not sleep. -/
theorem sleeps_eq_false {rules : List (Production × Nat)} {y : Production × Nat} (hy : y ∈ rules)
    (h : (m.lane y.1.lhs).testBit Lanes.mark = true) : Outlook.sleeps m rules = false := by
  have hmark : (Outlook.marksOf rules).testBit (Lanes.width * y.1.lhs + Lanes.mark) = true := by
    unfold Outlook.marksOf
    induction rules with
    | nil => cases hy
    | cons z rules ih =>
        rw [List.foldr_cons, Nat.testBit_or, Bool.or_eq_true]
        rcases List.mem_cons.mp hy with rfl | hy
        · exact .inl (by rw [Nat.one_shiftLeft, Nat.testBit_two_pow_self])
        · exact .inr (ih hy)
  rw [Lanes.testBit_lane, Bool.and_eq_true] at h
  refine Bool.eq_false_iff.mpr fun hsleeps => ?_
  have hnone := congrArg (Nat.testBit · (Lanes.width * y.1.lhs + Lanes.mark))
    (Nat.eq_of_beq_eq_true hsleeps)
  change (m &&& Outlook.marksOf rules).testBit _ = Nat.testBit 0 _ at hnone
  rw [Nat.testBit_and, h.2, hmark, Nat.zero_testBit] at hnone
  cases hnone

/-- The nonterminal after a dot is marked. -/
theorem marked_head {id : Nat} {after rest : List Symbol} (looks : Nat) (m : Lanes)
    (hafter : after = .nonterminal id :: rest) :
    ((o.spread after looks m).lane id).testBit Lanes.mark = true := by
  subst hafter
  unfold Outlook.spread
  dsimp only
  rw [Lanes.testBit_lane_join, Nat.testBit_or, Nat.one_shiftLeft, Nat.testBit_two_pow_self]
  simp [Lanes.mark_lt_width]

theorem marked_of_rule {rules : List (Production × Nat)} {production : Production} {p id : Nat}
    {rest : List Symbol} (hmem : (production, p) ∈ rules)
    (hrhs : production.rhs = .nonterminal id :: rest)
    (h : (m.lane production.lhs).testBit Lanes.mark = true) :
    ((rules.foldl o.spreadRule m).lane id).testBit Lanes.mark = true := by
  induction rules generalizing m with
  | nil => cases hmem
  | cons y rules ih =>
      rcases List.mem_cons.mp hmem with rfl | hmem
      · refine marked_rules rules ?_
        unfold Outlook.spreadRule Outlook.start?
        dsimp only
        rw [hasBit_eq, h, cond_true, Lanes.testBit_lane_or, Bool.or_eq_true]
        exact .inr (marked_head _ _ hrhs)
      · exact ih hmem (marked_spreadRule y h)

/-- A round marks what the productions of a marked nonterminal begin with. -/
theorem marked_of_block {blocks : List (List (Production × Nat))} {rules : List (Production × Nat)}
    {production : Production} {p id : Nat} {rest : List Symbol} (hrules : rules ∈ blocks)
    (hmem : (production, p) ∈ rules) (hrhs : production.rhs = .nonterminal id :: rest)
    (h : (m.lane production.lhs).testBit Lanes.mark = true) :
    ((blocks.foldl o.spreadBlock m).lane id).testBit Lanes.mark = true := by
  induction blocks generalizing m with
  | nil => cases hrules
  | cons block blocks ih =>
      rcases List.mem_cons.mp hrules with rfl | hrules
      · refine marked_blocks blocks ?_
        rw [Outlook.spreadBlock, sleeps_eq_false hmem h, cond_false, Lanes.testBit_lane_or,
          Bool.or_eq_true]
        exact .inr (marked_of_rule hmem hrhs h)
      · refine ih hrules ?_
        rw [Outlook.spreadBlock, Lanes.testBit_lane_or, h, Bool.true_or]

theorem marked_kernel {kernel : List Prospect} {id : Nat} {rest : List Symbol} (hx : x ∈ kernel)
    (hafter : x.after = .nonterminal id :: rest) (m : Lanes) :
    ((kernel.foldl (fun m x => o.spread x.after x.looks m) m).lane id).testBit Lanes.mark =
      true := by
  have hstay : ∀ (l : List Prospect) (m : Lanes), (m.lane id).testBit Lanes.mark = true →
      ((l.foldl (fun m x => o.spread x.after x.looks m) m).lane id).testBit Lanes.mark = true := by
    intro l
    induction l with
    | nil => exact fun _ h => h
    | cons y l ih => exact fun m h => ih _ (marked_spread _ _ h)
  induction kernel generalizing m with
  | nil => cases hx
  | cons y kernel ih =>
      rcases List.mem_cons.mp hx with rfl | hx
      · exact hstay kernel _ (marked_head _ _ hafter)
      · exact ih hx _

theorem close?_eq_some {gas : Nat} {closed : Lanes} (h : o.close? gas m = some closed) :
    ∃ n, closed = o.round^[n] m ∧
      o.round closed = closed := by
  induction gas generalizing m with
  | zero => cases h
  | succ gas ih =>
      unfold Outlook.close? at h
      dsimp only at h
      split at h
      · rename_i heq
        obtain rfl := Option.some.inj h
        exact ⟨0, rfl, heq⟩
      · obtain ⟨n, hn, hfixed⟩ := ih h
        exact ⟨n + 1, hn, hfixed⟩

include ho hg hk in
/-- **A view is found of the state with a kernel.** -/
theorem of_view? {xs : List Prospect} {v : View} (hholds : ∀ x ∈ xs, x.Holds g state kernel)
    (hmem : ∀ i ∈ kernel, ∃ x ∈ xs, x.item = i) (h : o.view? xs = some v) :
    v.Of g state kernel := by
  obtain ⟨closed, hclosed, rfl⟩ := Option.map_eq_some_iff.mp h
  obtain ⟨n, hn, hfixed⟩ := close?_eq_some hclosed
  have hseed : ∀ (l : List Prospect) (m : Lanes), (∀ x ∈ l, x.Holds g state kernel) →
      Spread g state kernel m →
        Spread g state kernel (l.foldl (fun m x => o.spread x.after x.looks m) m) := by
    intro l
    induction l with
    | nil => exact fun _ _ h => h
    | cons y l ih =>
        exact fun m hl h => ih _ (fun z hz => hl z (List.mem_cons_of_mem y hz))
          (h.spread ho hg hk (hl y List.mem_cons_self))
  generalize hm : xs.foldl (fun m x => o.spread x.after x.looks m) 0 = m at hn
  have hrounds : ∀ n, Spread g state kernel (o.round^[n] m) := by
    intro n
    induction n with
    | zero => exact hm ▸ hseed xs 0 hholds spread_zero
    | succ n ih =>
        rw [Function.iterate_succ_apply']
        exact ih.round ho hg hk
  have hkept : ∀ n id, (m.lane id).testBit Lanes.mark = true →
      ((o.round^[n] m).lane id).testBit Lanes.mark = true := by
    intro n id hid
    induction n with
    | zero => exact hid
    | succ n ih =>
        rw [Function.iterate_succ_apply']
        exact marked_blocks _ ih
  refine ⟨hk, hholds, hmem, hn ▸ hrounds n, fun i id hi hnext => ?_⟩
  change (closed.lane id).testBit Lanes.mark = true
  induction hi generalizing id with
  | kernel hi =>
      obtain ⟨x, hx, rfl⟩ := hmem _ hi
      rw [(hholds x hx).next?_eq] at hnext
      obtain ⟨rest, hafter⟩ := List.head?_eq_some_iff.mp hnext
      rw [hn]
      exact hkept n id (hm ▸ marked_kernel hx hafter 0)
  | @start i p production _ hbefore hp ih =>
      have hmark := ih _ hbefore
      have hhead : production.rhs.head? = some (.nonterminal id) := by
        rw [← hnext, Grammar.next?, Grammar.rhsOf_eq hp]
        exact List.head?_eq_getElem?
      obtain ⟨rest, hrhs⟩ := List.head?_eq_some_iff.mp hhead
      obtain ⟨rules, hrules, hrule⟩ := ho.mem production p hp
      rw [hhead] at hrules
      rw [← hfixed]
      exact marked_of_block hrules hrule hrhs hmark

end

/-! ### Where symbols lead -/

section

variable {o : Outlook} {g : Grammar} {state : Nat} {kernel : List Item} {v next : View}
  {s : Symbol} {x : Prospect} (ho : o.Fits g) (hg : g.WellFormed)

include ho in
theorem View.Of.holds_items (h : v.Of g state kernel) {s : Option Symbol}
    (hx : x ∈ o.items v s) : x.Holds g state kernel := by
  rcases List.mem_append.mp hx with hx | hx
  · exact h.holds x hx
  · obtain ⟨rules, hrules, hx⟩ := List.mem_flatMap.mp hx
    cases hsleeps : Outlook.sleeps v.starts rules with
    | true =>
        rw [hsleeps] at hx
        cases hx
    | false =>
        rw [hsleeps] at hx
        obtain ⟨⟨production, p⟩, hrule, hstart⟩ := List.mem_filterMap.mp hx
        exact h.spread.holds_start (ho.sound s rules hrules _ hrule) hstart

include ho in
/-- Every item of a state is among those with the symbol after its dot. -/
theorem View.Of.mem_items (h : v.Of g state kernel) {i : Item} (hi : g.ItemOf kernel i) :
    ∃ x ∈ o.items v (g.next? i), x.item = i := by
  cases hi with
  | kernel hi =>
      obtain ⟨x, hx, hitem⟩ := h.mem i hi
      exact ⟨x, List.mem_append_left _ hx, hitem⟩
  | @start i p production hbefore hnext hp =>
      have hmark := h.marked i _ hbefore hnext
      have hhead : g.next? ⟨p, 0⟩ = production.rhs.head? := by
        rw [Grammar.next?, Grammar.rhsOf_eq hp]
        exact List.head?_eq_getElem?.symm
      obtain ⟨rules, hrules, hrule⟩ := ho.mem production p hp
      refine ⟨⟨p, 0, production.lhs, production.rhs, v.starts.lane production.lhs⟩,
        List.mem_append_right _ (List.mem_flatMap.mpr ⟨rules, hhead ▸ hrules, ?_⟩), rfl⟩
      rw [sleeps_eq_false hrule hmark]
      refine List.mem_filterMap.mpr ⟨(production, p), hrule, ?_⟩
      unfold Outlook.start?
      dsimp only
      rw [hasBit_eq, hmark, cond_true]

theorem Prospect.over?_eq_some {y : Prospect} (h : x.over? s = some y) : ∃ rest,
    x.after = s :: rest ∧ y = { x with dot := x.dot + 1, after := rest } := by
  unfold over? at h
  split at h
  · cases h
  · rename_i rest hafter
    split at h
    · rename_i heq
      exact ⟨rest, heq ▸ hafter, (Option.some.inj h).symm⟩
    · cases h

include ho in
theorem View.Of.mem_moved (h : v.Of g state kernel) {i : Item} (hi : g.ItemOf kernel i)
    (hnext : g.next? i = some s) : ∃ y ∈ o.moved v s, y.item = i.advance := by
  obtain ⟨x, hx, rfl⟩ := h.mem_items ho hi
  rw [hnext] at hx
  have hholds := h.holds_items ho hx
  rw [hholds.next?_eq] at hnext
  obtain ⟨rest, hafter⟩ := List.head?_eq_some_iff.mp hnext
  refine ⟨{ x with dot := x.dot + 1, after := rest }, List.mem_filterMap.mpr ⟨x, hx, ?_⟩, rfl⟩
  unfold Prospect.over?
  rw [hafter]
  exact if_pos rfl

include ho hg in
/-- Where no item has a symbol after its dot, the symbol does not lead on. -/
theorem View.Of.edge_eq_none (h : v.Of g state kernel) (hs : g.HasSymbol s)
    (hmoved : o.moved v s = []) : g.itemGraph.edge? state s = none := by
  cases hedge : g.itemGraph.edge? state s with
  | none => rfl
  | some target =>
      obtain ⟨_, _, _, i, hi, hnext⟩ := hg.kernel_of_edge h.hasKernel hs hedge
      obtain ⟨y, hy, _⟩ := h.mem_moved ho hi hnext
      rw [hmoved] at hy
      cases hy

include ho hg in
/-- **A symbol leads to the state that its view is of.** -/
theorem View.Of.next? (h : v.Of g state kernel) (hnext : o.next? v s = some next) :
    ∃ target, g.itemGraph.edge? state s = some target ∧ next.Shows g target := by
  unfold Outlook.next? at hnext
  cases hmoved : o.moved v s with
  | nil => rw [hmoved] at hnext; cases hnext
  | cons first others =>
      rw [hmoved] at hnext
      dsimp only at hnext
      rw [← hmoved] at hnext
      have hover : ∀ y ∈ o.moved v s, ∃ x : Prospect, x.Holds g state kernel ∧
          g.next? x.item = some s ∧ ∃ rest, x.after = s :: rest ∧
            y = { x with dot := x.dot + 1, after := rest } := by
        intro y hy
        obtain ⟨x, hx, hy⟩ := List.mem_filterMap.mp hy
        have hholds := h.holds_items ho hx
        obtain ⟨rest, hafter, rfl⟩ := Prospect.over?_eq_some hy
        exact ⟨x, hholds, by rw [hholds.next?_eq, hafter, List.head?_cons], rest, hafter, rfl⟩
      obtain ⟨x, hx, hs, _⟩ := hover first (hmoved ▸ List.mem_cons_self)
      obtain ⟨target, hedge⟩ := hg.edge_of_next h.hasKernel hx.itemOf hs
      obtain ⟨kernel', htarget, hkernel', _⟩ :=
        hg.kernel_of_edge h.hasKernel (hg.next_hasSymbol hs) hedge
      refine ⟨target, hedge, kernel', of_view? ho hg htarget (fun y hy => ?_) (fun i hi => ?_) hnext⟩
      · obtain ⟨x, hx, hs, rest, hafter, rfl⟩ := hover y hy
        obtain ⟨production, hp, hlhs, _, hdrop⟩ := hx.production
        rw [hafter] at hdrop
        have hlt : x.dot < production.rhs.length := by
          by_contra hge
          rw [List.drop_eq_nil_of_le (Nat.le_of_not_lt hge)] at hdrop
          cases hdrop
        refine ⟨⟨production, hp, hlhs, hlt, ?_⟩, .kernel ((hkernel' _).mpr ⟨_, hx.itemOf, hs, rfl⟩),
          fun k hkind hbit => ?_⟩
        · rw [← List.tail_drop, hdrop, List.tail_cons]
        · exact Grammar.looks_advance hg h.hasKernel hedge htarget hkernel' hx.itemOf hs
            (hx.looks k hkind hbit)
      · obtain ⟨j, hj, hs, rfl⟩ := (hkernel' i).mp hi
        exact h.mem_moved ho hj hs

end

/-! ### What states do -/

namespace Outlook

/-- A state does what a move says. -/
def Move.Holds (g : Grammar) (state : Nat) (k : TokenKind) : Move → Prop
  | .shift next => ∃ target,
    (GrammarIndex.of g).tables.action state k = .shift target ∧ next.Shows g target
  | .reduce number lhs arity sure =>
    ((GrammarIndex.of g).tables.action state k = .reduce number ∨
      sure = false ∧ (GrammarIndex.of g).tables.action state k = .error) ∧
    ∃ production, g.productions[number]? = some production ∧ production.lhs = lhs ∧
      production.rhs.length = arity
  | .accept => (GrammarIndex.of g).tables.action state k = .accept
  | .error => (GrammarIndex.of g).tables.action state k = .error

/-- A stack of states is as a stack of views shows it. -/
def Show (g : Grammar) (views : List View) (states : List Nat) : Prop :=
  List.Forall₂ (View.Shows g) views states

/-- The turn of a stack before a terminal is as said. -/
def Turned.Holds (g : Grammar) (states : List Nat) (k : TokenKind) : Turned → Prop
  | .shifted views => ∃ top below target, states = top :: below ∧
    (GrammarIndex.of g).tables.action top k = .shift target ∧ Show g views (target :: states)
  | .reduced number sure views => ∃ top below production origin lower target,
    states = top :: below ∧
    ((GrammarIndex.of g).tables.action top k = .reduce number ∨
      sure = false ∧ (GrammarIndex.of g).tables.action top k = .error) ∧
    g.productions[number]? = some production ∧
    states.drop production.rhs.length = origin :: lower ∧
    (GrammarIndex.of g).tables.goto? origin production.lhs = some target ∧
    Show g views (target :: origin :: lower)
  | .accepted => ∃ top below, states = top :: below ∧
    (GrammarIndex.of g).tables.action top k = .accept
  | .rejected => ∃ top below, states = top :: below ∧
    (GrammarIndex.of g).tables.action top k = .error

end Outlook

section

open Outlook

variable {o : Outlook} {g : Grammar} {state : Nat} {kernel : List Item} {v : View} {x : Prospect}
  {k : TokenKind} {views : List View} {states : List Nat} (ho : o.Fits g) (hg : g.WellFormed)
  (hstart : g.StartIsolated) (hkind : k ∈ TokenKind.all)

include ho hg hkind in
/-- What a state completes before a terminal is due. -/
theorem View.Of.due_of_completed {q : Nat} (h : v.Of g state kernel)
    (hq : GrammarIndex.Completed g state q k) : ∃ x ∈ o.due v k, x.number = q := by
  have hlooks : g.Looks state (g.ended q) k := hq
  obtain ⟨x, hx, hitem⟩ := h.mem_items ho (Grammar.itemOf_of_looks hg h.hasKernel hlooks)
  rw [Grammar.next?_ended] at hx
  have hholds := h.holds_items ho hx
  have hafter : x.after = [] := by
    rw [← List.head?_eq_none_iff, ← hholds.next?_eq, hitem, Grammar.next?_ended]
  have hfollow := ho.follow h.hasKernel hkind hlooks
  rw [← hitem, hholds.lhsOf_eq] at hfollow
  refine ⟨x, List.mem_filter.mpr ⟨hx, ?_⟩, congrArg Item.production hitem⟩
  rw [hafter, hasBit_eq, hasBit_eq, hfollow, Bool.or_true]
  rfl

include ho hg hstart hkind in
/-- **A state does what its view says.** -/
theorem View.Of.holds_move? {move : Move} (h : v.Of g state kernel)
    (hmove : o.move? v k = some move) : move.Holds g state k := by
  unfold Outlook.move? at hmove
  split at hmove
  · rename_i hblocked
    have hfree : g.itemGraph.edge? state (.terminal k) = none :=
      h.edge_eq_none ho hg hkind (List.isEmpty_iff.mp hblocked)
    split at hmove
    · rename_i hdue
      obtain rfl := Option.some.inj hmove
      refine Grammar.action_of_none hg hstart h.hasKernel hfree fun q hq => ?_
      obtain ⟨x, hx, _⟩ := h.due_of_completed ho hg hkind hq
      rw [hdue] at hx
      cases hx
    · rename_i x hdue
      have hsole : ∀ q, GrammarIndex.Completed g state q k → q = x.number := by
        intro q hq
        obtain ⟨y, hy, hnumber⟩ := h.due_of_completed ho hg hkind hq
        rw [hdue, List.mem_singleton] at hy
        exact hnumber ▸ hy ▸ rfl
      obtain ⟨hx, hcond⟩ := List.mem_filter.mp (hdue ▸ List.mem_singleton_self x : x ∈ o.due v k)
      have hholds := h.holds_items ho hx
      have hafter := List.isEmpty_iff.mp (Bool.and_eq_true_iff.mp hcond).1
      have hacts (hbit : x.looks.testBit k.column = true) :
          (GrammarIndex.of g).tables.action state k =
            if x.number = 0 ∧ k = .eof then .accept else .reduce x.number :=
        Grammar.action_of_sole hg hstart h.hasKernel hfree hsole hkind
          (hholds.item_eq_ended hafter ▸ hholds.looks k hkind hbit)
      split at hmove
      · rename_i hzero
        split at hmove
        · rename_i heof
          obtain rfl := Option.some.inj hmove
          exact (hacts heof.2).trans (if_pos ⟨hzero, heof.1⟩)
        · cases hmove
      · rename_i hzero
        obtain rfl := Option.some.inj hmove
        refine ⟨?_, ?_⟩
        · cases hbit : x.looks.testBit k.column with
          | true => exact .inl ((hacts hbit).trans (if_neg fun hboth => hzero hboth.1))
          | false =>
              by_cases herror : (GrammarIndex.of g).tables.action state k = .error
              · exact .inr ⟨rfl, herror⟩
              · left
                obtain ⟨_, ⟨target, hedge, _⟩ | hmem⟩ :=
                  GrammarIndex.action_cases hg hstart h.hasKernel herror
                · rw [hfree] at hedge
                  cases hedge
                · obtain ⟨q, hq, haction⟩ :=
                    GrammarIndex.completed_of_mem_reductions hg h.hasKernel hmem
                  obtain rfl := hsole q hq
                  exact haction.trans (if_neg fun hboth => hzero hboth.1)
        · obtain ⟨production, hp, hlhs, hdot, hdrop⟩ := hholds.production
          exact ⟨production, hp, hlhs,
            Nat.le_antisymm (List.drop_eq_nil_iff.mp (hdrop.trans hafter)) hdot⟩
    · cases hmove
  · obtain ⟨next, hnext, rfl⟩ := Option.map_eq_some_iff.mp hmove
    obtain ⟨target, hedge, hshows⟩ := h.next? ho hg hnext
    exact ⟨target, GrammarIndex.action_of_edge hg h.hasKernel hkind hedge, hshows⟩

include ho hg hstart hkind in
/-- **A stack turns as its views say.** -/
theorem Outlook.holds_turn? {turned : Turned} (h : Show g views states)
    (hturn : o.turn? k views = some turned) : turned.Holds g states k := by
  cases h with
  | nil => cases hturn
  | @cons v state below lower hv hbelow =>
      obtain ⟨kernel, hof⟩ := hv
      have hshow : Show g (v :: below) (state :: lower) := .cons ⟨kernel, hof⟩ hbelow
      unfold turn? at hturn
      dsimp only at hturn
      cases hmove : o.move? v k with
      | none => rw [hmove] at hturn; cases hturn
      | some move =>
          have hholds := hof.holds_move? ho hg hstart hkind hmove
          rw [hmove] at hturn
          cases move with
          | shift next =>
              obtain rfl := Option.some.inj hturn
              obtain ⟨target, haction, hnext⟩ := hholds
              exact ⟨state, lower, target, rfl, haction, .cons hnext hshow⟩
          | accept =>
              obtain rfl := Option.some.inj hturn
              exact ⟨state, lower, rfl, hholds⟩
          | error =>
              obtain rfl := Option.some.inj hturn
              exact ⟨state, lower, rfl, hholds⟩
          | reduce number lhs arity sure =>
              obtain ⟨haction, production, hp, rfl, rfl⟩ := hholds
              have hdropped : Show g ((v :: below).drop production.rhs.length)
                  ((state :: lower).drop production.rhs.length) := List.forall₂_drop _ hshow
              dsimp only at hturn
              generalize (v :: below).drop production.rhs.length = dropped at hturn hdropped
              generalize hlower : (state :: lower).drop production.rhs.length = under at hdropped
              cases hdropped with
              | nil => cases hturn
              | @cons top origin rest lowest htop hrest =>
                  obtain ⟨next, hnext, rfl⟩ := Option.map_eq_some_iff.mp hturn
                  obtain ⟨kernel', hof'⟩ := htop
                  obtain ⟨target, hedge, hshows⟩ := hof'.next? ho hg hnext
                  exact ⟨state, lower, production, origin, lowest, target, rfl, haction, hp, hlower,
                    (GrammarIndex.goto?_eq hof'.hasKernel _).trans hedge,
                    .cons hshows (.cons ⟨kernel', hof'⟩ hrest)⟩

end

/-! ### What becomes of kinds -/

section

open Outlook Grammar
open Automaton (ofGrammar)

variable {o : Outlook} {g : Grammar} {views : List View} {states : List Nat} {k : TokenKind}
  (ho : o.Fits g) (hg : g.WellFormed) (hstart : g.StartIsolated)

/-- A kind that is fed to a stack comes to what is said. -/
def Outlook.Fed.Holds (g : Grammar) (fate : Fate) : Fed → Prop
  | .shifted views => ∃ states, fate = .shifted states ∧ Show g views states
  | .accepted => fate = .accepted
  | .rejected => fate = .rejected

include ho hg hstart in
/-- **A stack is fed a kind as its views say.** -/
theorem Outlook.feedWithin_of_feed? {turns gas : Nat} {fed : Fed} (hkind : k ∈ TokenKind.all)
    (hgas : turns ≤ gas) (h : Show g views states) (hfed : o.feed? k turns views = some fed) :
    fed.Holds g ((ofGrammar g).feedWithin k gas states) := by
  induction turns generalizing gas views states fed with
  | zero => cases hfed
  | succ turns ih =>
      obtain ⟨gas, rfl⟩ : ∃ n, gas = n + 1 := ⟨gas - 1, by omega⟩
      unfold feed? at hfed
      cases hturn : o.turn? k views with
      | none => rw [hturn] at hfed; cases hfed
      | some turned =>
          have hholds := holds_turn? ho hg hstart hkind h hturn
          rw [hturn] at hfed
          cases turned with
          | shifted next =>
              obtain rfl := Option.some.inj hfed
              obtain ⟨top, below, target, rfl, haction, hshow⟩ := hholds
              exact ⟨target :: top :: below,
                Automaton.feedWithin_of_shift (a := ofGrammar g) haction, hshow⟩
          | accepted =>
              obtain rfl := Option.some.inj hfed
              obtain ⟨top, below, rfl, haction⟩ := hholds
              exact Automaton.feedWithin_of_accept (a := ofGrammar g) haction
          | rejected =>
              obtain rfl := Option.some.inj hfed
              obtain ⟨top, below, rfl, haction⟩ := hholds
              exact Automaton.feedWithin_of_error (a := ofGrammar g) haction
          | reduced number sure next =>
              obtain ⟨top, below, production, origin, lower, target, rfl, haction, hp, hdrop, hgoto,
                hshow⟩ := hholds
              have hreduce : (ofGrammar g).reduce? (top :: below) number =
                  some (target :: origin :: lower) := reduce?_of_goto hp hdrop hgoto
              dsimp only at hfed
              cases hnext : o.feed? k turns next with
              | none =>
                  rw [hnext] at hfed
                  cases sure <;> cases hfed
              | some fed' =>
                  have hlater : fed'.Holds g
                      ((ofGrammar g).feedWithin k gas (target :: origin :: lower)) :=
                    ih (by omega) hshow hnext
                  rw [hnext] at hfed
                  have hcases : fed' = .rejected ∧ fed = .rejected ∨ sure = true ∧ fed = fed' := by
                    cases fed' with
                    | rejected => exact .inl ⟨rfl, (Option.some.inj hfed).symm⟩
                    | shifted | accepted =>
                        cases sure with
                        | true => exact .inr ⟨rfl, (Option.some.inj hfed).symm⟩
                        | false => cases hfed
                  rcases haction with hact | ⟨rfl, hact⟩
                  · rw [Automaton.feedWithin_of_reduce (a := ofGrammar g) hact hreduce]
                    rcases hcases with ⟨rfl, rfl⟩ | ⟨_, rfl⟩
                    · exact hlater
                    · exact hlater
                  · obtain ⟨_, rfl⟩ := hcases.resolve_right fun hsure => nomatch hsure.1
                    exact Automaton.feedWithin_of_error (a := ofGrammar g) hact

include ho hg hstart in
theorem Outlook.feed_of_feed? {fed : Fed} (hkind : k ∈ TokenKind.all) (h : Show g views states)
    (hfed : o.feed? k feedTurns views = some fed) : fed.Holds g ((ofGrammar g).feed states k) :=
  feedWithin_of_feed? ho hg hstart hkind (by decide) h hfed

theorem TokenKind.halves_mem_all {first rest : TokenKind} (h : k.halves? = some (first, rest)) :
    first ∈ TokenKind.all ∧ rest ∈ TokenKind.all := by
  cases k <;> cases h <;> decide

include ho hg hstart in
theorem Outlook.feedOrSplit_of_feedOrSplit? {gas : Nat} {fed : Fed} (hkind : k ∈ TokenKind.all)
    (h : Show g views states) (hfed : o.feedOrSplit? gas k views = some fed) :
    fed.Holds g ((ofGrammar g).feedOrSplit states k) := by
  induction gas generalizing k views states with
  | zero => cases hfed
  | succ gas ih =>
      unfold feedOrSplit? at hfed
      split at hfed
      · rename_i hrejected
        have hfeed : (ofGrammar g).feed states k = .rejected :=
          feed_of_feed? ho hg hstart hkind h hrejected
        split at hfed
        · rename_i hwhole
          obtain rfl := Option.some.inj hfed
          exact Automaton.feedOrSplit_of_rejected hfeed hwhole
        · rename_i first rest hhalves
          obtain ⟨hfirst, hrest⟩ := TokenKind.halves_mem_all hhalves
          rw [Automaton.feedOrSplit_of_halves hfeed hhalves]
          split at hfed
          · rename_i next hnext
            obtain ⟨states', hshifted, hshow⟩ := feed_of_feed? ho hg hstart hfirst h hnext
            rw [hshifted]
            exact ih hrest hshow hfed
          · rename_i hnot
            have hholds := feed_of_feed? ho hg hstart hfirst h hfed
            cases fed with
            | shifted next => exact absurd hfed (hnot next)
            | accepted | rejected =>
                rw [show (ofGrammar g).feed states first = _ from hholds]
                rfl
      · rename_i hnot
        have hholds := feed_of_feed? ho hg hstart hkind h hfed
        cases fed with
        | shifted next =>
            obtain ⟨states', hshifted, hshow⟩ := hholds
            exact ⟨states', Automaton.feedOrSplit_of_shifted hshifted, hshow⟩
        | accepted => exact Automaton.feedOrSplit_of_accepted hholds
        | rejected => exact absurd hfed hnot

include ho hg hstart in
/-- **The automaton reads kinds, or does not, as views say.** -/
theorem Outlook.accepts_of_reads? {kinds : List TokenKind} {reads : Bool}
    (hkinds : ∀ k ∈ kinds, k ∈ TokenKind.all) (h : Show g views states)
    (hreads : o.reads? kinds views = some reads) :
    (ofGrammar g).accepts states kinds = reads := by
  induction kinds generalizing views states with
  | nil =>
      obtain rfl := Option.some.inj hreads
      rfl
  | cons k kinds ih =>
      have hrest := fun j hj => hkinds j (List.mem_cons_of_mem k hj)
      unfold reads? at hreads
      cases hfed : o.feedOrSplit? k.brackets k views with
      | none => rw [hfed] at hreads; cases hreads
      | some fed =>
          have hholds :=
            feedOrSplit_of_feedOrSplit? ho hg hstart (hkinds k List.mem_cons_self) h hfed
          rw [hfed] at hreads
          rw [Automaton.accepts]
          cases fed with
          | shifted next =>
              obtain ⟨states', hfeed, hshow⟩ := hholds
              rw [hfeed]
              exact ih hrest hshow hreads
          | accepted =>
              obtain rfl := Option.some.inj hreads
              rw [show (ofGrammar g).feedOrSplit states k = .accepted from hholds]
          | rejected =>
              obtain rfl := Option.some.inj hreads
              rw [show (ofGrammar g).feedOrSplit states k = .rejected from hholds]

end

/-! ### The same state twice -/

section

variable {g : Grammar} {v w : View} {state other : Nat}

/-- **Views with the same kernel items are of the same state.** -/
theorem View.Shows.eq_of_items (hg : g.WellFormed) (h : v.Shows g state) (h' : w.Shows g other)
    (hitems : v.kernel.map Prospect.item = w.kernel.map Prospect.item) : state = other := by
  obtain ⟨kernel, hof⟩ := h
  obtain ⟨kernel', hof'⟩ := h'
  -- the items in the kernel of a view are items of its state, and all that are in the kernel
  have hwithin : ∀ {v w : View} {state other : Nat} {kernel kernel' : List Item},
      v.Of g state kernel → w.Of g other kernel' →
        v.kernel.map Prospect.item = w.kernel.map Prospect.item → ∀ i, g.ItemOf kernel i →
          g.ItemOf kernel' i := by
    intro v w state other kernel kernel' hof hof' hitems i hi
    induction hi with
    | kernel hi =>
        obtain ⟨x, hx, rfl⟩ := hof.mem _ hi
        obtain ⟨y, hy, hitem⟩ := List.mem_map.mp (hitems ▸ List.mem_map_of_mem hx)
        exact hitem ▸ (hof'.holds y hy).itemOf
    | start _ hnext hp ih => exact .start ih hnext hp
  refine hg.state_eq_of_itemsOf hof.hasKernel hof'.hasKernel (Set.ext fun i => ⟨?_, ?_⟩)
  · exact hwithin hof hof' hitems i
  · exact hwithin hof' hof hitems.symm i

end

end AspectLang
