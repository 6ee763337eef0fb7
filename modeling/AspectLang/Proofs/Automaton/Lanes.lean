import AspectLang.Proofs.Automaton.CanonicalSets

/-! # First and follow sets in one number

`Lanes` holds a set of columns for every nonterminal in a single number, cut into lanes of equal
width; a last bit of each lane, the `mark`, is no column.  In the lanes of first sets the mark says
that the nonterminal can vanish.  Numbers are fast to compute with, so what can begin and what can
follow each nonterminal of a large grammar is found without its tables.

The rounds of `growFirst` add nothing that does not begin a nonterminal (`Derives.growFirst`), and
lanes that no production adds to lack nothing (`bounds_of_firstSettled`).  Of follow sets only the
second is needed: lanes that no production adds to have all that the states of the automaton look
for after a production (`follows_of_looks`). -/

namespace AspectLang

/-- A set of columns with a mark for each nonterminal, in one number. -/
abbrev Lanes := Nat

namespace Lanes

/-- The bit of a lane that is no column. -/
def mark : Nat := TokenKind.columnCount

/-- Bits of a lane. -/
def width : Nat := mark + 1

/-- The set for a nonterminal. -/
def lane (m : Lanes) (id : Nat) : Nat := (m >>> (width * id)) % 2 ^ width

/-- Adds a set to that of a nonterminal. -/
def join (m : Lanes) (id set : Nat) : Lanes := m ||| (set % 2 ^ width) <<< (width * id)

theorem mark_lt_width : mark < width := Nat.lt_succ_self mark

theorem testBit_lane (m : Lanes) (id c : Nat) :
    (m.lane id).testBit c = (decide (c < width) && Nat.testBit m (width * id + c)) := by
  unfold lane
  rw [Nat.testBit_mod_two_pow, Nat.testBit_shiftRight]

theorem testBit_lane_zero (id c : Nat) : (lane 0 id).testBit c = false := by
  rw [testBit_lane, Nat.zero_testBit, Bool.and_false]

/-- The lanes of two together. -/
theorem testBit_lane_or (m n : Lanes) (id c : Nat) :
    (lane (m ||| n : Nat) id).testBit c = ((m.lane id).testBit c || (n.lane id).testBit c) := by
  rw [testBit_lane, testBit_lane, testBit_lane, Nat.testBit_or, Bool.and_or_distrib_left]

/-- The bits of a lane after a set was added. -/
theorem testBit_lane_join (m : Lanes) (id set other c : Nat) :
    ((m.join id set).lane other).testBit c =
      ((m.lane other).testBit c || decide (other = id ∧ c < width) && set.testBit c) := by
  rw [testBit_lane, testBit_lane, join, Nat.testBit_or, Nat.testBit_shiftLeft,
    Nat.testBit_mod_two_pow]
  by_cases hc : c < width
  · rcases Nat.lt_trichotomy other id with hlt | rfl | hgt
    · have hbelow : ¬ width * id ≤ width * other + c := by
        have := Nat.mul_le_mul_left width hlt
        rw [Nat.mul_succ] at this
        omega
      simp [hc, hbelow, hlt.ne]
    · simp [hc]
    · have habove : ¬ width * other + c - width * id < width := by
        have := Nat.mul_le_mul_left width hgt
        rw [Nat.mul_succ] at this
        omega
      simp [hc, habove, hgt.ne']
  · simp [hc]

theorem testBit_join_of {m : Lanes} {id set other c : Nat}
    (h : (m.lane other).testBit c = true) : ((m.join id set).lane other).testBit c = true := by
  rw [testBit_lane_join, h, Bool.true_or]

/-- A set that adds nothing is in the lane. -/
theorem testBit_of_join_eq {m : Lanes} {id set c : Nat} (h : m.join id set = m) (hc : c < width)
    (hset : set.testBit c = true) : (m.lane id).testBit c = true := by
  rw [← h, testBit_lane_join, hset]
  simp [hc]

/-! ### What symbols begin with -/

/-- What symbols begin with when a set comes after them, by the lanes of first sets. -/
def headSet (m : Lanes) : List Symbol → Nat → Nat
  | [], set => set
  | .terminal k :: _, _ => (1 <<< k.column) % 2 ^ mark
  | .nonterminal id :: rest, set =>
    bif hasBit (m.lane id) mark then (m.lane id) % 2 ^ mark ||| m.headSet rest set else m.lane id

/-- The lanes as a guess at what begins with the terminal of a column. -/
def bound (m : Lanes) (c : Nat) : FirstBound where
  column := c
  vanishes id := (m.lane id).testBit mark
  begins id := (m.lane id).testBit c

theorem testBit_headSet {m : Lanes} {c set : Nat} {symbols : List Symbol} (hc : c < mark) :
    (m.headSet symbols set).testBit c =
      ((m.bound c).starts symbols || (m.bound c).empties symbols && set.testBit c) := by
  induction symbols with
  | nil => rfl
  | cons s rest ih =>
      cases s with
      | terminal k =>
          change ((1 <<< k.column) % 2 ^ mark).testBit c = ((k.column == c) || false && _)
          rw [Nat.testBit_mod_two_pow, Nat.one_shiftLeft, Nat.testBit_two_pow, decide_eq_true hc,
            Bool.true_and, Bool.false_and, Bool.or_false]
          rfl
      | nonterminal id =>
          unfold headSet
          change _ = ((m.lane id).testBit c || (m.lane id).testBit mark && (m.bound c).starts rest ||
            (m.lane id).testBit mark && (m.bound c).empties rest && set.testBit c)
          rw [hasBit_eq]
          cases (m.lane id).testBit mark with
          | false => simp
          | true =>
              rw [cond_true, Nat.testBit_or, Nat.testBit_mod_two_pow, decide_eq_true hc, ih]
              simp [Bool.or_assoc]

theorem testBit_mark_headSet {m : Lanes} {set : Nat} {symbols : List Symbol} (c : Nat) :
    (m.headSet symbols set).testBit mark = ((m.bound c).empties symbols && set.testBit mark) := by
  induction symbols with
  | nil => rfl
  | cons s rest ih =>
      cases s with
      | terminal k =>
          change ((1 <<< k.column) % 2 ^ mark).testBit mark = (false && _)
          simp [Nat.testBit_mod_two_pow]
      | nonterminal id =>
          unfold headSet
          change _ = ((m.lane id).testBit mark && (m.bound c).empties rest && set.testBit mark)
          rw [hasBit_eq]
          cases hmark : (m.lane id).testBit mark with
          | false => simp [hmark]
          | true =>
              rw [cond_true, Nat.testBit_or, Nat.testBit_mod_two_pow, ih]
              simp

/-! ### First sets -/

/-- What a production adds to the lanes of first sets. -/
def addFirst (m : Lanes) (p : Production) : Lanes :=
  m.join p.lhs (m.headSet p.rhs (1 <<< mark))

/-- A round over productions. -/
def growFirst (productions : List Production) (m : Lanes) : Lanes := productions.foldl addFirst m

/-- Whether no production adds anything. -/
def firstSettled (productions : List Production) (m : Lanes) : Bool :=
  productions.all fun p => m.addFirst p == m

/-- All that is in the lanes begins a nonterminal, and what is marked can vanish. -/
structure Derives (g : Grammar) (m : Lanes) : Prop where
  vanishes : ∀ id, (m.lane id).testBit mark = true → g.Derives [.nonterminal id] []
  begins : ∀ id (k : TokenKind), k.column < mark → (m.lane id).testBit k.column = true →
    g.CanBegin [.nonterminal id] k

section

variable {g : Grammar} {m : Lanes}

theorem derives_zero : Derives g 0 where
  vanishes id h := by rw [testBit_lane_zero] at h; cases h
  begins id k _ h := by rw [testBit_lane_zero] at h; cases h

theorem Derives.derives_nil (h : m.Derives g) {c : Nat} {symbols : List Symbol}
    (hempties : (m.bound c).empties symbols = true) : g.Derives symbols [] := by
  induction symbols with
  | nil => exact .refl
  | cons s rest ih =>
      cases s with
      | terminal k => cases hempties
      | nonterminal id =>
          obtain ⟨hid, hrest⟩ := Bool.and_eq_true_iff.mp hempties
          exact (h.vanishes id hid).append (ih hrest)

theorem Derives.canBegin (h : m.Derives g) {k : TokenKind} (hk : k.column < mark)
    {symbols : List Symbol} (hstarts : (m.bound k.column).starts symbols = true) :
    g.CanBegin symbols k := by
  induction symbols with
  | nil => cases hstarts
  | cons s rest ih =>
      cases s with
      | terminal t =>
          obtain rfl : t = k := TokenKind.column_injective (beq_iff_eq.mp hstarts)
          exact Grammar.canBegin_terminal t rest
      | nonterminal id =>
          rcases Bool.or_eq_true_iff.mp hstarts with hbegins | hmore
          · exact (h.begins id k hk hbegins).append rest
          · obtain ⟨hid, hrest⟩ := Bool.and_eq_true_iff.mp hmore
            exact .after_empty (h.vanishes id hid) (ih hrest)

/-- The right side of a production adds nothing else. -/
theorem Derives.addFirst (h : m.Derives g) {p : Production} (hp : p ∈ g.productions) :
    (m.addFirst p).Derives g := by
  obtain ⟨number, hnumber⟩ := Array.mem_iff_getElem?.mp hp
  have hrhs := Grammar.derives_rhs hnumber
  refine ⟨fun id hid => ?_, fun id k hk hid => ?_⟩
  · rw [Lanes.addFirst, testBit_lane_join, Bool.or_eq_true, Bool.and_eq_true,
      decide_eq_true_eq, testBit_mark_headSet 0, Bool.and_eq_true] at hid
    rcases hid with hold | ⟨⟨rfl, _⟩, hempties, _⟩
    · exact h.vanishes id hold
    · exact hrhs.trans (h.derives_nil hempties)
  · rw [Lanes.addFirst, testBit_lane_join, Bool.or_eq_true, Bool.and_eq_true,
      decide_eq_true_eq, testBit_headSet hk, Nat.one_shiftLeft, Nat.testBit_two_pow,
      decide_eq_false hk.ne', Bool.and_false, Bool.or_false] at hid
    rcases hid with hold | ⟨⟨rfl, _⟩, hstarts⟩
    · exact h.begins id k hk hold
    · exact .of_derives hrhs (h.canBegin hk hstarts)

theorem Derives.growFirst {productions : List Production}
    (hall : ∀ p ∈ productions, p ∈ g.productions) (h : m.Derives g) :
    (m.growFirst productions).Derives g := by
  unfold Lanes.growFirst
  induction productions generalizing m with
  | nil => exact h
  | cons p rest ih =>
      exact ih (fun q hq => hall q (List.mem_cons_of_mem p hq))
        (h.addFirst (hall p List.mem_cons_self))

theorem Derives.rounds {productions : List Production}
    (hall : ∀ p ∈ productions, p ∈ g.productions) (n : Nat) :
    Derives g ((Lanes.growFirst productions)^[n] 0) := by
  induction n with
  | zero => exact derives_zero
  | succ n ih =>
      rw [Function.iterate_succ_apply']
      exact ih.growFirst hall

/-- **Lanes that no production adds to bound the first sets.** -/
theorem bounds_of_firstSettled (h : firstSettled g.productions.toList m = true) {c : Nat}
    (hc : c < mark) : (m.bound c).Bounds g.firstSets := by
  refine FirstBound.bounds_firstSets fun p hp => ?_
  have heq : m.addFirst p = m :=
    beq_iff_eq.mp (List.all_eq_true.mp h p (Array.mem_toList_iff.mpr hp))
  have hmarked : (1 <<< mark).testBit mark = true := by
    rw [Nat.one_shiftLeft, Nat.testBit_two_pow_self]
  unfold FirstBound.allows
  rw [Bool.and_eq_true, Bool.or_eq_true, Bool.or_eq_true, Bool.not_eq_true', Bool.not_eq_true']
  constructor
  · refine (Bool.eq_false_or_eq_true _).symm.imp_right fun hempties => ?_
    refine testBit_of_join_eq heq mark_lt_width ?_
    rw [testBit_mark_headSet c, hempties, hmarked]
    rfl
  · refine (Bool.eq_false_or_eq_true _).symm.imp_right fun hstarts => ?_
    refine testBit_of_join_eq heq (Nat.lt_succ_of_lt hc) ?_
    rw [testBit_headSet hc, hstarts, Bool.true_or]

end

/-! ### Follow sets -/

/-- Adds to the lanes of follow sets what comes after each symbol of a right side, with `set`
after the whole. -/
def addFollowers (first : Lanes) (set : Nat) : List Symbol → Lanes → Lanes
  | [], m => m
  | .terminal _ :: rest, m => addFollowers first set rest m
  | .nonterminal id :: rest, m => addFollowers first set rest (m.join id (first.headSet rest set))

/-- A round over productions. -/
def growFollow (first : Lanes) (productions : List Production) (m : Lanes) : Lanes :=
  productions.foldl (fun m p => addFollowers first (m.lane p.lhs) p.rhs m) m

/-- Whether the lanes have all that comes after each symbol of a right side. -/
def hasFollowers (first : Lanes) (m : Lanes) (set : Nat) : List Symbol → Bool
  | [] => true
  | .terminal _ :: rest => hasFollowers first m set rest
  | .nonterminal id :: rest =>
    m.join id (first.headSet rest set) == m && hasFollowers first m set rest

/-- Whether no production adds anything, and the end of input comes after the start. -/
def followSettled (first : Lanes) (start : Nat) (productions : List Production) (m : Lanes) : Bool :=
  (m.lane start).testBit TokenKind.eof.column &&
    productions.all fun p => hasFollowers first m (m.lane p.lhs) p.rhs

section

variable {g : Grammar} {first m : Lanes}

theorem followsWithin_of_hasFollowers {c lhs : Nat} (hc : c < mark) {symbols : List Symbol}
    (h : hasFollowers first m (m.lane lhs) symbols = true) :
    GrammarIndex.followsWithin (first.bound c) (fun id => (m.lane id).testBit c) lhs symbols =
      true := by
  induction symbols with
  | nil => rfl
  | cons s rest ih =>
      cases s with
      | terminal k => exact ih h
      | nonterminal id =>
          obtain ⟨heq, hrest⟩ := Bool.and_eq_true_iff.mp h
          refine Bool.and_eq_true_iff.mpr ⟨?_, ih hrest⟩
          cases hcomes : (first.bound c).starts rest ||
              ((first.bound c).empties rest && (m.lane lhs).testBit c) with
          | false => rw [Bool.not_false, Bool.or_true]
          | true =>
              have hin := testBit_of_join_eq (beq_iff_eq.mp heq) (Nat.lt_succ_of_lt hc)
                ((testBit_headSet hc).trans hcomes)
              exact Bool.or_eq_true_iff.mpr (.inl hin)

/-- **Lanes that no production adds to bound the lookaheads**: they have what a state looks for
after a production. -/
theorem follows_of_looks (hg : g.WellFormed)
    (hfirst : firstSettled g.productions.toList first = true)
    (hfollow : followSettled first (g.lhsOf 0) g.productions.toList m = true) {state : Nat}
    {kernel : List Item} (hk : g.itemGraph.kernels[state]? = some kernel) {i : Item}
    {k : TokenKind} (hkind : k ∈ TokenKind.all) (h : g.Looks state i k) :
    (m.lane (g.lhsOf i.production)).testBit k.column = true := by
  obtain ⟨hstart, hall⟩ := Bool.and_eq_true_iff.mp hfollow
  have hc : k.column < mark := Grammar.column_lt_of_mem_all hkind
  obtain ⟨follow, hi, hhas⟩ := h
  have hstart' : k.column = TokenKind.eof.column →
      (m.lane (g.lhsOf 0)).testBit k.column = true := fun heof => heof ▸ hstart
  generalize k.column = c at hc hhas hstart' ⊢
  have hbound : GrammarIndex.FollowBound g c
      fun _ i => (m.lane (g.lhsOf i.production)).testBit c = true :=
    @GrammarIndex.followBound_of_follows g (first.bound c) (fun id => (m.lane id).testBit c)
      (bounds_of_firstSettled hfirst hc) hstart' fun p hp => followsWithin_of_hasFollowers hc
        (List.all_eq_true.mp hall p (Array.mem_toList_iff.mpr hp))
  have hfollows := hbound.of_mem_stateItems hg hk hi hhas
  exact hfollows

end

end Lanes

end AspectLang
