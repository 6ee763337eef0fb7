import AspectLang.Parse.SegmentStack

/-! # Shapes of segments

A `Shape` tells what the items of a segment are, by a role, and how many there are.  A stack
`Fits` a list of shapes, the topmost first, when its lengths add up and its segments are of these
shapes.  An operation on a stack that fits finds what it needs, and leaves a stack that fits
(`Fits.pop`, `Fits.concat` and the like); shapes may be exchanged for wider ones
(`Fits.widen`). -/

namespace AspectLang

/-- How many items a segment holds. -/
inductive Count where
  | none | one | optional | some | many
deriving DecidableEq

namespace Count

variable {c d : Count} {n m : Nat}

/-- A segment may hold that many items. -/
def Allows : Count → Nat → Prop
  | .none, n => n = 0
  | .one, n => n = 1
  | .optional, n => n ≤ 1
  | .some, n => 1 ≤ n
  | .many, _ => True

/-- Whether every number that one count allows is allowed by another. -/
def within : Count → Count → Bool
  | _, .many | .none, .none | .none, .optional | .one, .one | .one, .optional | .one, .some
  | .optional, .optional | .some, .some => true
  | _, _ => false

/-- The count of two segments that are joined. -/
def plus : Count → Count → Count
  | .one, _ | .some, _ | _, .one | _, .some => .some
  | _, _ => .many

theorem Allows.within (h : c.Allows n) (hcd : c.within d = true) : d.Allows n := by
  cases c <;> cases d <;> simp_all [Allows, Count.within]

theorem Allows.plus (h : c.Allows n) (h' : d.Allows m) : (c.plus d).Allows (n + m) := by
  cases c <;> cases d <;> simp_all only [Allows, Count.plus] <;> omega

end Count

/-- What a segment holds: the role of its items, and how many there are. -/
structure Shape (κ : Type) where
  role : κ
  count : Count
deriving DecidableEq

variable {κ α : Type} {Has : κ → α → Prop} {k k' : κ}

/-- A segment is of a shape, where `Has` tells which items play a role. -/
structure Shape.Fits (Has : κ → α → Prop) (shape : Shape κ) (segment : List α) : Prop where
  count : shape.count.Allows segment.length
  role : ∀ a ∈ segment, Has shape.role a

/-- Whether every segment of one shape is of another; an empty one plays every role. -/
def Shape.within (below : κ → κ → Bool) (s t : Shape κ) : Bool :=
  s.count.within t.count && (s.count = .none || below s.role t.role)

/-- Whether lists of shapes agree in length and each shape lies within its partner. -/
def Shape.allWithin (below : κ → κ → Bool) : List (Shape κ) → List (Shape κ) → Bool
  | [], [] => true
  | s :: ss, t :: ts => s.within below t && allWithin below ss ts
  | _, _ => false

theorem Shape.Fits.widen {below : κ → κ → Bool} {s t : Shape κ} {segment : List α}
    (hbelow : ∀ k k' a, below k k' = true → Has k a → Has k' a) (h : s.Fits Has segment)
    (hst : s.within below t = true) : t.Fits Has segment := by
  obtain ⟨hcount, hrole⟩ := Bool.and_eq_true_iff.mp hst
  refine ⟨h.count.within hcount, fun a ha => ?_⟩
  rcases Bool.or_eq_true_iff.mp hrole with hnone | hrole
  · have hempty : segment.length = 0 := by
      simpa [Count.Allows, of_decide_eq_true hnone] using h.count
    rw [List.eq_nil_of_length_eq_zero hempty] at ha
    cases ha
  · exact hbelow _ _ a hrole (h.role a ha)

theorem Shape.Fits.singleton {a : α} (h : Has k a) : Shape.Fits Has ⟨k, .one⟩ [a] :=
  ⟨rfl, by simpa using h⟩

theorem Shape.Fits.of_forall {segment : List α} (h : ∀ a ∈ segment, Has k a) :
    Shape.Fits Has ⟨k, .many⟩ segment := ⟨trivial, h⟩

namespace SegmentStack

/-- The segments of a stack are of the given shapes, the topmost first. -/
inductive Fits (Has : κ → α → Prop) : List (Shape κ) → SegmentStack α → Prop
  | empty : Fits Has [] ⟨[], []⟩
  | segment {shapes : List (Shape κ)} {shape : Shape κ} {items segment : List α}
      {lengths : List Nat} : Fits Has shapes ⟨items, lengths⟩ → shape.Fits Has segment →
        Fits Has (shape :: shapes) ⟨segment.reverse ++ items, segment.length :: lengths⟩

variable {s : SegmentStack α} {shape : Shape κ} {shapes : List (Shape κ)}

theorem Fits.widen {below : κ → κ → Bool}
    (hbelow : ∀ k k' a, below k k' = true → Has k a → Has k' a)
    {narrow wide frame : List (Shape κ)} (h : Fits Has (narrow ++ frame) s)
    (hwide : Shape.allWithin below narrow wide = true) : Fits Has (wide ++ frame) s := by
  induction narrow generalizing wide s with
  | nil =>
      cases wide with
      | nil => exact h
      | cons t ts => cases hwide
  | cons shape narrow ih =>
      cases wide with
      | nil => cases hwide
      | cons t ts =>
          obtain ⟨hhead, htail⟩ := Bool.and_eq_true_iff.mp hwide
          cases h with
          | segment hbelow' hsegment =>
              exact .segment (ih hbelow' htail) (hsegment.widen hbelow hhead)

theorem Fits.eq_empty (h : Fits Has [] s) : s = ⟨[], []⟩ := by
  cases h
  rfl

theorem Fits.eq_singleton (h : Fits Has [⟨k, .one⟩] s) : ∃ a, s = ⟨[a], [1]⟩ := by
  cases h with
  | segment hrest hsegment =>
      obtain ⟨a, rfl⟩ := List.length_eq_one_iff.mp hsegment.count
      cases hrest
      exact ⟨a, rfl⟩

theorem Fits.exists_shape (h : Fits Has shapes s) {a : α} (ha : a ∈ s.items) :
    ∃ shape ∈ shapes, Has shape.role a := by
  induction h with
  | empty => cases ha
  | segment _ hsegment ih =>
      rcases List.mem_append.mp ha with ha | ha
      · exact ⟨_, List.mem_cons_self, hsegment.role a (List.mem_reverse.mp ha)⟩
      · obtain ⟨shape, hshape, hrole⟩ := ih ha
        exact ⟨shape, List.mem_cons_of_mem _ hshape, hrole⟩

/-- Other roles may be given to the items, if they play them. -/
theorem Fits.recast {κ' : Type} {Has' : κ' → α → Prop} {g : Shape κ → Shape κ'}
    (h : Fits Has shapes s) (hcount : ∀ shape, (g shape).count = shape.count)
    (hrole : ∀ shape, ∀ a ∈ s.items, Has shape.role a → Has' (g shape).role a) :
    Fits Has' (shapes.map g) s := by
  induction h with
  | empty => exact .empty
  | @segment shapes shape items segment lengths _ hsegment ih =>
      refine .segment (ih fun shape a ha => hrole shape a (List.mem_append_right _ ha)) ⟨?_, ?_⟩
      · rw [hcount]
        exact hsegment.count
      · intro a ha
        have hmem : a ∈ segment.reverse := List.mem_reverse.mpr ha
        exact hrole shape a (List.mem_append_left _ hmem) (hsegment.role a ha)

/-! ### Adding -/

theorem Fits.push {a : α} (h : Fits Has shapes s) (ha : Has k a) :
    Fits Has (⟨k, .one⟩ :: shapes) (s.push a) := .segment h (.singleton ha)

theorem Fits.pushSegment {segment : List α} (h : Fits Has shapes s)
    (hsegment : shape.Fits Has segment) :
    Fits Has (shape :: shapes) (s.pushSegment segment) := .segment h hsegment

theorem Fits.pushEmpty (h : Fits Has shapes s) : Fits Has (⟨k, .none⟩ :: shapes) (s.pushLength 0) := by
  have hempty : Shape.Fits Has ⟨k, .none⟩ [] := ⟨rfl, by simp⟩
  exact .segment h hempty

/-! ### Taking -/

theorem Fits.popSegment (h : Fits Has (shape :: shapes) s) :
    ∃ segment rest, SegmentStack.popSegment s = .ok segment rest ∧ shape.Fits Has segment ∧
      Fits Has shapes rest := by
  cases h with
  | @segment _ _ items segment lengths hrest hsegment =>
      refine ⟨segment, ⟨items, lengths⟩, ?_, hsegment, hrest⟩
      have htake : (segment.reverse ++ items).take segment.length = segment.reverse := by
        rw [← List.length_reverse, List.take_left]
      have hdrop : (segment.reverse ++ items).drop segment.length = items := by
        rw [← List.length_reverse, List.drop_left]
      simp [SegmentStack.popSegment, htake, hdrop]

theorem Fits.pop (h : Fits Has (⟨k, .one⟩ :: shapes) s) :
    ∃ a rest, SegmentStack.pop s = .ok a rest ∧ Has k a ∧ Fits Has shapes rest := by
  cases h with
  | @segment _ _ items segment lengths hrest hsegment =>
      obtain ⟨a, rfl⟩ := List.length_eq_one_iff.mp hsegment.count
      exact ⟨a, ⟨items, lengths⟩, rfl, hsegment.role a (by simp), hrest⟩

theorem Fits.popOptional (h : Fits Has (⟨k, .optional⟩ :: shapes) s) :
    ∃ a rest, SegmentStack.popOptional s = .ok a rest ∧ (∀ x ∈ a, Has k x) ∧
      Fits Has shapes rest := by
  obtain ⟨segment, rest, hpop, hsegment, hrest⟩ := h.popSegment
  unfold SegmentStack.popOptional
  simp only [bind, EStateM.bind, hpop]
  match segment, hsegment with
  | [], _ => exact ⟨none, rest, rfl, by simp, hrest⟩
  | [a], hsegment => exact ⟨some a, rest, rfl, by simpa using hsegment.role, hrest⟩
  | a :: b :: more, hsegment =>
      have htwo : (a :: b :: more).length ≤ 1 := hsegment.count
      simp at htwo

theorem Fits.concat {c d : Count} (h : Fits Has (⟨k, c⟩ :: ⟨k, d⟩ :: shapes) s) :
    ∃ joined, SegmentStack.concat s = .ok () joined ∧
      Fits Has (⟨k, c.plus d⟩ :: shapes) joined := by
  cases h with
  | @segment _ _ _ top _ hbelow htop =>
      cases hbelow with
      | @segment _ _ items below lengths hrest hbelow =>
          have hjoined : Shape.Fits Has ⟨k, c.plus d⟩ (below ++ top) := by
            refine ⟨?_, ?_⟩
            · rw [List.length_append, Nat.add_comm]
              exact htop.count.plus hbelow.count
            · intro a ha
              rcases List.mem_append.mp ha with ha | ha
              · exact hbelow.role a ha
              · exact htop.role a ha
          refine ⟨⟨(below ++ top).reverse ++ items, (below ++ top).length :: lengths⟩, ?_,
            .segment hrest hjoined⟩
          simp [SegmentStack.concat]

/-! ### Looking -/

theorem Fits.peek (h : Fits Has (⟨k, .one⟩ :: shapes) s) :
    ∃ a, SegmentStack.peek s = .ok a s ∧ Has k a := by
  cases h with
  | @segment _ _ items segment lengths hrest hsegment =>
      obtain ⟨a, rfl⟩ := List.length_eq_one_iff.mp hsegment.count
      exact ⟨a, rfl, hsegment.role a (by simp)⟩

theorem Fits.replaceTop {b : α} (h : Fits Has (⟨k, .one⟩ :: shapes) s) (hb : Has k' b) :
    ∃ after, SegmentStack.modifyTop (fun _ => b) s = .ok () after ∧
      Fits Has (⟨k', .one⟩ :: shapes) after := by
  cases h with
  | @segment _ _ items segment lengths hrest hsegment =>
      obtain ⟨a, rfl⟩ := List.length_eq_one_iff.mp hsegment.count
      exact ⟨⟨b :: items, 1 :: lengths⟩, rfl, .segment hrest (.singleton hb)⟩

end SegmentStack

end AspectLang
