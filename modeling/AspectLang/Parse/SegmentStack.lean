/-! # Stacks of segments

A `SegmentStack` keeps its items in one list and, in a second one, how many items each symbol
of the grammar contributed, so that a reduction can take back exactly its own.  Where the
lengths add up to the number of items, the stack is a stack of lists.  An operation that fails
still leaves its traces: what it had taken off before it failed stays off. -/

namespace AspectLang

/-- Ways in which an operation on a stack of segments fails. -/
inductive SegmentFault where
  /-- There are fewer segments or items than the operation needs. -/
  | underflow
  /-- The topmost segment has another length than the operation needs. -/
  | arity (expected found : Nat)
deriving DecidableEq, Inhabited, Repr

/-- Items and the lengths of their segments, the topmost first. -/
structure SegmentStack (α : Type) where
  items : List α := []
  lengths : List Nat := []
deriving DecidableEq, Inhabited, Repr

namespace SegmentStack

variable {α : Type}

/-- An operation that may fail and changes the stack either way. -/
abbrev Op (α β : Type) := EStateM SegmentFault (SegmentStack α) β

/-! ### Adding -/

/-- Adds one item as a segment of its own. -/
def push (a : α) (s : SegmentStack α) : SegmentStack α := ⟨a :: s.items, 1 :: s.lengths⟩

/-- Adds items as one segment. -/
def pushSegment (segment : List α) (s : SegmentStack α) : SegmentStack α :=
  ⟨segment.reverse ++ s.items, segment.length :: s.lengths⟩

/-- Adds the length of a segment without its items; zero makes an empty segment. -/
def pushLength (n : Nat) (s : SegmentStack α) : SegmentStack α :=
  { s with lengths := n :: s.lengths }

/-! ### Taking -/

/-- Joins the two topmost segments. -/
def concat : Op α Unit := fun s =>
  match s.lengths with
  | [] => .error .underflow s
  | [_] => .error .underflow { s with lengths := [] }
  | top :: below :: rest => .ok () { s with lengths := (below + top) :: rest }

/-- Takes the topmost segment, which must hold one item. -/
def pop : Op α α := fun s =>
  match s.lengths with
  | [] => .error .underflow s
  | n :: lengths =>
    if n = 1 then
      match s.items with
      | [] => .error .underflow { s with lengths }
      | a :: items => .ok a ⟨items, lengths⟩
    else .error (.arity 1 n) { s with lengths }

/-- Takes the topmost segment, in the order in which its items were added. -/
def popSegment : Op α (List α) := fun s =>
  match s.lengths with
  | [] => .error .underflow s
  | n :: lengths =>
    let segment := s.items.take n
    if segment.length < n then .error .underflow { s with lengths }
    else .ok segment.reverse ⟨s.items.drop n, lengths⟩

/-- Takes the topmost segment, which must hold at most one item. -/
def popOptional : Op α (Option α) := do
  match ← popSegment with
  | [] => return none
  | [a] => return some a
  | segment => throw (.arity 1 segment.length)

/-! ### Looking -/

/-- The topmost item. -/
def peek : Op α α := fun s =>
  match s.items with
  | [] => .error .underflow s
  | a :: _ => .ok a s

/-- Changes the topmost item. -/
def modifyTop (change : α → α) : Op α Unit := fun s =>
  match s.items with
  | [] => .error .underflow s
  | a :: items => .ok () { s with items := change a :: items }

/-- The length of the topmost segment. -/
def topLength? (s : SegmentStack α) : Option Nat := s.lengths.head?

/-- Every item, the lowest first. -/
def toList (s : SegmentStack α) : List α := s.items.reverse

/-- Number of items. -/
def depth (s : SegmentStack α) : Nat := s.items.length

/-- Number of segments. -/
def segmentCount (s : SegmentStack α) : Nat := s.lengths.length

/-- Whether there are neither items nor segments. -/
def isEmpty (s : SegmentStack α) : Bool := s.items.isEmpty && s.lengths.isEmpty

/-- The stack without items and segments. -/
def empty : SegmentStack α := ⟨[], []⟩

end SegmentStack

end AspectLang
