import AspectLang.Source.Span

/-! # Lines and columns

A `LineMap` lists the byte offsets at which the lines of a text start, in order.  An offset stands
on the last line that starts at or before it, which is found by halving the list, and its column is
the distance from that start.  Lines and columns count from one, and columns count bytes.  A column
is a 64-bit word, so there is no place for an offset whose column is larger. -/

namespace AspectLang

/-- A place in a text: line and column from one, and the byte offset. -/
structure Location where
  line : Nat
  column : Nat
  offset : Nat
deriving DecidableEq, Repr

/-- Line and column, with a colon between them. -/
def Location.render (l : Location) : String := s!"{l.line}:{l.column}"

/-! ### Halving -/

/-- What a search in sorted numbers ends with: the index of the number, or how many of the numbers
are smaller when it is not there. -/
inductive SearchResult where
  | found (index : Nat)
  | missing (smaller : Nat)
deriving DecidableEq, Repr

/-- Looks for `x` in sorted numbers from the index `lo` up to, and not including, `hi`, by halving
what is left. -/
def searchBetween (xs : Array Nat) (x lo hi : Nat) (hhi : hi ≤ xs.size) : SearchResult :=
  if h : lo < hi then
    let middle := lo + (hi - lo) / 2
    have hmiddle : middle < xs.size := by omega
    if xs[middle] = x then .found middle
    else if xs[middle] < x then searchBetween xs x (middle + 1) hi hhi
    else searchBetween xs x lo middle (by omega)
  else .missing lo
termination_by hi - lo

/-- Looks for `x` in sorted numbers. -/
def binarySearch (xs : Array Nat) (x : Nat) : SearchResult :=
  searchBetween xs x 0 xs.size (Nat.le_refl _)

/-! ### Line maps -/

/-- The byte offsets at which lines start, in order; the first is zero. -/
structure LineMap where
  starts : Array Nat
deriving DecidableEq, Repr

namespace LineMap

/-- The byte that ends a line. -/
def newline : UInt8 := 10

/-- The offsets after each newline of a run of bytes that begins at `offset`. -/
def startsAfterNewlines (offset : Nat) : List UInt8 → List Nat
  | [] => []
  | b :: rest =>
    if b = newline then (offset + 1) :: startsAfterNewlines (offset + 1) rest
    else startsAfterNewlines (offset + 1) rest

/-- The bytes of a text. -/
def bytesOf (source : String) : List UInt8 := source.toByteArray.data.toList

/-- The lines of a text; a text always has at least one. -/
def ofSource (source : String) : LineMap :=
  ⟨(0 :: startsAfterNewlines 0 (bytesOf source)).toArray⟩

/-- The line of an offset, counted from zero: the one that starts there, or the one before the
first that starts later.  There is none when no line starts before the offset. -/
def lineOf? (m : LineMap) (offset : Nat) : Option Nat :=
  match binarySearch m.starts offset with
  | .found line => some line
  | .missing 0 => none
  | .missing (line + 1) => some line

/-- Where an offset stands; offsets past the end continue the last line.  There is no place when
the column is more than a 64-bit word counts. -/
def location? (m : LineMap) (offset : Nat) : Option Location := do
  let line ← m.lineOf? offset
  let start ← m.starts[line]?
  if start ≤ offset ∧ offset - start + 1 < UInt64.size then
    some ⟨line + 1, offset - start + 1, offset⟩
  else none

/-- Number of lines. -/
def lineCount (m : LineMap) : Nat := m.starts.size

end LineMap

end AspectLang
