/-! # Byte ranges of a source text

Positions are byte offsets into the UTF-8 form of a text.  A `Span` names the bytes from
`start` to `stop`, both included, so a range of one byte has `start = stop`.  `Span.merge`
is the smallest range that covers two others.  The text of a range is cut out of the source
by `Text.slice?`, which refuses an offset inside a character. -/

namespace AspectLang

/-! ### Byte offsets of characters -/

namespace Text

/-- Number of bytes a run of characters takes in UTF-8. -/
def byteSize : List Char → Nat
  | [] => 0
  | c :: cs => c.utf8Size + byteSize cs

/-- The characters after the first `n` bytes; `none` when `n` bytes do not end a character. -/
def dropBytes? : Nat → List Char → Option (List Char)
  | 0, cs => some cs
  | _ + 1, [] => none
  | n + 1, c :: cs => if c.utf8Size ≤ n + 1 then dropBytes? (n + 1 - c.utf8Size) cs else none

/-- The characters that fill the first `n` bytes; `none` when `n` bytes do not end a character. -/
def takeBytes? : Nat → List Char → Option (List Char)
  | 0, _ => some []
  | _ + 1, [] => none
  | n + 1, c :: cs =>
    if c.utf8Size ≤ n + 1 then (takeBytes? (n + 1 - c.utf8Size) cs).map (c :: ·) else none

/-- The characters that fill the bytes from `lo` up to, and not including, `hi`. -/
def slice? (cs : List Char) (lo hi : Nat) : Option (List Char) :=
  if lo ≤ hi then (dropBytes? lo cs).bind (takeBytes? (hi - lo)) else none

end Text

/-! ### Ranges -/

/-- The bytes from `start` to `stop`, both included. -/
structure Span where
  start : Nat := 0
  stop : Nat := 0
deriving DecidableEq, Inhabited, Repr

namespace Span

/-- The range of a lexeme of `len` bytes; an empty lexeme still covers one byte. -/
def ofLen (start len : Nat) : Span := ⟨start, start + max len 1 - 1⟩

/-- The range of the one byte at `offset`. -/
def point (offset : Nat) : Span := ⟨offset, offset⟩

/-- The smallest range that covers both. -/
def merge (a b : Span) : Span := ⟨min a.start b.start, max a.stop b.stop⟩

/-- Number of bytes; a range that ends more than one byte before its start has none. -/
def length? (s : Span) : Option Nat :=
  if s.start ≤ s.stop + 1 then some (s.stop + 1 - s.start) else none

/-- Whether an offset lies in the range. -/
def contains (s : Span) (offset : Nat) : Bool := s.start ≤ offset && offset ≤ s.stop

/-- The part of a source that the range covers, cut at the end of the source.  It is empty
when the range starts past the end or splits a character. -/
def sourceText (s : Span) (source : String) : String :=
  let cs := source.toList
  let size := Text.byteSize cs
  if size ≤ s.start then "" else
    match Text.slice? cs s.start (min (s.stop + 1) size) with
    | some text => String.ofList text
    | none => ""

/-- Both ends, with the sign of an inclusive range between them. -/
def render (s : Span) : String := s!"{s.start}..={s.stop}"

/-- The range from the first to the last of a run of ranges. -/
def hull : List Span → Option Span
  | [] => none
  | s :: rest => some (s.merge ((s :: rest).getLastD s))

end Span

end AspectLang
