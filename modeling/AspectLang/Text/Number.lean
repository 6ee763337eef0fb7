/-! # Whole numbers in text

`readNat?` reads decimal digits with an optional plus sign in front and nothing else, and
refuses what does not fit in 64 bits. -/

namespace AspectLang.Text

/-- Largest number that a setting can hold, plus one. -/
def numberBound : Nat := UInt64.size

/-- Appends one decimal digit to a number. -/
def pushDigit? (n : Option Nat) (c : Char) : Option Nat :=
  match n with
  | some n => if c.isDigit then some (10 * n + (c.toNat - 48)) else none
  | none => none

/-- The number that a nonempty run of digits denotes, below `numberBound`. -/
def readDigits? (cs : List Char) : Option Nat :=
  match cs with
  | [] => none
  | _ => (cs.foldl pushDigit? (some 0)).filter (· < numberBound)

/-- The number that a text denotes, with or without a plus sign. -/
def readNat? : List Char → Option Nat
  | '+' :: cs => readDigits? cs
  | cs => readDigits? cs

end AspectLang.Text
