/-! # Blanks, words and trimming

The blanks are the characters with the Unicode property `White_Space`.  `trim` removes them
at both ends, and `words` cuts a text into its maximal runs of other characters. -/

namespace AspectLang.Text

/-- Whether a character has the property `White_Space`. -/
def isBlank (c : Char) : Bool :=
  let n := c.toNat
  (9 ≤ n && n ≤ 13) || n == 32 || n == 0x85 || n == 0xA0 || n == 0x1680 ||
    (0x2000 ≤ n && n ≤ 0x200A) || n == 0x2028 || n == 0x2029 || n == 0x202F || n == 0x205F ||
    n == 0x3000

/-- The text without blanks at its ends. -/
def trim (cs : List Char) : List Char :=
  ((cs.dropWhile isBlank).reverse.dropWhile isBlank).reverse

/-- Adds a finished word, if it has any character, in front of the words after it. -/
def consWord (word : List Char) (rest : List (List Char)) : List (List Char) :=
  if word.isEmpty then rest else word :: rest

/-- The word that a text starts with (empty at a blank), and the words after it. -/
def leadingWord : List Char → List Char × List (List Char)
  | [] => ([], [])
  | c :: cs =>
    let (word, rest) := leadingWord cs
    if isBlank c then ([], consWord word rest) else (c :: word, rest)

/-- The maximal runs of characters that are not blanks. -/
def words (cs : List Char) : List (List Char) :=
  let (word, rest) := leadingWord cs
  consWord word rest

/-- The text before and after the first place where `mark` occurs. -/
def splitAt? (mark : List Char) : List Char → Option (List Char × List Char)
  | [] => if mark.isEmpty then some ([], []) else none
  | c :: cs =>
    if mark.isPrefixOf (c :: cs) then some ([], (c :: cs).drop mark.length)
    else (splitAt? mark cs).map fun (before, after) => (c :: before, after)

end AspectLang.Text
