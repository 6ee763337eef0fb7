import AspectLang.Token.Basic
import AspectLang.Token.Pattern

/-! # The scanner

`lead` finds what stands at the front of a text: the longest prefix that a token pattern
covers, with keywords before identifiers at equal length, or a stretch that no pattern
covers.  Such a stretch is one character, with two exceptions.  A block comment without an
end takes the rest of the text, and a string literal without an end takes everything up to
the place where it can no longer be one.  `scan` repeats `lead`, so the pieces it returns
cover the text without gaps. -/

namespace AspectLang

namespace TokenKind

/-! ### Patterns of the kinds -/

open Pattern

/-- Decimal digits. -/
def digit : Pattern := .char ⟨[('0', '9')], false⟩
/-- Hexadecimal digits. -/
def hexDigit : Pattern := .char ⟨[('0', '9'), ('a', 'f'), ('A', 'F')], false⟩
/-- One of the characters listed. -/
def among (cs : List Char) : Pattern := .char (.oneOf cs)
/-- Any character but those listed. -/
def outside (cs : List Char) : Pattern := .char (.noneOf cs)

/-- Digits with underscores, a digit first. -/
def decimalDigits : Pattern := .seq digit (.star (.char ⟨[('0', '9'), ('_', '_')], false⟩))
/-- Hexadecimal digits with underscores after their mark. -/
def hexDigits : Pattern :=
  sequence [among ['0'], among ['x', 'X'],
    oneOrMore (.char ⟨[('0', '9'), ('a', 'f'), ('A', 'F'), ('_', '_')], false⟩)]
/-- Binary digits with underscores after their mark. -/
def binaryDigits : Pattern :=
  sequence [among ['0'], among ['b', 'B'], oneOrMore (among ['0', '1', '_'])]
/-- A whole number in any base. -/
def wholeNumber : Pattern := anyOf [decimalDigits, hexDigits, binaryDigits]

/-- A decimal exponent. -/
def exponent : Pattern :=
  sequence [among ['e', 'E'], optional (among ['+', '-']), oneOrMore digit]
/-- Digits around a point, with or without an exponent. -/
def pointed : Pattern :=
  .seq (anyOf [sequence [oneOrMore digit, among ['.'], .star digit],
    .seq (among ['.']) (oneOrMore digit)]) (optional exponent)

/-- One character of a quoted literal: a plain one, or an escape. -/
def quotedItem (quote : Char) : Pattern :=
  anyOf [outside [quote, '\\'],
    sequence [among ['\\'], among ['u'], hexDigit, hexDigit, hexDigit, hexDigit],
    sequence [among ['\\'], outside ['\n']]]

/-- The patterns of the kinds whose text varies.  At equal length an earlier kind wins. -/
def varyingPatterns : List (TokenKind × Pattern) := [
  (.integerLiteral, wholeNumber),
  (.longLiteral, .seq wholeNumber (among ['l', 'L'])),
  (.floatingPointLiteral, sequence [anyOf [pointed, .seq (oneOrMore digit) (optional exponent)],
    among ['f', 'F']]),
  (.doubleLiteral, anyOf [.seq pointed (optional (among ['d', 'D'])),
    sequence [oneOrMore digit, exponent, optional (among ['d', 'D'])],
    .seq (oneOrMore digit) (among ['d', 'D'])]),
  (.characterLiteral, sequence [among ['\''], quotedItem '\'', among ['\'']]),
  (.stringLiteral, sequence [among ['"'], .star (quotedItem '"'), among ['"']]),
  (.identifier, .seq (.char ⟨[('a', 'z'), ('A', 'Z'), ('_', '_'), ('$', '$')], false⟩)
    (.star (.char ⟨[('a', 'z'), ('A', 'Z'), ('0', '9'), ('_', '_'), ('$', '$')], false⟩))),
  (.lineComment, sequence [among ['/'], among ['/'], .star (outside ['\n'])]),
  (.blockComment, sequence [among ['/'], among ['*'], .star (outside ['*']),
    oneOrMore (among ['*']),
    .star (sequence [outside ['/', '*'], .star (outside ['*']), oneOrMore (among ['*'])]),
    among ['/']]),
  (.whitespace, oneOrMore (among [' ', '\t', '\n', '\r', '\x0c'])),
  (.bom, among ['\ufeff'])]

/-- The pattern of a kind with fixed text. -/
def fixedPattern? (k : TokenKind) : Option (TokenKind × Pattern) :=
  k.lexeme?.map fun text => (k, literal text.toList)

/-- Every token pattern with its kind.  At equal length an earlier entry wins, so the words
come before the identifiers. -/
def patterns : List (TokenKind × Pattern) :=
  (keywords ++ symbols).filterMap fixedPattern? ++ varyingPatterns

end TokenKind

namespace Scanner

/-! ### Longest match -/

/-- The patterns that can still match after one more character. -/
def advance (c : Char) (live : List (TokenKind × Pattern)) : List (TokenKind × Pattern) :=
  live.filterMap fun (k, p) =>
    match p.derive c with
    | .none => none
    | q => some (k, q)

/-- The first kind whose pattern is complete. -/
def complete? (live : List (TokenKind × Pattern)) : Option TokenKind :=
  (live.find? fun (_, p) => p.nullable).map (·.1)

/-- Longest match of the live patterns: the kind and the number of characters, counted on
from `read`, or `best` when no longer prefix is complete. -/
def longest (live : List (TokenKind × Pattern)) (read : Nat) (best : Option (TokenKind × Nat)) :
    List Char → Option (TokenKind × Nat)
  | [] => best
  | c :: cs =>
    match advance c live with
    | [] => best
    | next =>
      let best := match complete? next with
        | some k => some (k, read + 1)
        | none => best
      longest next (read + 1) best cs

/-! ### Stretches without a token -/

/-- Whether a text is at most three hexadecimal digits: an escape cut off by the end. -/
def isCutEscape (cs : List Char) : Bool :=
  cs.length ≤ 3 && cs.all fun c => TokenKind.hexDigit.derive c != .none

/-- Number of characters after the opening quote that belong to an unfinished string: up to
the end of the text, or to a backslash that starts no escape there. -/
def unfinishedString : List Char → Nat
  | [] => 0
  | '\\' :: c :: cs =>
    if c = '\n' then 1
    else if c = 'u' && isCutEscape cs then 1
    else unfinishedString cs + 2
  | _ :: cs => unfinishedString cs + 1

/-- What stands at the front of a text: the kind, if some token does, and the number of
characters after the first that belong to it. -/
structure Lead where
  kind : Option TokenKind
  extra : Nat
deriving DecidableEq, Repr

/-- What stands at the front of the text `c :: cs`. -/
def lead (c : Char) (cs : List Char) : Lead :=
  match longest TokenKind.patterns 0 none (c :: cs) with
  | some (k, n) =>
    if k = .slash && cs.head? = some '*' then ⟨none, cs.length⟩ else ⟨some k, n - 1⟩
  | none => if c = '"' then ⟨none, unfinishedString cs⟩ else ⟨none, 0⟩

/-! ### Scanning -/

/-- The piece that a lead cuts from the front of the text `c :: cs` at `offset`. -/
def piece (offset : Nat) (c : Char) (cs : List Char) (l : Lead) : Except LexicalError Token :=
  let text := c :: cs.take l.extra
  let span := Span.ofLen offset (Text.byteSize text)
  match l.kind with
  | some kind => .ok ⟨kind, span, String.ofList text⟩
  | none => .error ⟨span, String.ofList text⟩

/-- The pieces of a text that starts at `offset`, trivia included. -/
def scanFrom (offset : Nat) : List Char → List (Except LexicalError Token)
  | [] => []
  | c :: cs =>
    let l := lead c cs
    piece offset c cs l ::
      scanFrom (offset + Text.byteSize (c :: cs.take l.extra)) (cs.drop l.extra)
termination_by cs => cs.length

/-- The pieces of a source text, trivia included. -/
def scan (source : String) : List (Except LexicalError Token) := scanFrom 0 source.toList

/-- Whether a parser sees a piece: lexical errors, and tokens that are not trivia. -/
def isSignificant : Except LexicalError Token → Bool
  | .ok t => !t.kind.isTrivia
  | .error _ => true

/-- The significant pieces of a source text, as a parser reads them. -/
def stream (source : String) : TokenStream where
  pieces := (scan source).filter isSignificant
  endOffset := Text.byteSize source.toList

/-- The significant tokens of a source text, or its first lexical error. -/
def tokenize (source : String) : Except LexicalError (List Token) := (stream source).pieces.mapM id

end Scanner

end AspectLang
