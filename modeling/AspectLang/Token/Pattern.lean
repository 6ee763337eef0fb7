/-! # Regular patterns

Token classes are regular languages.  A `Pattern` denotes the set `Matches` of texts it
covers; `derive c p` covers exactly the texts `w` for which `p` covers `c :: w`, and
`nullable p` tells whether `p` covers the empty text.  Matching a text therefore takes one
derivative per character.  The smart constructors keep derivatives small. -/

namespace AspectLang

/-- A set of characters: the ranges listed, or everything else. -/
structure CharClass where
  ranges : List (Char × Char)
  negated : Bool := false
deriving DecidableEq, Repr

namespace CharClass

/-- Whether a character is in the set. -/
def contains (k : CharClass) (c : Char) : Bool :=
  k.ranges.any (fun r => r.1 ≤ c && c ≤ r.2) != k.negated

/-- The set of one character. -/
def one (c : Char) : CharClass := ⟨[(c, c)], false⟩

/-- The characters listed. -/
def oneOf (cs : List Char) : CharClass := ⟨cs.map fun c => (c, c), false⟩

/-- Every character but those listed. -/
def noneOf (cs : List Char) : CharClass := ⟨cs.map fun c => (c, c), true⟩

end CharClass

/-- A regular expression over characters. -/
inductive Pattern where
  | none
  | empty
  | char (k : CharClass)
  | seq (p q : Pattern)
  | alt (p q : Pattern)
  | star (p : Pattern)
deriving DecidableEq, Repr

namespace Pattern

/-! ### Languages -/

/-- The texts that a pattern covers. -/
inductive Matches : Pattern → List Char → Prop where
  | empty : Matches .empty []
  | char {k : CharClass} {c : Char} (h : k.contains c = true) : Matches (.char k) [c]
  | seq {p q : Pattern} {u v : List Char} (hp : Matches p u) (hq : Matches q v) :
      Matches (.seq p q) (u ++ v)
  | altLeft {p q : Pattern} {u : List Char} (h : Matches p u) : Matches (.alt p q) u
  | altRight {p q : Pattern} {u : List Char} (h : Matches q u) : Matches (.alt p q) u
  | starNil {p : Pattern} : Matches (.star p) []
  | starCons {p : Pattern} {u v : List Char} (hp : Matches p u) (hs : Matches (.star p) v) :
      Matches (.star p) (u ++ v)

/-! ### Derivatives -/

/-- Whether a pattern covers the empty text. -/
def nullable : Pattern → Bool
  | .none => false
  | .empty => true
  | .char _ => false
  | .seq p q => p.nullable && q.nullable
  | .alt p q => p.nullable || q.nullable
  | .star _ => true

/-- Sequence, without what can cover nothing and without empty parts. -/
def seq' : Pattern → Pattern → Pattern
  | .none, _ => .none
  | _, .none => .none
  | .empty, q => q
  | p, .empty => p
  | p, q => .seq p q

/-- Alternative, without what can cover nothing and without a repeated part. -/
def alt' : Pattern → Pattern → Pattern
  | .none, q => q
  | p, .none => p
  | p, q => if p = q then p else .alt p q

/-- The pattern of what may follow a first character. -/
def derive (c : Char) : Pattern → Pattern
  | .none => .none
  | .empty => .none
  | .char k => if k.contains c then .empty else .none
  | .seq p q =>
    if p.nullable then alt' (seq' (derive c p) q) (derive c q) else seq' (derive c p) q
  | .alt p q => alt' (derive c p) (derive c q)
  | .star p => seq' (derive c p) (.star p)

/-! ### Building blocks -/

/-- Exactly one text. -/
def literal : List Char → Pattern
  | [] => .empty
  | [c] => .char (.one c)
  | c :: cs => .seq (.char (.one c)) (literal cs)

/-- One pattern after the other. -/
def sequence : List Pattern → Pattern
  | [] => .empty
  | [p] => p
  | p :: ps => .seq p (sequence ps)

/-- Any of the patterns. -/
def anyOf : List Pattern → Pattern
  | [] => .none
  | [p] => p
  | p :: ps => .alt p (anyOf ps)

/-- The pattern or nothing. -/
def optional (p : Pattern) : Pattern := .alt p .empty

/-- The pattern at least once. -/
def oneOrMore (p : Pattern) : Pattern := .seq p (.star p)

end Pattern

end AspectLang
