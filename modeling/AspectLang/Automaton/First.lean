import AspectLang.Grammar.Basic

/-! # First sets

A set of terminals is a number with one bit per column.  `Grammar.firstSets` computes which
nonterminals derive the empty sequence and which terminals can begin what a nonterminal
derives, by going through the productions until nothing changes. -/

namespace AspectLang

/-- A set of terminals, one bit per column. -/
abbrev KindSet := Nat

namespace KindSet

/-- The set of one terminal. -/
def ofKind (k : TokenKind) : KindSet := 1 <<< k.column

/-- Whether a column is in the set. -/
def has (s : KindSet) (column : Nat) : Bool := s.testBit column

/-- The columns below `bound` in the set, in order. -/
def columns (s : KindSet) (bound : Nat) : List Nat := (List.range bound).filter s.has

end KindSet

/-- Which nonterminals can vanish, and which terminals can begin what they derive. -/
structure FirstSets where
  nullable : Array Bool
  first : Array KindSet
deriving DecidableEq, Inhabited, Repr

namespace FirstSets

/-- The terminals that can begin what a run of symbols derives, and whether it can vanish. -/
def ofSymbols (f : FirstSets) : List Symbol → KindSet × Bool
  | [] => (0, true)
  | .terminal k :: _ => (KindSet.ofKind k, false)
  | .nonterminal id :: rest =>
    let own := f.first.getD id 0
    if f.nullable.getD id false then
      let (more, vanishes) := f.ofSymbols rest
      (own ||| more, vanishes)
    else (own, false)

/-- The terminals that can begin what a run of symbols derives when one of `tail` follows. -/
def ofSymbolsThen (f : FirstSets) (symbols : List Symbol) (tail : KindSet) : KindSet :=
  let (own, vanishes) := f.ofSymbols symbols
  if vanishes then own ||| tail else own

/-- Adds what one production contributes. -/
def addProduction (f : FirstSets) (p : Production) : FirstSets :=
  let (own, vanishes) := f.ofSymbols p.rhs
  { nullable := if vanishes then f.nullable.setIfInBounds p.lhs true else f.nullable
    first := f.first.modify p.lhs (· ||| own) }

/-- Adds what every production contributes. -/
def round (productions : Array Production) (f : FirstSets) : FirstSets :=
  productions.foldl addProduction f

/-- Repeats rounds until one changes nothing, at most `fuel` times. -/
def saturate (productions : Array Production) : Nat → FirstSets → FirstSets
  | 0, f => f
  | fuel + 1, f =>
    let next := round productions f
    if next = f then f else saturate productions fuel next

end FirstSets

/-- The first sets of a grammar.  A round that changes something adds a bit, so there are no
more rounds than bits. -/
def Grammar.firstSets (g : Grammar) : FirstSets :=
  let count := g.nonterminals.size
  FirstSets.saturate g.productions (count * (TokenKind.columnCount + 1) + 1)
    ⟨Array.replicate count false, Array.replicate count 0⟩

end AspectLang
