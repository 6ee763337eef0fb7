import AspectLang.Source.Span

/-! # Names

An identifier is a word with its range; a qualified name is a run of identifiers that were
written with dots between them. -/

namespace AspectLang

/-- A word of the source with its range. -/
structure Identifier where
  name : String
  span : Span
deriving DecidableEq, Inhabited, Repr

/-- A dotted name. -/
structure QualifiedName where
  segments : List Identifier
deriving DecidableEq, Inhabited, Repr

namespace QualifiedName

/-- The words of the name. -/
def words (n : QualifiedName) : List String := n.segments.map (·.name)

/-- The ranges of the words. -/
def positions (n : QualifiedName) : List Span := n.segments.map (·.span)

/-- The range from the first word to the last. -/
def span (n : QualifiedName) : Span := (Span.hull n.positions).getD {}

/-- The words with a separator between them. -/
def join (n : QualifiedName) (separator : String) : String := separator.intercalate n.words

/-- The name as it is written. -/
def render (n : QualifiedName) : String := n.join "."

end QualifiedName

end AspectLang
