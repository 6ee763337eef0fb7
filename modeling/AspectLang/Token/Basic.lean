import AspectLang.Fault
import AspectLang.Source.Span
import AspectLang.Token.Kind

/-! # Tokens

A token is a kind with the range and the text it was read from.  Closing angle brackets that
were scanned as one shift operator can be split again: `Token.split` gives the first bracket
and the rest.  The rest's text is the token's text without its first byte, which does not
exist when that byte is only part of a character, and the rest begins at the next offset, which
has to be a machine word; `Token.Split.crashes` stands for what is missing. -/

namespace AspectLang

/-- A classified piece of source text. -/
structure Token where
  kind : TokenKind
  span : Span
  text : String
deriving DecidableEq, Inhabited, Repr

namespace Token

/-- The end of input, placed at `offset`. -/
def eof (offset : Nat) : Token := ⟨.eof, .point offset, ""⟩

/-- The text that stands for a token in messages. -/
def shownText (t : Token) : String := if t.text.isEmpty then t.kind.grammarName else t.text

/-- A text without its first byte; `none` when the first character is longer than a byte. -/
def dropByte? (text : String) : Option String :=
  match text.toList with
  | [] => some ""
  | c :: cs => if c.utf8Size = 1 then some (String.ofList cs) else none

/-- Ways in which splitting a token can end. -/
inductive Split where
  | whole
  | halves (first rest : Token)
  | crashes (reason : Crash)
deriving DecidableEq, Repr

/-- Splits a shift operator into its first closing bracket and the rest. -/
def split (t : Token) : Split :=
  match t.kind.halves? with
  | none => .whole
  | some (first, rest) =>
    match dropByte? t.text with
    | none => .crashes (.brokenText t.text)
    | some text =>
      if t.span.start + 1 < UInt64.size then
        .halves ⟨first, .point t.span.start, ">"⟩ ⟨rest, ⟨t.span.start + 1, t.span.stop⟩, text⟩
      else .crashes (.offsetOverflow t.span.start)

section

variable {t first second : Token}

/-- What the halves of a token are. -/
theorem of_split_halves (h : t.split = .halves first second) :
    ∃ kinds text, t.kind.halves? = some kinds ∧ dropByte? t.text = some text ∧
      t.span.start + 1 < UInt64.size ∧ first = ⟨kinds.1, .point t.span.start, ">"⟩ ∧
        second = ⟨kinds.2, ⟨t.span.start + 1, t.span.stop⟩, text⟩ := by
  unfold split at h
  split at h
  · cases h
  · rename_i hkinds
    split at h
    · cases h
    · rename_i text htext
      split at h
      · rename_i hfits
        cases h
        exact ⟨_, text, hkinds, htext, hfits, rfl, rfl⟩
      · cases h

/-- Why a token cannot be split that has to be. -/
theorem of_split_crashes {reason : Crash} (h : t.split = .crashes reason) :
    t.kind.halves?.isSome = true ∧
      (reason = .brokenText t.text ∧ dropByte? t.text = none ∨
        reason = .offsetOverflow t.span.start ∧ ¬ t.span.start + 1 < UInt64.size) := by
  unfold split at h
  split at h
  · cases h
  · rename_i hkinds
    rw [hkinds]
    split at h
    · rename_i htext
      cases h
      exact ⟨rfl, .inl ⟨rfl, htext⟩⟩
    · split at h
      · cases h
      · rename_i hfits
        cases h
        exact ⟨rfl, .inr ⟨rfl, hfits⟩⟩

end

end Token

/-- A stretch of text that no token pattern covers. -/
structure LexicalError where
  span : Span
  text : String
deriving DecidableEq, Inhabited, Repr

/-- What a parser reads: significant tokens and lexical errors in order, and the offset at
which the input ends. -/
structure TokenStream where
  pieces : List (Except LexicalError Token)
  endOffset : Nat

namespace TokenStream

/-- The stream of tokens classified elsewhere: trivia and end markers are left out, and the
input ends after the last token given. -/
def ofTokens (tokens : List Token) : TokenStream where
  pieces := (tokens.filter fun t => !t.kind.isTrivia && t.kind != .eof).map .ok
  endOffset := match tokens.getLast? with
    | some last => last.span.stop + 1
    | none => 0

/-- The tokens of a stream. -/
def tokens (s : TokenStream) : List Token :=
  s.pieces.filterMap fun
    | .ok t => some t
    | .error _ => none

/-- The lexical errors of a stream. -/
def errors (s : TokenStream) : List LexicalError :=
  s.pieces.filterMap fun
    | .ok _ => none
    | .error e => some e

end TokenStream

end AspectLang
