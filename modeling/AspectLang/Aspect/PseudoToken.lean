import AspectLang.Tree.Expr

/-! # Pseudo tokens

The grammar collects the tokens of pointcuts, per-clauses and declare statements without
looking into them.  A `PseudoToken` is one such token; the guard `if(..)` counts as one token
that carries its condition.  `PseudoToken.renderAll` gives the text of a run of them, with a
blank wherever the source had a gap. -/

namespace AspectLang

/-- One token of a pointcut, a per-clause or a declare statement. -/
structure PseudoToken where
  value : String
  isIdentifier : Bool
  span : Span
  /-- The word for the kind of literal, if the token is one. -/
  literalKind : Option String := none
  /-- The condition of a guard. -/
  condition : Option Expr := none
deriving BEq

namespace PseudoToken

/-- Whether the token is the plain text `value`. -/
def is (t : PseudoToken) (value : String) : Bool := t.condition.isNone && t.value == value

/-- The text of the token. -/
def render (t : PseudoToken) : String :=
  match t.condition with
  | some condition => "if(" ++ condition.render ++ ")"
  | none => t.value

/-- A text of at least two bytes without its first and last byte; `none` when that would
split a character. -/
def stripBytes? (text : String) : Option String :=
  let cs := text.toList
  (Text.slice? cs 1 (Text.byteSize cs - 1)).map String.ofList

/-- The text of a string literal without its quotes, and the text of any other token. -/
def unquoted? (t : PseudoToken) : Option String :=
  if t.literalKind == some "string" && 2 ≤ t.value.utf8ByteSize then stripBytes? t.value
  else some t.value

/-- The texts of tokens that follow one which ended at byte `stop`.  There is an offset behind that
byte (`FitWord`). -/
def renderAfter (stop : Nat) : List PseudoToken → String
  | [] => ""
  | t :: ts =>
    (if stop + 1 < t.span.start then " " else "") ++ t.render ++ renderAfter t.span.stop ts

/-- The text of a run of tokens, with a blank wherever the source had a gap. -/
def renderAll : List PseudoToken → String
  | [] => ""
  | t :: ts => t.render ++ renderAfter t.span.stop ts

/-- The offset behind each of these tokens but the last is a machine word, as it has to be where their
text is put together. -/
def FitWord (ts : List PseudoToken) : Prop := ∀ t ∈ ts.dropLast, t.span.stop + 1 < UInt64.size

instance (ts : List PseudoToken) : Decidable (FitWord ts) :=
  inferInstanceAs (Decidable (∀ t ∈ ts.dropLast, t.span.stop + 1 < UInt64.size))

/-- The range of a run of tokens, or `fallback` when it is empty. -/
def spanOf (ts : List PseudoToken) (fallback : Span) : Span :=
  (Span.hull (ts.map (·.span))).getD fallback

/-- The tokens from position `lo` up to, and not including, `hi`. -/
def slice (ts : List PseudoToken) (lo hi : Nat) : List PseudoToken := (ts.take hi).drop lo

/-! ### Brackets -/

/-- The tokens up to the `)` that closes `depth + 1` open parentheses, that `)`, and the
tokens after it. -/
def balanced? (depth : Nat) :
    List PseudoToken → Option (List PseudoToken × PseudoToken × List PseudoToken)
  | [] => none
  | t :: ts =>
    if t.is "(" then (balanced? (depth + 1) ts).map fun (inner, rest) => (t :: inner, rest)
    else if t.is ")" then
      match depth with
      | 0 => some ([], t, ts)
      | d + 1 => (balanced? d ts).map fun (inner, rest) => (t :: inner, rest)
    else (balanced? depth ts).map fun (inner, rest) => (t :: inner, rest)

/-- `balanced?` drops the closing parenthesis and loses nothing else. -/
theorem length_of_balanced? {depth : Nat} {ts inner rest : List PseudoToken} {close : PseudoToken}
    (h : balanced? depth ts = some (inner, close, rest)) :
    inner.length + rest.length + 1 = ts.length := by
  fun_induction balanced? depth ts generalizing inner with
  | case1 => simp at h
  | case3 t ts _ _ => simp_all
  | case2 depth t ts _ ih | case4 t ts _ _ depth ih | case5 depth t ts _ _ ih =>
    obtain ⟨⟨i, c, r⟩, hr, he⟩ := Option.map_eq_some_iff.mp h
    simp only [Prod.mk.injEq] at he
    obtain ⟨rfl, rfl, rfl⟩ := he
    have := ih hr
    simp only [List.length_cons]
    omega

/-- The part up to the first separator outside brackets, and the parts after it. -/
def splitFrom (separator : String) (depth : Nat) :
    List PseudoToken → List PseudoToken × List (List PseudoToken)
  | [] => ([], [])
  | t :: ts =>
    if t.is "(" || t.is "<" then
      let (part, parts) := splitFrom separator (depth + 1) ts
      (t :: part, parts)
    else if (t.is ")" || t.is ">") && 0 < depth then
      let (part, parts) := splitFrom separator (depth - 1) ts
      (t :: part, parts)
    else if depth == 0 && t.is separator then
      let (part, parts) := splitFrom separator 0 ts
      ([], part :: parts)
    else
      let (part, parts) := splitFrom separator depth ts
      (t :: part, parts)

/-- The parts between the separators that stand outside parentheses and angle brackets.  An
empty run has no part. -/
def splitOutsideBrackets (ts : List PseudoToken) (separator : String) : List (List PseudoToken) :=
  match ts with
  | [] => []
  | _ =>
    let (part, parts) := splitFrom separator 0 ts
    part :: parts

/-- The tokens before and after the first separator outside brackets. -/
def splitOnce? (ts : List PseudoToken) (separator : String) :
    Option (List PseudoToken × List PseudoToken) :=
  match splitOutsideBrackets ts separator with
  | part :: _ :: _ => some (part, ts.drop (part.length + 1))
  | _ => none

end PseudoToken

/-- A problem found while a run of pseudo tokens is read. -/
structure ReadProblem where
  message : String
  span : Span
deriving DecidableEq, Inhabited, Repr

end AspectLang
