import AspectLang.Aspect.PseudoToken

/-! # Pointcuts

A pointcut is read from a run of pseudo tokens by recursive descent:

* `or` is `and` with `||` between, `and` is `unary` with `&&` between, both grouped to the
  left;
* `unary` is a `primary` with any number of `!` in front;
* `primary` is an `or` in parentheses, a guard, or a name with tokens in parentheses, which
  are a pointcut for the control-flow designators and a pattern otherwise.

Each reader returns the tokens after what it read, with the proof that there are fewer of
them, so the readers end. -/

namespace AspectLang

/-- A set of join points. -/
inductive Pointcut where
  | and (left right : Pointcut)
  | or (left right : Pointcut)
  | not (inner : Pointcut)
  /-- A designator whose argument is a pattern. -/
  | kinded (designator pattern : String) (span : Span)
  /-- The control flow of a pointcut, with or without the join points themselves. -/
  | cflow (below : Bool) (inner : Pointcut) (span : Span)
  /-- A guard. -/
  | guard (condition : Expr) (span : Span)
  /-- Use of a named pointcut. -/
  | reference (name : String) (arguments : List String) (span : Span)
deriving BEq

namespace Pointcut

/-- The designators whose argument is a pattern. -/
def kindedDesignators : List String := [
  "call", "execution", "get", "set", "handler", "initialization", "preinitialization",
  "staticinitialization", "adviceexecution", "within", "withincode", "this", "target", "args",
  "@annotation", "@within", "@withincode", "@this", "@target", "@args"]

/-! ### Texts -/

/-- How strongly the outermost operator binds. -/
def precedence : Pointcut → Nat
  | .or _ _ => 1
  | .and _ _ => 2
  | _ => 3

/-- A pointcut with parentheses where an operand binds weaker than its operator. -/
def render : Pointcut → String
  | .and left right => operand 2 left.precedence left.render ++ " && " ++
      operand 2 right.precedence right.render
  | .or left right => operand 1 left.precedence left.render ++ " || " ++
      operand 1 right.precedence right.render
  | .not inner => "!" ++ operand 3 inner.precedence inner.render
  | .kinded designator pattern _ => designator ++ "(" ++ pattern ++ ")"
  | .cflow below inner _ => (if below then "cflowbelow(" else "cflow(") ++ inner.render ++ ")"
  | .guard condition _ => "if(" ++ condition.render ++ ")"
  | .reference name arguments _ => name ++ "(" ++ ", ".intercalate arguments ++ ")"
where
  /-- The text of an operand of an operator that binds with strength `parent`. -/
  operand (parent strength : Nat) (text : String) : String :=
    if strength < parent then "(" ++ text ++ ")" else text

/-- The named pointcuts that a pointcut uses, in order. -/
def references : Pointcut → List String
  | .and left right | .or left right => left.references ++ right.references
  | .not inner | .cflow _ inner _ => inner.references
  | .reference name _ _ => [name]
  | .kinded _ _ _ | .guard _ _ => []

/-! ### Reading -/

/-- What a reader leaves of `n` tokens. -/
abbrev Rest (n : Nat) := { ts : List PseudoToken // ts.length < n }

/-- What a reader that may read nothing leaves of `n` tokens. -/
abbrev Tail (n : Nat) := { ts : List PseudoToken // ts.length ≤ n }

/-- The first token if it is `value`; `stop` is where its absence is reported. -/
def expect (value : String) (stop : Span) :
    (ts : List PseudoToken) → Except ReadProblem (PseudoToken × Rest ts.length)
  | [] => .error ⟨s!"expected \"{value}\"", stop⟩
  | t :: ts =>
    if t.is value then .ok (t, ⟨ts, by simp⟩)
    else .error ⟨s!"expected \"{value}\" but found \"{t.value}\"", t.span⟩

/-- Lets a designator's name pass if its first token `t` is an identifier or the name is that
of a designator with a pattern. -/
def admitName (t : PseudoToken) (name : String) (span : Span) {n : Nat} (rest : Tail n) :
    Except ReadProblem (String × Span × Tail n) :=
  if !t.isIdentifier && !kindedDesignators.contains name then
    .error ⟨s!"unexpected \"{t.value}\"", t.span⟩
  else .ok (name, span, rest)

/-- The name that a designator starts with, its range, and the tokens after it; `t` is the
first token. -/
def readName (t : PseudoToken) (ts : List PseudoToken) :
    Except ReadProblem (String × Span × Tail ts.length) :=
  if t.is "@" then
    match ts with
    | next :: rest =>
      if next.isIdentifier then
        admitName t ("@" ++ next.value) (t.span.merge next.span) ⟨rest, by simp⟩
      else .error ⟨"expected an annotation designator after \"@\"", t.span⟩
    | [] => .error ⟨"expected an annotation designator after \"@\"", t.span⟩
  else admitName t t.value t.span ⟨ts, Nat.le_refl _⟩

/-- The tokens in the parentheses that open a run, the range from `start` to the closing one,
and the tokens after it. -/
def readParens (start : Span) (stop : Span) (ts : List PseudoToken) :
    Except ReadProblem (Rest ts.length × Span × Rest ts.length) :=
  match expect "(" stop ts with
  | .error e => .error e
  | .ok (_, ⟨body, hbody⟩) =>
    match h : PseudoToken.balanced? 0 body with
    | none => .error ⟨"unbalanced parentheses", stop⟩
    | some (inner, close, rest) =>
      have hlen := PseudoToken.length_of_balanced? h
      .ok (⟨inner, by omega⟩, start.merge close.span, ⟨rest, by omega⟩)

mutual

/-- A pointcut that uses every token. -/
def parse (ts : List PseudoToken) (stop : Span) : Except ReadProblem Pointcut :=
  match ts with
  | [] => .error ⟨"missing pointcut", stop⟩
  | t :: ts =>
    match parseOr (t :: ts) stop with
    | .error e => .error e
    | .ok (p, ⟨[], _⟩) => .ok p
    | .ok (_, ⟨next :: _, _⟩) => .error ⟨s!"unexpected \"{next.value}\"", next.span⟩
termination_by (ts.length, 3)

/-- Alternatives. -/
def parseOr (ts : List PseudoToken) (stop : Span) :
    Except ReadProblem (Pointcut × Rest ts.length) :=
  match parseAnd ts stop with
  | .error e => .error e
  | .ok (left, ⟨rest, h⟩) =>
    match parseOrs left rest stop with
    | .error e => .error e
    | .ok (p, ⟨rest', h'⟩) => .ok (p, ⟨rest', by omega⟩)
termination_by (ts.length, 2)

/-- Further alternatives after a first one. -/
def parseOrs (left : Pointcut) (ts : List PseudoToken) (stop : Span) :
    Except ReadProblem (Pointcut × Tail ts.length) :=
  match ts with
  | [] => .ok (left, ⟨[], Nat.le_refl _⟩)
  | t :: ts =>
    if t.is "||" then
      match parseAnd ts stop with
      | .error e => .error e
      | .ok (right, ⟨rest, h⟩) =>
        match parseOrs (.or left right) rest stop with
        | .error e => .error e
        | .ok (p, ⟨rest', h'⟩) => .ok (p, ⟨rest', by simp only [List.length_cons]; omega⟩)
    else .ok (left, ⟨t :: ts, Nat.le_refl _⟩)
termination_by (ts.length, 2)

/-- Conjunctions. -/
def parseAnd (ts : List PseudoToken) (stop : Span) :
    Except ReadProblem (Pointcut × Rest ts.length) :=
  match parseUnary ts stop with
  | .error e => .error e
  | .ok (left, ⟨rest, h⟩) =>
    match parseAnds left rest stop with
    | .error e => .error e
    | .ok (p, ⟨rest', h'⟩) => .ok (p, ⟨rest', by omega⟩)
termination_by (ts.length, 1)

/-- Further conjuncts after a first one. -/
def parseAnds (left : Pointcut) (ts : List PseudoToken) (stop : Span) :
    Except ReadProblem (Pointcut × Tail ts.length) :=
  match ts with
  | [] => .ok (left, ⟨[], Nat.le_refl _⟩)
  | t :: ts =>
    if t.is "&&" then
      match parseUnary ts stop with
      | .error e => .error e
      | .ok (right, ⟨rest, h⟩) =>
        match parseAnds (.and left right) rest stop with
        | .error e => .error e
        | .ok (p, ⟨rest', h'⟩) => .ok (p, ⟨rest', by simp only [List.length_cons]; omega⟩)
    else .ok (left, ⟨t :: ts, Nat.le_refl _⟩)
termination_by (ts.length, 1)

/-- Negations, and what they stand in front of. -/
def parseUnary (ts : List PseudoToken) (stop : Span) :
    Except ReadProblem (Pointcut × Rest ts.length) :=
  match ts with
  | [] => .error ⟨"missing pointcut", stop⟩
  | t :: ts =>
    if t.is "!" then
      match parseUnary ts stop with
      | .error e => .error e
      | .ok (inner, ⟨rest, h⟩) => .ok (.not inner, ⟨rest, by simp only [List.length_cons]; omega⟩)
    else if let some condition := t.condition then .ok (.guard condition t.span, ⟨ts, by simp⟩)
    else if t.is "(" then
      match parseOr ts stop with
      | .error e => .error e
      | .ok (inner, ⟨rest, h⟩) =>
        match expect ")" stop rest with
        | .error e => .error e
        | .ok (_, ⟨rest', h'⟩) => .ok (inner, ⟨rest', by simp only [List.length_cons]; omega⟩)
    else
      match readName t ts with
      | .error e => .error e
      | .ok (name, nameSpan, ⟨rest, h⟩) =>
        match readParens nameSpan stop rest with
        | .error e => .error e
        | .ok (⟨inner, h₁⟩, span, ⟨rest', h₂⟩) =>
          have hrest : rest'.length < (t :: ts).length := by simp only [List.length_cons]; omega
          if name == "cflow" || name == "cflowbelow" then
            match parse inner span with
            | .error e => .error e
            | .ok p => .ok (.cflow (name == "cflowbelow") p span, ⟨rest', hrest⟩)
          else if kindedDesignators.contains name then
            .ok (.kinded name (PseudoToken.renderAll inner) span, ⟨rest', hrest⟩)
          else
            let arguments := (PseudoToken.splitOutsideBrackets inner ",").map PseudoToken.renderAll
            .ok (.reference name arguments span, ⟨rest', hrest⟩)
termination_by (ts.length, 0)

end

end Pointcut

/-! ### Per-clauses -/

/-- The ways in which instances of an aspect come about. -/
inductive PerClauseKind where
  | singleton | perThis | perTarget | perCflow | perCflowBelow | perTypeWithin
deriving DecidableEq, Inhabited, Repr

namespace PerClauseKind

/-- Every kind. -/
def all : List PerClauseKind :=
  [.singleton, .perThis, .perTarget, .perCflow, .perCflowBelow, .perTypeWithin]

/-- The word for a kind. -/
def word : PerClauseKind → String
  | .singleton => "issingleton"
  | .perThis => "perthis"
  | .perTarget => "pertarget"
  | .perCflow => "percflow"
  | .perCflowBelow => "percflowbelow"
  | .perTypeWithin => "pertypewithin"

/-- The kind with a given word. -/
def ofWord? (word : String) : Option PerClauseKind := all.find? (·.word == word)

end PerClauseKind

/-- How an aspect is instantiated. -/
structure PerClause where
  kind : PerClauseKind
  pointcut : Option Pointcut
  typePattern : Option String
  span : Span
deriving BEq

namespace PerClause

/-- The word with its argument in parentheses. -/
def render (c : PerClause) : String :=
  c.kind.word ++ "(" ++
    (match c.pointcut, c.typePattern with
      | some pointcut, _ => pointcut.render
      | none, some pattern => pattern
      | none, none => "") ++ ")"

/-- The per-clause after an aspect's name; none when there are no tokens or they are a
`dominates` clause. -/
def parse? (ts : List PseudoToken) (stop : Span) : Except ReadProblem (Option PerClause) :=
  match ts with
  | [] => .ok none
  | head :: ts =>
    if head.is "dominates" then .ok none
    else
      match PerClauseKind.ofWord? head.value with
      | none => .error ⟨s!"\"{head.value}\" is not a per-clause", head.span⟩
      | some kind =>
        match Pointcut.readParens head.span stop ts with
        | .error e => .error e
        | .ok (_, _, ⟨next :: _, _⟩) => .error ⟨s!"unexpected \"{next.value}\"", next.span⟩
        | .ok (⟨inner, _⟩, span, ⟨[], _⟩) =>
          match kind with
          | .singleton =>
            if inner.isEmpty then .ok (some ⟨kind, none, none, span⟩)
            else .error ⟨"issingleton takes no arguments", PseudoToken.spanOf inner span⟩
          | .perTypeWithin =>
            if inner.isEmpty then .error ⟨"missing type pattern", span⟩
            else .ok (some ⟨kind, none, some (PseudoToken.renderAll inner), span⟩)
          | _ =>
            match Pointcut.parse inner span with
            | .error e => .error e
            | .ok pointcut => .ok (some ⟨kind, some pointcut, none, span⟩)

/-- The type pattern of a `dominates` clause, if the tokens start with one. -/
def parseDominates? (ts : List PseudoToken) : Except ReadProblem (Option String) :=
  match ts with
  | [] => .ok none
  | head :: rest =>
    if head.is "dominates" then
      if rest.isEmpty then .error ⟨"missing type pattern after dominates", head.span⟩
      else .ok (some (PseudoToken.renderAll rest))
    else .ok none

end PerClause

end AspectLang
