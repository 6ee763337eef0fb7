import AspectLang.Parse.AspectConstructs
import AspectLang.Parse.Repair
import AspectLang.Automaton.Feed
import AspectLang.Grammar.Language

/-! # The parser as a machine

A `Machine` holds the stack of states with the ranges that its symbols cover, the workspace of
the semantic actions, the record of repairs, and the tokens that are still to be read.
`Machine.step` does one step: it splits a shift operator, shifts, reduces, accepts, or repairs
the input.  The machine is kept also when a step fails, with what the step did before. -/

/-! ## The automaton of the language -/

namespace AspectLang.Language

/-- The tables of the language. -/
def tables : Tables := (GrammarIndex.of grammar).tables

/-- The automaton of the language. -/
def automaton : Automaton := ⟨grammar, tables⟩

end AspectLang.Language

namespace AspectLang

/-- A parser in the middle of a unit. -/
structure Machine where
  /-- The states, the topmost first. -/
  states : List Nat := [0]
  /-- The range that the symbol of each state covers, if it covers any text. -/
  spans : List (Option Span) := [none]
  /-- The production that was reduced last. -/
  production : Nat := 0
  work : Workspace
  recovery : Recovery := {}
  /-- The token before those that are left. -/
  previous : Option Token := none
  /-- The tokens that are left. -/
  rest : List Token

/-- What a step of the machine came to. -/
inductive Progress where
  | running | accepted | abandoned
deriving DecidableEq, Inhabited, Repr

/-- A step of the machine, which may fail and changes the machine either way. -/
abbrev Step := EStateM Fault Machine

/-- What a parser is set up with. -/
structure ParserSetup where
  settings : Settings
  dialect : Dialect
deriving DecidableEq, Repr

/-- The kind of literal that a kind of token is. -/
def TokenKind.literalKind? : TokenKind → Option LiteralKind
  | .integerLiteral => some .int
  | .longLiteral => some .long
  | .floatingPointLiteral => some .float
  | .doubleLiteral => some .double
  | .characterLiteral => some .char
  | .stringLiteral => some .string
  | .kwTrue => some .true
  | .kwFalse => some .false
  | .kwNull => some .null
  | _ => none

/-- Whether a token of this kind is read as a word. -/
def TokenKind.isWord (k : TokenKind) : Bool := k == .identifier || k.isAspectWord

namespace Machine

/-- Reports a problem. -/
def report (m : Machine) (id : ProblemKind) (span : Span) (arguments : List String) : Machine :=
  { m with work.reporter := m.work.reporter.error id span arguments }

/-! ### Shifting and reducing -/

/-- The stacks after a token was shifted: words and literals leave their values. -/
def pushValue (t : Token) (s : ValueStacks) : ValueStacks :=
  if t.kind.isWord then { s with identifiers := s.identifiers.push ⟨t.text, t.span⟩ }
  else match t.kind.literalKind? with
    | some kind => { s with exprs := s.exprs.push (.literal kind t.text t.span) }
    | none => s

/-- Shifts a token into a state. -/
def shift (t : Token) (target : Nat) (m : Machine) : Machine :=
  { m with
    states := target :: m.states
    spans := some t.span :: m.spans
    work.values := pushValue t m.work.values }

/-- Does work on the workspace. -/
def onWork (work : Work Unit) : Step Unit := fun m =>
  match work m.work with
  | .ok u w => .ok u { m with work := w }
  | .error e w => .error e { m with work := w }

/-- The topmost state. -/
def stateOnTop : Step Nat := do
  let m ← get
  match m.states with
  | [] => throw (.stackUnderflow .state m.production)
  | top :: _ => return top

/-- Takes the right side of a production off the states, and gives its ranges in order. -/
def popSymbols (arity : Nat) : Step (List (Option Span)) := fun m =>
  .ok (m.spans.take arity).reverse
    { m with states := m.states.drop arity, spans := m.spans.drop arity }

/-- Reduces by a production. -/
def reduce (dialect : Dialect) (production : Nat) (lookahead : Span) : Step Unit := do
  match Language.ruleArray[production]? with
  | none => throw (.corruptTable s!"no production {production}")
  | some rule =>
    let arity := rule.rhs.length
    if (← get).states.length ≤ arity then throw (.stackUnderflow .state production)
    let context : Handle := ⟨← popSymbols arity, lookahead⟩
    modify fun m => { m with production, work.values := m.work.values.begin production }
    onWork (Work.act dialect context rule.action)
    let top ← stateOnTop
    match Language.tables.goto? top rule.lhs.index with
    | none =>
      throw (.corruptTable s!"no goto from state {top} on nonterminal {rule.lhs.index}")
    | some target =>
      modify fun m =>
        { m with states := target :: m.states, spans := context.whole? :: m.spans }

/-! ### Repairing -/

/-- Gives the unit up. -/
def abandon (span : Span) (reason : String) (m : Machine) : Machine :=
  { m.report .unitAbandoned span [reason] with recovery.phase := .abandoned }

/-- Expected tokens that a message names at most. -/
def expectedShown : Nat := 8

/-- Reports a token that fits nowhere, with some that would. -/
def reportUnexpected (t : Token) (m : Machine) : Machine :=
  let expected := match m.states with
    | [] => []
    | top :: _ => (Language.tables.expected top).take expectedShown
  m.report .parsingError t.span (t.shownText :: expected.map TokenKind.grammarName)

/-- Whether every node on the stack lets the unit be repaired. -/
def allowsRepair (dialect : Dialect) (m : Machine) : Bool :=
  match dialect.factory? with
  | some f => m.work.values.nodes.items.all f.allowsRepair
  | none => true

/-- Inserts tokens before `t`, the first that is left. -/
def insert (kinds : List TokenKind) (t : Token) (m : Machine) : Machine :=
  let place := match m.previous with
    | some previous => Span.point previous.span.stop
    | none => .point t.span.start
  let text := " ".intercalate (kinds.map TokenKind.grammarName)
  let construct := Language.automaton.constructAfter m.states kinds t.kind
  let m := m.report .insertToComplete place [text, construct]
  { m with
    rest := kinds.map (fun kind => ⟨kind, place, kind.lexeme?.getD ""⟩) ++ m.rest
    recovery := m.recovery.repaired }

/-- Leaves out `t`, the first token that is left, as a repair. -/
def delete (t : Token) (m : Machine) : Machine :=
  let m := m.report .deleteToken t.span [t.shownText]
  { m with rest := m.rest.tail, recovery := m.recovery.repaired }

/-- Passes over `t`, the first token that is left, for want of a repair, unless there is
nothing after it or too many repairs failed. -/
def passOver (maxFailures : Nat) (t : Token) (m : Machine) : Progress × Machine :=
  let m := m.reportUnexpected t
  let m := { m with recovery.failures := m.recovery.failures + 1 }
  if t.kind = .eof then (.abandoned, m.abandon t.span "unexpected end of input")
  else if maxFailures ≤ m.recovery.failures then
    (.abandoned, m.abandon t.span "too many consecutive syntax errors")
  else (.running, { m with rest := m.rest.tail, recovery := m.recovery.resynchronize })

/-- Gets past `t`, the first token that is left, or gives the unit up. -/
def recover (p : ParserSetup) (t : Token) (m : Machine) : Progress × Machine :=
  if m.recovery.phase = .abandoned then (.abandoned, m)
  else if m.work.reporter.isOutOfBudget then (.abandoned, m.abandon t.span "too many errors")
  else if !m.allowsRepair p.dialect then
    (.abandoned,
      (m.reportUnexpected t).abandon t.span "a declaration in progress cannot be repaired")
  else
    let m := { m with recovery.phase := .recovering }
    match Language.automaton.repair? p.settings.recoveryWindow m.states (m.rest.map Token.kind) with
    | some (.insert kinds) => (.running, m.insert kinds t)
    | some .delete => (.running, m.delete t)
    | none => m.passOver p.settings.maxRecoveryAttempts t

/-! ### One step -/

/-- Splits `t`, the first token that is left, and tells whether it could be split. -/
def splitFirst (t : Token) : Step Bool := do
  match t.split with
  | .whole => return false
  | .halves first rest =>
    modify fun m => { m with rest := first :: rest :: m.rest.tail }
    return true
  | .crashes reason => throw (.crash reason)

/-- One step. -/
def step (p : ParserSetup) : Step Progress := do
  let state ← stateOnTop
  match (← get).rest with
  | [] => throw (.corruptTable "read past end of input")
  | t :: rest =>
    match Language.tables.action state t.kind with
    | .shift target =>
      modify fun m =>
        { m.shift t target with
          previous := some t
          rest
          recovery := m.recovery.shifted p.settings.recoveryWindow }
      return .running
    | .reduce production =>
      reduce p.dialect production t.span
      return .running
    | .accept => return .accepted
    | .error =>
      let split ← if Language.tables.action state .gt = .error then pure false else splitFirst t
      if split then return .running else modifyGet (recover p t)

/-- Steps until the machine stops, at most `gas` of them; `limit` is named when they run out. -/
def run (p : ParserSetup) (limit : Nat) : (gas : Nat) → Step Progress
  | 0 => throw (.outOfGas limit)
  | gas + 1 => do
    match ← step p with
    | .running => run p limit gas
    | progress => return progress

end Machine

end AspectLang
