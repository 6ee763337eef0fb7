import AspectLang.Parse.Salvage
import AspectLang.Token.Scanner

/-! # Parsing units

A `Parser` turns streams of tokens into trees, one unit after the other.  What a unit leaves in
the parser stays until the next unit starts: a unit that ends in a fault leaves everything as it
stood, and every other one leaves at least its record of repairs. -/

namespace AspectLang

/-- What parsing a unit gives. -/
structure ParseOutcome where
  /-- The tree; of an abandoned unit what could be kept. -/
  unit : CompilationUnit
  diagnostics : List Diagnostic
  isAbandoned : Bool
  /-- Number of insertions and deletions. -/
  repairs : Nat

namespace ParseOutcome

/-- Whether there is an error among the diagnostics. -/
def hasErrors (o : ParseOutcome) : Bool := o.diagnostics.any Diagnostic.isError

/-- Where the recovery ended. -/
def phase (o : ParseOutcome) : RecoveryPhase := if o.isAbandoned then .abandoned else .parsing

end ParseOutcome

/-- A parser between two units, with all that the last unit left in it. -/
structure Parser where
  setup : ParserSetup
  states : List Nat := []
  spans : List (Option Span) := []
  production : Nat := 0
  values : ValueStacks := {}
  reporter : Reporter := .new setup.settings.maxErrors
  unit : Option CompilationUnit := none
  unavailableReported : Bool := false
  recovery : Recovery := {}

namespace Parser

/-- A parser that has read nothing. -/
def new (settings : Settings) (dialect : Dialect) : Parser := { setup := ⟨settings, dialect⟩ }

/-- Steps that a unit may take. -/
def stepLimit : Nat := 5000000

/-! ### Between units -/

/-- Makes the parser ready for a unit.  The stacks lose their entries, but still name the
production that was reduced last. -/
def reset (p : Parser) : Parser where
  setup := p.setup
  states := [0]
  spans := [none]
  values := p.values.reset

/-- The parser with all that a machine holds. -/
def keep (p : Parser) (m : Machine) : Parser where
  setup := p.setup
  states := m.states
  spans := m.spans
  production := m.production
  values := m.work.values
  reporter := m.work.reporter
  unit := m.work.unit
  unavailableReported := m.work.unavailableReported
  recovery := m.recovery

/-- The parser after the outcome of a unit was taken out of a machine. -/
def close (p : Parser) (m : Machine) : Parser :=
  { p.keep m with
    values := m.work.values.reset
    reporter := .new p.setup.settings.maxErrors }

/-! ### One unit -/

/-- The range of a unit whose text has a given length. -/
def spanOfLength (length : Nat) : Span := ⟨0, length - 1⟩

/-- Reports the lexical errors of a stream. -/
def reportLexical (stream : TokenStream) (r : Reporter) : Reporter :=
  stream.errors.foldl (fun r e => r.error .lexicalError e.span [e.text]) r

/-- The machine before the first step on a stream. -/
def start (p : Parser) (stream : TokenStream) : Machine where
  states := p.reset.states
  spans := p.reset.spans
  production := p.reset.production
  work := {
    values := p.reset.values
    reporter := reportLexical stream p.reset.reporter
    unit := p.reset.unit
    unavailableReported := p.reset.unavailableReported }
  recovery := p.reset.recovery
  rest := stream.tokens ++ [Token.eof stream.endOffset]

/-- The outcome with a given tree. -/
def outcome (unit : CompilationUnit) (isAbandoned : Bool) (m : Machine) : ParseOutcome where
  unit := unit
  diagnostics := m.work.reporter.diagnostics.toList
  isAbandoned := isAbandoned
  repairs := m.recovery.repairs

/-- The outcome of a unit that was read to its end. -/
def finishAccepted (length : Nat) : Step ParseOutcome := fun m =>
  match m.work.unit with
  | none => .error (.corruptTable "accepted without a compilation unit") m
  | some unit =>
    let m := { m with work.unit := none }
    let depths := m.work.values.depths
    if depths.isZero then .ok (outcome { unit with span := spanOfLength length } false m) m
    else .error (.unbalanced depths.render) m

/-- The outcome of a unit that was given up. -/
def finishAbandoned (dialect : Dialect) (length : Nat) : Step ParseOutcome := fun m =>
  match Machine.settle dialect length stepLimit m with
  | .error e m => .error e m
  | .ok _ m =>
    .ok (outcome (Salvage.ofNodes (spanOfLength length) m.work.values.nodes.toList) true m)
      { m with states := [], spans := [] }

/-- The outcome of a unit, by how the machine stopped. -/
def finish (dialect : Dialect) (length : Nat) : Progress → Step ParseOutcome
  | .abandoned => finishAbandoned dialect length
  | _ => finishAccepted length

/-- Parses a unit, and gives the parser for the next one. -/
def parseStream (p : Parser) (stream : TokenStream) : Except Fault ParseOutcome × Parser :=
  let length := stream.endOffset
  match Machine.run p.setup stepLimit stepLimit (p.start stream) with
  | .error e m => (.error e, p.keep m)
  | .ok progress m =>
    match finish p.setup.dialect length progress m with
    | .error e m => (.error e, p.keep m)
    | .ok o m => (.ok o, p.close m)

/-- Parses a text, and gives the parser for the next unit. -/
def parse (p : Parser) (source : String) : Except Fault ParseOutcome × Parser :=
  p.parseStream (Scanner.stream source)

end Parser

end AspectLang
