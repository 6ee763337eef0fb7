import AspectLang.Binding.Resolution
import AspectLang.Flow.Unit
import AspectLang.Parse.Unit

/-! # Compiling batches

A `Compiler` parses each unit of a batch, analyses its flow and, if asked to, resolves its
bindings.  Units do not depend on each other: one that fails is reported as failed, and the
batch goes on.  An `Adapter` is told of each step; it may note something down, and at the steps
of a unit it may fail, which fails that unit only.

With several workers the batch is cut into chunks of equal size, and each chunk has a parser
of its own. -/

namespace AspectLang

/-- A text with the name under which it is reported. -/
structure SourceUnit where
  name : String
  source : String
deriving DecidableEq, Inhabited, Repr

/-! ### Adapters -/

/-- The steps of a unit that an adapter is told of. -/
inductive UnitEvent where
  | beforeProcessing (unit : CompilationUnit)
  | beforeAnalysing (unit : CompilationUnit)
  | beforeResolving (unit : CompilationUnit)
  | afterResolving (unit : CompilationUnit) (bindings : Environment)
  | afterProcessing (unit : CompilationUnit) (index : Nat)

/-- What an adapter does at a step: notes, and the reason if it fails. -/
structure Response (ν : Type) where
  notes : List ν := []
  failure : Option String := none

/-- An observer of a batch. -/
structure Adapter (ν : Type) where
  /-- Before a batch of so many units. -/
  beforeCompiling : Nat → List ν := fun _ => []
  /-- At a step of a unit. -/
  onUnit : UnitEvent → Response ν := fun _ => {}
  /-- After a batch of so many units. -/
  afterCompiling : Nat → List ν := fun _ => []

/-- The adapter that does nothing. -/
def Adapter.silent {ν : Type} : Adapter ν := {}

/-! ### Results -/

/-- What compiling a unit gives. -/
structure CompiledUnit where
  unit : CompilationUnit
  diagnostics : List Diagnostic
  isAbandoned : Bool
  flow : FlowCounts
  bindings : Option Environment
  lines : LineMap

/-- Whether there is an error among the diagnostics. -/
def CompiledUnit.hasErrors (c : CompiledUnit) : Bool := c.diagnostics.any Diagnostic.isError

/-- The result for one unit. -/
structure UnitReport where
  name : String
  result : Except Failure CompiledUnit

namespace UnitReport

/-- Whether the unit failed or has errors. -/
def failed (r : UnitReport) : Bool :=
  match r.result with
  | .ok c => c.hasErrors
  | .error _ => true

/-- Number of errors; a failure counts as one. -/
def errorCount (r : UnitReport) : Nat :=
  match r.result with
  | .ok c => c.diagnostics.countP Diagnostic.isError
  | .error _ => 1

end UnitReport

/-- The results of a batch. -/
structure Compilation where
  units : List UnitReport

namespace Compilation

/-- Whether some unit failed or has errors. -/
def failed (c : Compilation) : Bool := c.units.any UnitReport.failed

/-- Number of errors. -/
def errorCount (c : Compilation) : Nat := c.units.foldl (fun n r => n + r.errorCount) 0

end Compilation

/-! ### Compilers -/

/-- How to compile. -/
structure Compiler where
  settings : Settings
  dialect : Dialect
  /-- Number of workers; zero acts as one. -/
  threads : UInt64 := 1
  /-- Whether bindings are resolved. -/
  resolves : Bool := false

namespace Compiler

variable {ν : Type}

/-- A parser for the units of this compiler. -/
def parser (c : Compiler) : Parser := .new c.settings c.dialect

/-- A step that notes something down and may fail. -/
abbrev Observed (ν : Type) := EStateM Failure (List ν)

/-- Tells the adapter of a step of the unit with a given name. -/
def tell (adapter : Adapter ν) (name : String) (event : UnitEvent) : Observed ν Unit := do
  let response := adapter.onUnit event
  modify (· ++ response.notes)
  match response.failure with
  | some reason => throw (.internal s!"panic while compiling {name}: {reason}")
  | none => return

/-- The diagnostics of a parsed unit in a reporter. -/
def reporterOf (c : Compiler) (o : ParseOutcome) : Reporter :=
  o.diagnostics.foldl Reporter.report (.new c.settings.maxErrors)

/-- Analyses the flow of a parsed unit, unless it was abandoned. -/
def analyse (c : Compiler) (adapter : Adapter ν) (name : String) (o : ParseOutcome) :
    Observed ν (CompilationUnit × UnitFlow) := do
  let reporter := c.reporterOf o
  if o.isAbandoned then return (o.unit, { reporter })
  else
    tell adapter name (.beforeAnalysing o.unit)
    return o.unit.flow reporter

/-- Resolves the bindings of a unit, if asked to. -/
def bind (c : Compiler) (adapter : Adapter ν) (name : String) (unit : CompilationUnit) :
    Observed ν (Option Environment) := do
  if c.resolves then
    tell adapter name (.beforeResolving unit)
    let bindings := unit.resolve
    tell adapter name (.afterResolving unit bindings)
    return some bindings
  else return none

/-- Goes on with a unit after it was parsed. -/
def process (c : Compiler) (adapter : Adapter ν) (index : Nat) (source : SourceUnit)
    (o : ParseOutcome) : Observed ν CompiledUnit := do
  tell adapter source.name (.beforeProcessing o.unit)
  let (unit, flow) ← c.analyse adapter source.name o
  let bindings ← c.bind adapter source.name unit
  tell adapter source.name (.afterProcessing unit index)
  return {
    unit, bindings
    diagnostics := flow.reporter.diagnostics.toList
    isAbandoned := o.isAbandoned
    flow := flow.stats
    lines := LineMap.ofSource source.source }

/-- Compiles the unit at a place in its batch: the parser for the next unit, the report, and
what the adapter noted.  After a failure of the adapter the parser starts afresh. -/
def compileOne (c : Compiler) (adapter : Adapter ν) (p : Parser) (index : Nat)
    (source : SourceUnit) : Parser × UnitReport × List ν :=
  match p.parse source.source with
  | (.error e, p) => (p, ⟨source.name, .error (.ofFault e)⟩, [])
  | (.ok o, p) =>
    match c.process adapter index source o [] with
    | .ok compiled notes => (p, ⟨source.name, .ok compiled⟩, notes)
    | .error e notes => (p.reset, ⟨source.name, .error e⟩, notes)

/-- Compiles consecutive units with one parser; `first` is the place of the first one. -/
def compileInTurn (c : Compiler) (adapter : Adapter ν) (p : Parser) (first : Nat) :
    List SourceUnit → List (UnitReport × List ν)
  | [] => []
  | source :: rest =>
    let (p, result) := c.compileOne adapter p first source
    result :: compileInTurn c adapter p (first + 1) rest

/-! ### Chunks -/

/-- Number of units in a chunk: the units divided by the workers, rounded up.  There is none when
the units and the workers together are more than a 64-bit word counts. -/
def chunkSize? (units : Nat) (threads : UInt64) : Option Nat :=
  let together := units + threads.toNat
  if together < UInt64.size then some ((together - 1) / threads.toNat) else none

/-- Cuts a list into chunks of `size`, the last of which may be shorter. -/
def chunks {α : Type} (size : Nat) (xs : List α) : List (List α) :=
  if size = 0 then []
  else match xs with
    | [] => []
    | x :: xs => (x :: xs).take size :: chunks size ((x :: xs).drop size)
termination_by xs.length

/-- Compiles chunks, each with its own parser; the first unit of the chunk with number `k` has
the place `k * size`. -/
def compileChunks (c : Compiler) (adapter : Adapter ν) (size : Nat) :
    (number : Nat) → List (List SourceUnit) → List (UnitReport × List ν)
  | _, [] => []
  | number, chunk :: rest =>
    c.compileInTurn adapter c.parser (number * size) chunk ++
      compileChunks c adapter size (number + 1) rest

/-- The results of the units of a batch; `none` when it has to be cut into chunks and there is no
size for them. -/
def compileUnits (c : Compiler) (adapter : Adapter ν) (sources : List SourceUnit) :
    Option (List (UnitReport × List ν)) :=
  if c.threads ≤ 1 ∨ sources.length < 2 then some (c.compileInTurn adapter c.parser 0 sources)
  else
    (chunkSize? sources.length c.threads).map fun size =>
      c.compileChunks adapter size 0 (chunks size sources)

/-- Compiles a batch: the reports in order, and what the adapter noted. -/
def compile (c : Compiler) (adapter : Adapter ν) (sources : List SourceUnit) :
    Option (Compilation × List ν) :=
  (c.compileUnits adapter sources).map fun results =>
    (⟨results.map (·.1)⟩,
      adapter.beforeCompiling sources.length ++ results.flatMap (·.2) ++
        adapter.afterCompiling results.length)

end Compiler

/-- Compiles one text on its own. -/
def checkSource (settings : Settings) (dialect : Dialect) (source : String) :
    Except Failure CompiledUnit :=
  let c : Compiler := { settings, dialect }
  (c.compileOne (Adapter.silent : Adapter Unit) c.parser 0 ⟨"<source>", source⟩).2.1.result

end AspectLang
