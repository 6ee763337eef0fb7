import AspectLang.CommandLine.Arguments
import AspectLang.FileTree
import AspectLang.Text.Quoted
import AspectLang.Tree.Printer

/-! # Commands

`parse` shows the trees and the diagnostics of sources, `lex` the tokens of a file, and `check`
the diagnostics alone; `check` fails if there are errors.  Each is a function from what the
path leads to and from the environment to an `Output`. -/

namespace AspectLang.CommandLine

/-- What a command prints, and its exit code. -/
structure Output where
  code : Nat := 0
  stdout : String := ""
  stderr : String := ""
deriving DecidableEq, Inhabited, Repr

/-- Exit code when a command fails. -/
def failureCode : Nat := 1

/-- Exit code when the command line is not understood. -/
def usageCode : Nat := 2

/-- Exit code when the batch cannot be cut into chunks, or a place cannot be shown. -/
def abortCode : Nat := 101

/-- Lines, each with its end. -/
def linesText (lines : List String) : String := String.join (lines.map (· ++ "\n"))

/-- A text whose lines after the first stand behind a margin. -/
def hang (margin text : String) : String :=
  String.ofList (text.toList.flatMap fun c => if c == '\n' then c :: margin.toList else [c])

/-- The causes of a failure as they are listed: one alone is indented, several are numbered from
zero, and the further lines of a cause stand below the first. -/
def causeLines : List String → List String
  | [cause] => ["    " ++ hang "    " cause]
  | causes => causes.zipIdx.map fun (cause, i) => s!"    {i}: " ++ hang "       " cause

/-- The output of a failure and of the causes behind it, the nearest first. -/
def failWith (message : String) (causes : List String) (stdout : String) : Output where
  code := failureCode
  stdout := stdout
  stderr := linesText (("Error: " ++ message) ::
    if causes.isEmpty then [] else "" :: "Caused by:" :: causeLines causes)

/-! ### Showing reports -/

/-- The diagnostics of a unit, each behind the name of the unit, if all of them have a place. -/
def diagnosticLines (r : UnitReport) : Option (List String) :=
  match r.result with
  | .ok c => c.diagnostics.mapM fun d => (d.render? c.lines).map (r.name ++ ":" ++ ·)
  | .error e => some [r.name ++ ": error: " ++ e.message]

/-- The tree of a unit behind its name, and its diagnostics. -/
def reportText (r : UnitReport) : Option String :=
  let tree := match r.result with
    | .ok c => c.unit.listing
    | .error e => "error: " ++ e.message ++ "\n"
  (diagnosticLines r).map fun lines => "== " ++ r.name ++ "\n" ++ tree ++ linesText lines

/-- A token as `lex` shows it. -/
def pieceLine (locations : Bool) (lines : LineMap) : Except LexicalError Token → Option String
  | .ok t =>
    let shown := t.kind.label ++ " " ++ String.ofList (Text.quote t.text.toList)
    if locations then (lines.location? t.span.start).map (shown ++ " at " ++ ·.render)
    else some shown
  | .error e =>
    (lines.location? e.span.start).map fun place =>
      "invalid token " ++ String.ofList (Text.quote e.text.toList) ++ " at " ++ place.render

/-! ### Running -/

/-- The output when a place cannot be shown. -/
def placeless : Output where
  code := abortCode
  stderr := "column out of range\n"

/-- The output of `lex`. -/
def runLex (i : Invocation) (found : Except FileFault FileNode) : Output :=
  match (FoundFile.ofNode i.input found).text with
  | .error e => failWith ("reading " ++ i.input) [e.message] ""
  | .ok source =>
    let lines := LineMap.ofSource source
    match (Scanner.stream source).pieces.mapM (pieceLine i.detailed lines) with
    | some shown => { stdout := linesText shown }
    | none => placeless

/-- The output of `parse`. -/
def parseOutput (c : Compilation) : Output :=
  match c.units.mapM reportText with
  | some texts => { stdout := String.join texts }
  | none => placeless

/-- The output of `check`. -/
def checkOutput (c : Compilation) : Output :=
  match c.units.mapM diagnosticLines with
  | some lines =>
    let errors := c.errorCount
    let summary := s!"{c.units.length} file(s) checked, {errors} error(s)"
    let stdout := linesText (lines.flatten ++ [summary])
    if c.failed then failWith s!"check failed with {errors} error(s)" [] stdout
    else { stdout }
  | none => placeless

/-- Compiles the sources that a path leads to and shows the result. -/
def runBatch (c : Compiler) (i : Invocation) (found : Except FileFault FileNode)
    (shown : Compilation → Output) : Output :=
  match collect i.input found with
  | .error e => failWith ("reading " ++ i.input) [(Failure.file e).message, e.message] ""
  | .ok files =>
    match c.compileFiles files with
    | some compilation => shown compilation
    | none => { code := abortCode, stderr := "too many workers\n" }

/-- The compiler that a command line and an environment ask for. -/
def Invocation.compiler (i : Invocation) (environment : String → Option String) : Compiler :=
  let usual := Settings.ofEnvironment environment
  let settings := match i.dialect with
    | some name => usual.withDialect name
    | none => usual
  { settings, dialect := Registry.standard.resolve settings, threads := UInt64.ofNat i.jobs }

/-- Runs a command on what its path leads to. -/
def Invocation.run (i : Invocation) (environment : String → Option String)
    (found : Except FileFault FileNode) : Output :=
  match i.command with
  | .lex => runLex i found
  | .parse => runBatch (i.compiler environment) i found parseOutput
  | .check => runBatch (i.compiler environment) i found checkOutput

/-- How the command line is used. -/
def usageText : String := linesText [
  "Usage: ajfront [OPTIONS] <COMMAND>",
  "",
  "Commands:",
  "  parse  Parse sources and show the tree and diagnostics",
  "  lex    Lexically analyze a source file",
  "  check  Parse and analyze sources, failing on errors",
  "",
  "Options:",
  "      --dialect <NAME>  Dialect to parse with",
  "  -j, --jobs <JOBS>     Parser worker threads",
  "  -v, --verbose         Verbose output",
  "  -h, --help            Print help",
  "  -V, --version         Print version"]

/-- The output when there is no command to run. -/
def Refusal.output : Refusal → Output
  | .usage => { code := usageCode, stderr := usageText }
  | .help => { stdout := usageText }
  | .version => { stdout := "ajfront 0.1.0\n" }

/-- Runs a command line on a tree of files. -/
def run (arguments : List String) (environment : String → Option String) (files : FileTree) :
    Output :=
  match Invocation.ofArguments arguments with
  | .error refusal => refusal.output
  | .ok i => i.run environment (files.find i.input)

end AspectLang.CommandLine
