import AspectLang.CommandLine.Run

/-! # The command line

Reads the files that a command needs, runs the command and prints its output. -/

namespace AspectLang.Main

/-- The files below a directory, by the words of their paths from there. -/
partial def filesBelow (directory : String) (above : List String) :
    IO (List (List String × ByteArray)) := do
  let mut files := []
  let here := (← IO.currentDir) / directory
  for entry in ← here.readDir do
    let path := directory ++ "/" ++ entry.fileName
    let words := above ++ [entry.fileName]
    match (← entry.path.metadata).type with
    | .dir => files := files ++ (← filesBelow path words)
    | .file => files := files ++ [(words, ← IO.FS.readBinFile entry.path)]
    | _ => pure ()
  return files

/-- What a path leads to. -/
def findNode (path : String) : IO (Except FileFault FileNode) := do
  let here := (← IO.currentDir) / path
  match ← here.metadata.toBaseIO with
  | .ok found =>
    match found.type with
    | .dir => return .ok (.directory (← filesBelow path []))
    | _ => return .ok (.file (← IO.FS.readBinFile here))
  | .error (.inappropriateType ..) => return .error .notADirectory
  | .error (.invalidArgument ..) => return .error .nameTooLong
  | .error _ => return .error .notFound

/-- The values of the environment variables that settings come from. -/
def environment : IO (List (String × String)) := do
  let mut found := []
  for name in Settings.variableNames do
    if let some value ← IO.getEnv name then found := (name, value) :: found
  return found

/-- Prints an output and gives its exit code. -/
def print (o : CommandLine.Output) : IO UInt32 := do
  IO.print o.stdout
  IO.eprint o.stderr
  return UInt32.ofNat o.code

end AspectLang.Main

open AspectLang

/-- Runs the command line. -/
def main (arguments : List String) : IO UInt32 := do
  match CommandLine.Invocation.ofArguments arguments with
  | .error refusal => Main.print refusal.output
  | .ok invocation =>
    let environment ← Main.environment
    let found ← Main.findNode invocation.input
    Main.print (invocation.run (fun name => environment.lookup name) found)
