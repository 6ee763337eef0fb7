import AspectLang.Text.Number

/-! # Arguments of the command line

A command line names a command, `parse`, `lex` or `check`, with the path it works on.  Some
options may stand before or after the name of the command; one that stands in both places
counts as it stands after.  Twice in one place is an error, as is everything that is not
understood. -/

namespace AspectLang.CommandLine

/-- The commands. -/
inductive CommandName where
  | parse | lex | check
deriving DecidableEq, Inhabited, Repr

/-- The command with a given name. -/
def CommandName.ofWord? : String → Option CommandName
  | "parse" => some .parse
  | "lex" => some .lex
  | "check" => some .check
  | _ => none

/-- What a command line asks for. -/
structure Invocation where
  command : CommandName
  input : String
  dialect : Option String
  jobs : Nat
  verbose : Bool
  /-- Whether `parse` shows details, or `lex` shows locations. -/
  detailed : Bool
deriving DecidableEq, Inhabited, Repr

/-- What a command line can come to without a command. -/
inductive Refusal where
  | usage | help | version
deriving DecidableEq, Inhabited, Repr

/-- What was read on one side of the command's name. -/
structure Level where
  dialect : Option String := none
  jobs : Option Nat := none
  verbose : Bool := false
  detailed : Bool := false
  input : Option String := none
deriving DecidableEq, Inhabited, Repr

/-- The options that take a value. -/
inductive ValueOption where
  | dialect | jobs
deriving DecidableEq, Inhabited, Repr

/-- The options that take none. -/
inductive FlagOption where
  | verbose | detailed | help | version
deriving DecidableEq, Inhabited, Repr

/-- The arguments read so far. -/
structure Reading where
  before : Level := {}
  command : Option CommandName := none
  after : Level := {}
  /-- The option whose value comes next. -/
  pending : Option ValueOption := none
  /-- Whether no more options can come. -/
  onlyOperands : Bool := false
  /-- The commands on which help was asked for. -/
  topics : Option (List String) := none
deriving DecidableEq, Inhabited, Repr

namespace Reading

/-- What was read on the current side of the command's name. -/
def level (r : Reading) : Level := if r.command.isSome then r.after else r.before

/-- Puts something in place of what was read on the current side. -/
def setLevel (l : Level) (r : Reading) : Reading :=
  if r.command.isSome then { r with after := l } else { r with before := l }

/-- Takes the value of an option. -/
def setValue (option : ValueOption) (value : String) (r : Reading) : Except Refusal Reading :=
  let l := r.level
  let r := { r with pending := none }
  match option with
  | .dialect =>
    if l.dialect.isSome then .error .usage else .ok (r.setLevel { l with dialect := some value })
  | .jobs =>
    match Text.readNat? value.toList with
    | none => .error .usage
    | some jobs =>
      if l.jobs.isSome then .error .usage else .ok (r.setLevel { l with jobs := some jobs })

/-- Takes an option without a value. -/
def setFlag (option : FlagOption) (r : Reading) : Except Refusal Reading :=
  let l := r.level
  match option with
  | .help => .error .help
  | .version => .error .version
  | .verbose => if l.verbose then .error .usage else .ok (r.setLevel { l with verbose := true })
  | .detailed => if l.detailed then .error .usage else .ok (r.setLevel { l with detailed := true })

/-- The option without a value that a long name stands for here. -/
def longFlag? (r : Reading) (name : String) : Option FlagOption :=
  match name, r.command with
  | "verbose", _ => some .verbose
  | "help", _ => some .help
  | "version", none => some .version
  | "detailed", some .parse => some .detailed
  | "locations", some .lex => some .detailed
  | _, _ => none

/-- The option without a value that a letter stands for here. -/
def shortFlag? (r : Reading) (letter : Char) : Option FlagOption :=
  match letter, r.command with
  | 'v', _ => some .verbose
  | 'h', _ => some .help
  | 'V', none => some .version
  | 'd', some .parse => some .detailed
  | 'l', some .lex => some .detailed
  | _, _ => none

/-- The option with a value that a long name stands for. -/
def longValue? : String → Option ValueOption
  | "dialect" => some .dialect
  | "jobs" => some .jobs
  | _ => none

/-- Reads an option with a long name, and the value after an equals sign if there is one. -/
def readLong (name : List Char) (value : Option (List Char)) (r : Reading) :
    Except Refusal Reading :=
  let name := String.ofList name
  match longValue? name, r.longFlag? name, value with
  | some option, _, some value => r.setValue option (String.ofList value)
  | some option, _, none => .ok { r with pending := some option }
  | none, some flag, none => r.setFlag flag
  | none, _, _ => .error .usage

/-- Reads letters that stand for options; the number of jobs takes the rest of the word. -/
def readShort (r : Reading) : List Char → Except Refusal Reading
  | [] => .ok r
  | 'j' :: [] => .ok { r with pending := some .jobs }
  | 'j' :: '=' :: value => r.setValue .jobs (String.ofList value)
  | 'j' :: value => r.setValue .jobs (String.ofList value)
  | letter :: letters =>
    match r.shortFlag? letter with
    | none => .error .usage
    | some flag =>
      match r.setFlag flag with
      | .error e => .error e
      | .ok r => readShort r letters

/-- Reads a word that is no option. -/
def readOperand (word : String) (r : Reading) : Except Refusal Reading :=
  match r.command with
  | some _ =>
    if r.after.input.isSome || word.isEmpty then .error .usage
    else .ok { r with after.input := some word }
  | none =>
    if r.onlyOperands then .error .usage
    else if word == "help" then .ok { r with topics := some [] }
    else match CommandName.ofWord? word with
      | some command => .ok { r with command := some command }
      | none => .error .usage

/-- Whether a word looks like an option. -/
def looksLikeOption : List Char → Bool
  | '-' :: _ :: _ => true
  | _ => false

/-- Reads one word. -/
def read (r : Reading) (word : String) : Except Refusal Reading :=
  match r.topics, r.pending with
  | some topics, _ => .ok { r with topics := some (topics ++ [word]) }
  | none, some option =>
    if looksLikeOption word.toList then .error .usage else r.setValue option word
  | none, none =>
    if r.onlyOperands then r.readOperand word
    else match word.toList with
      | ['-', '-'] => .ok { r with onlyOperands := true }
      | '-' :: '-' :: option =>
        let name := option.takeWhile (· != '=')
        match option.drop name.length with
        | [] => r.readLong name none
        | _ :: value => r.readLong name (some value)
      | '-' :: letter :: letters => r.readShort (letter :: letters)
      | _ => r.readOperand word

/-- What the words come to when there are no more of them. -/
def finish (r : Reading) : Except Refusal Invocation :=
  match r.topics, r.pending, r.command, r.after.input with
  | some [], _, _, _ => .error .help
  | some [topic], _, _, _ =>
    if topic == "help" || (CommandName.ofWord? topic).isSome then .error .help else .error .usage
  | none, none, some command, some input => .ok {
      command, input
      dialect := r.after.dialect <|> r.before.dialect
      jobs := (r.after.jobs <|> r.before.jobs).getD 1
      verbose := r.after.verbose || r.before.verbose
      detailed := r.after.detailed }
  | _, _, _, _ => .error .usage

end Reading

/-- Reads a command line. -/
def Invocation.ofArguments (arguments : List String) : Except Refusal Invocation :=
  match arguments.foldlM Reading.read {} with
  | .error e => .error e
  | .ok r => r.finish

end AspectLang.CommandLine
