import AspectLang.Source.LineMap

/-! # Problems in source texts

A `Diagnostic` carries its range, a severity, the identity of the problem and the texts that
its message quotes; the message itself is made from a template only when it is asked for.  A
`Reporter` collects the diagnostics of one compilation unit in order and counts the errors
against a budget. -/

namespace AspectLang

/-- How serious a problem is. -/
inductive Severity where
  | warning | error
deriving DecidableEq, Inhabited, Repr

/-- The word for a severity. -/
def Severity.word : Severity → String
  | .warning => "warning"
  | .error => "error"

/-- The problems that a source text can have. -/
inductive ProblemKind where
  | parsingError | insertToComplete | deleteToken | invalidToken | featureUnavailable
  | duplicateModifier | voidVariable | invalidExtraParameter | pointcutSyntax | perClauseSyntax
  | declareSyntax | lexicalError | unitAbandoned | uninitializedLocal | undeclaredException
  | unreachableCode
deriving DecidableEq, Inhabited, Repr

namespace ProblemKind

/-- Every problem. -/
def all : List ProblemKind := [
  .parsingError, .insertToComplete, .deleteToken, .invalidToken, .featureUnavailable,
  .duplicateModifier, .voidVariable, .invalidExtraParameter, .pointcutSyntax, .perClauseSyntax,
  .declareSyntax, .lexicalError, .unitAbandoned, .uninitializedLocal, .undeclaredException,
  .unreachableCode]

/-- Identifier by which tools tell problems apart. -/
def label : ProblemKind → String
  | .parsingError => "ParsingError"
  | .insertToComplete => "InsertToComplete"
  | .deleteToken => "DeleteToken"
  | .invalidToken => "InvalidToken"
  | .featureUnavailable => "FeatureUnavailable"
  | .duplicateModifier => "DuplicateModifier"
  | .voidVariable => "VoidVariable"
  | .invalidExtraParameter => "InvalidExtraParameter"
  | .pointcutSyntax => "PointcutSyntax"
  | .perClauseSyntax => "PerClauseSyntax"
  | .declareSyntax => "DeclareSyntax"
  | .lexicalError => "LexicalError"
  | .unitAbandoned => "UnitAbandoned"
  | .uninitializedLocal => "UninitializedLocal"
  | .undeclaredException => "UndeclaredException"
  | .unreachableCode => "UnreachableCode"

/-- The problem with a given identifier. -/
def ofLabel? (name : String) : Option ProblemKind := all.find? (·.label == name)

/-- Message of a problem, with the mark `0` in braces for the first text it quotes and the
mark `1` in braces for the others. -/
def template : ProblemKind → String
  | .parsingError => "Syntax error on token \"\x7b0\x7d\", \x7b1\x7d expected"
  | .insertToComplete => "Syntax error, insert \"\x7b0\x7d\" to complete \x7b1\x7d"
  | .deleteToken => "Syntax error on token \"\x7b0\x7d\", delete this token"
  | .invalidToken => "Syntax error on token \"\x7b0\x7d\", \x7b1\x7d expected"
  | .featureUnavailable => "\x7b0\x7d is not available: no dialect support is configured"
  | .duplicateModifier => "Duplicate modifier \"\x7b0\x7d\""
  | .voidVariable => "void is an invalid type for the variable \x7b0\x7d"
  | .invalidExtraParameter => "Syntax error on token \"\x7b0\x7d\", \x7b1\x7d expected"
  | .pointcutSyntax => "Invalid pointcut: \x7b0\x7d"
  | .perClauseSyntax => "Invalid per clause: \x7b0\x7d"
  | .declareSyntax => "Invalid declare statement: \x7b0\x7d"
  | .lexicalError => "Invalid character \"\x7b0\x7d\""
  | .unitAbandoned => "Parsing of this compilation unit stopped: \x7b0\x7d"
  | .uninitializedLocal => "The local variable \x7b0\x7d may not have been initialized"
  | .undeclaredException => "Unhandled exception type \x7b0\x7d"
  | .unreachableCode => "Unreachable code"

/-- Severity of a problem unless it is reported otherwise. -/
def severity : ProblemKind → Severity
  | .undeclaredException | .unreachableCode => .warning
  | _ => .error

end ProblemKind

/-! ### Diagnostics -/

/-- Puts `value` for every occurrence of `mark` in a text, from left to right, after passing
over the first `skip` characters. -/
def fillFrom (mark value : List Char) : Nat → List Char → List Char
  | _, [] => []
  | skip + 1, _ :: cs => fillFrom mark value skip cs
  | 0, c :: cs =>
    if mark.isPrefixOf (c :: cs) then value ++ fillFrom mark value (mark.length - 1) cs
    else c :: fillFrom mark value 0 cs

/-- Puts `value` for every occurrence of the mark `name` in braces. -/
def fillMark (name : Char) (value text : List Char) : List Char :=
  fillFrom ['\x7b', name, '\x7d'] value 0 text

/-- One problem at one place. -/
structure Diagnostic where
  id : ProblemKind
  span : Span
  arguments : List String
  severity : Severity
deriving DecidableEq, Inhabited, Repr

namespace Diagnostic

/-- A problem with its usual severity. -/
def of (id : ProblemKind) (span : Span) (arguments : List String) : Diagnostic :=
  ⟨id, span, arguments, id.severity⟩

/-- Whether the problem is an error. -/
def isError (d : Diagnostic) : Bool := d.severity == .error

/-- The text for the second mark: the arguments after the first. -/
def furtherArguments (d : Diagnostic) : String :=
  let rest := ", ".intercalate d.arguments.tail
  if rest.isEmpty then "a construct" else rest

/-- The message.  The first mark is filled first, and the second mark afterwards, also in
the text that took the place of the first. -/
def message (d : Diagnostic) : String :=
  let first := (d.arguments.headD "").toList
  String.ofList
    (fillMark '1' d.furtherArguments.toList (fillMark '0' first d.id.template.toList))

/-- Place, severity and message, if the diagnostic has a place. -/
def render? (d : Diagnostic) (lines : LineMap) : Option String :=
  (lines.location? d.span.start).map fun place =>
    place.render ++ ": " ++ d.severity.word ++ ": " ++ d.message

/-- Severity, range and message. -/
def describe (d : Diagnostic) : String :=
  s!"{d.severity.word} [{d.span.render}]: {d.message}"

end Diagnostic

/-! ### Reporters -/

/-- The diagnostics of one unit in order, with the budget for errors. -/
structure Reporter where
  diagnostics : Array Diagnostic := #[]
  maxErrors : Nat
  errorCount : Nat := 0
deriving DecidableEq, Inhabited, Repr

namespace Reporter

/-- A reporter without diagnostics; a budget of zero acts as one. -/
def new (maxErrors : Nat) : Reporter := { maxErrors := max maxErrors 1 }

/-- Adds a diagnostic. -/
def report (r : Reporter) (d : Diagnostic) : Reporter :=
  { r with
    diagnostics := r.diagnostics.push d
    errorCount := if d.isError then r.errorCount + 1 else r.errorCount }

/-- Reports a problem with its usual severity. -/
def error (r : Reporter) (id : ProblemKind) (span : Span) (arguments : List String) : Reporter :=
  r.report (.of id span arguments)

/-- Reports a problem as a warning. -/
def warning (r : Reporter) (id : ProblemKind) (span : Span) (arguments : List String) : Reporter :=
  r.report ⟨id, span, arguments, .warning⟩

/-- Whether the unit has used up its budget for errors. -/
def isOutOfBudget (r : Reporter) : Bool := r.maxErrors ≤ r.errorCount

/-- Whether a problem was reported. -/
def has (r : Reporter) (id : ProblemKind) : Bool := r.diagnostics.any (·.id == id)

/-- The same budget without diagnostics. -/
def clear (r : Reporter) : Reporter := { r with diagnostics := #[], errorCount := 0 }

end Reporter

end AspectLang
