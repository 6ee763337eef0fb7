import AspectLang.Text.Blank
import AspectLang.Text.Number

/-! # Settings

The settings of the front end come from environment variables.  A value that cannot be read
counts as absent, so a bad setting never stops the front end. -/

namespace AspectLang

/-- The settings of the front end. -/
structure Settings where
  /-- Errors allowed in a unit before its parsing is abandoned. -/
  maxErrors : Nat := 100
  /-- Failed repairs in a row before a unit is abandoned. -/
  maxRecoveryAttempts : Nat := 8
  /-- Tokens that a trial repair has to consume. -/
  recoveryWindow : Nat := 4
  /-- Name of the dialect, if one is wanted. -/
  dialect : Option String := some "aspectj"
  /-- Whether reductions are traced. -/
  debug : Bool := false
deriving DecidableEq, Inhabited, Repr

namespace Settings

/-- Whether a name of a dialect stands for none. -/
def disables (name : String) : Bool :=
  match String.ofList (Text.trim name.toList) with
  | "" | "none" | "disabled" | "off" => true
  | _ => false

/-- The same settings with a dialect, or without when the name stands for none. -/
def withDialect (c : Settings) (name : String) : Settings :=
  { c with dialect := if disables name then none else some name }

/-- The same settings without a dialect. -/
def withoutDialect (c : Settings) : Settings := { c with dialect := none }

/-- The number in an environment variable, or else a default. -/
def numberOr (value : Option String) (default : Nat) : Nat :=
  match value with
  | some text => (Text.readNat? (Text.trim text.toList)).getD default
  | none => default

/-- The environment variables that settings come from. -/
def variableNames : List String := [
  "AJFRONT_PARSE_MAX_ERRORS", "AJFRONT_RECOVERY_MAX_ATTEMPTS", "AJFRONT_RECOVERY_WINDOW",
  "AJFRONT_DIALECT", "AJFRONT_DEBUG"]

/-- The settings that an environment asks for. -/
def ofEnvironment (lookup : String → Option String) : Settings :=
  let usual : Settings := {}
  { maxErrors := numberOr (lookup "AJFRONT_PARSE_MAX_ERRORS") usual.maxErrors
    maxRecoveryAttempts :=
      numberOr (lookup "AJFRONT_RECOVERY_MAX_ATTEMPTS") usual.maxRecoveryAttempts
    recoveryWindow := max (numberOr (lookup "AJFRONT_RECOVERY_WINDOW") usual.recoveryWindow) 1
    dialect := match lookup "AJFRONT_DIALECT" with
      | some name => if disables name then none else some (String.ofList (Text.trim name.toList))
      | none => usual.dialect
    debug := (lookup "AJFRONT_DEBUG").isSome }

end Settings

end AspectLang
