/-! # Faults of the front end itself

Problems in a source text are diagnostics.  A `Fault` is something else: the parser found its
stacks or tables in a state that no grammar rule allows, ran out of steps, or was handed a
grammar or a token it cannot use.  A token can only be unusable by a `Crash`.  A `Failure` is
what the front end as a whole can report instead of a result. -/

namespace AspectLang

/-- The stacks of the parser. -/
inductive StackName where
  | ast | expression | identifier | int | generics | state
deriving DecidableEq, Inhabited, Repr

/-- The word for a stack. -/
def StackName.word : StackName → String
  | .ast => "ast"
  | .expression => "expression"
  | .identifier => "identifier"
  | .int => "int"
  | .generics => "generics"
  | .state => "state"

/-- What a semantic action may expect on a stack. -/
inductive NodeSort where
  | package | importDeclaration | type | member | method | declarator | argument | statement
  | block | catchClause | typeArgument | typeParameter | aspect | advice | extraParameter
  | pseudoToken | annotationUse | literal
deriving DecidableEq, Inhabited, Repr

/-- The words for a sort of node. -/
def NodeSort.words : NodeSort → String
  | .package => "package"
  | .importDeclaration => "import"
  | .type => "type"
  | .member => "member"
  | .method => "method"
  | .declarator => "declarator"
  | .argument => "argument"
  | .statement => "statement"
  | .block => "block"
  | .catchClause => "catch clause"
  | .typeArgument => "type argument"
  | .typeParameter => "type parameter"
  | .aspect => "aspect"
  | .advice => "advice"
  | .extraParameter => "extra parameter"
  | .pseudoToken => "pseudo token"
  | .annotationUse => "annotation"
  | .literal => "literal"

/-- Ways in which a token that was given to the parser breaks it off. -/
inductive Crash where
  /-- The text of a token had to be cut inside a character. -/
  | brokenText (text : String)
  /-- The offset behind this one had to be taken, which is no machine word. -/
  | offsetOverflow (offset : Nat)
deriving DecidableEq, Inhabited, Repr

/-- The words for a crash. -/
def Crash.message : Crash → String
  | .brokenText text => s!"token text cut inside a character: {text}"
  | .offsetOverflow offset => s!"no offset behind {offset}"

/-- Faults inside the parser. -/
inductive Fault where
  /-- A stack holds fewer entries than the production contributed. -/
  | stackUnderflow (stack : StackName) (production : Nat)
  /-- A segment on a stack has another length than the production needs. -/
  | arityMismatch (production expected found : Nat)
  /-- A stack entry is not what the action requires. -/
  | wrongNode (stack : StackName) (expected : NodeSort) (production : Nat)
  /-- Stacks still hold entries after the unit was accepted. -/
  | unbalanced (detail : String)
  /-- The automaton ran past its step budget. -/
  | outOfGas (limit : Nat)
  /-- A table names a state or production that does not exist. -/
  | corruptTable (detail : String)
  /-- A grammar could not be turned into tables. -/
  | grammar (message : String)
  /-- The parser broke off. -/
  | crash (reason : Crash)
deriving DecidableEq, Inhabited, Repr

/-- Whether a fault is a crash, which ends even the rescue of a unit. -/
def Fault.isCrash : Fault → Bool
  | .crash _ => true
  | _ => false

/-- The words for a fault. -/
def Fault.message : Fault → String
  | .stackUnderflow stack production =>
    s!"{stack.word} stack underflow in production {production}"
  | .arityMismatch production expected found =>
    s!"arity mismatch in production {production}: expected {expected}, found {found}"
  | .wrongNode stack expected production =>
    s!"production {production} expected {expected.words} on the {stack.word} stack"
  | .unbalanced detail => s!"unbalanced stacks after accept: {detail}"
  | .outOfGas limit => s!"parser exceeded {limit} steps"
  | .corruptTable detail => s!"corrupt parse table: {detail}"
  | .grammar message => s!"grammar: {message}"
  | .crash reason => reason.message

/-! ### Failures -/

/-- Reasons why a file cannot be read or a directory cannot be listed. -/
inductive FileFault where
  | notFound
  | isADirectory
  | notADirectory
  /-- A path, or a word of it, is longer than a path may be. -/
  | nameTooLong
  | notText
  /-- There is nothing to look for sources in. -/
  | nothingAt (path : String)
deriving DecidableEq, Inhabited, Repr

/-- The words for a file fault. -/
def FileFault.message : FileFault → String
  | .notFound => "No such file or directory (os error 2)"
  | .isADirectory => "Is a directory (os error 21)"
  | .notADirectory => "Not a directory (os error 20)"
  | .nameTooLong => "File name too long (os error 36)"
  | .notText => "stream did not contain valid UTF-8"
  | .nothingAt path => path ++ " does not exist"

/-- What the front end can report instead of a result. -/
inductive Failure where
  | file (fault : FileFault)
  | parse (offset : Nat) (message : String)
  | lexical (message : String)
  | grammar (message : String)
  | unsupportedFeature (feature : String)
  | config (message : String)
  | internal (message : String)
deriving DecidableEq, Inhabited, Repr

namespace Failure

/-- The words for a failure. -/
def message : Failure → String
  | .file fault => s!"IO error: {fault.message}"
  | .parse offset message => s!"Parse error at offset {offset}: {message}"
  | .lexical message => s!"Lexical error: {message}"
  | .grammar message => s!"Grammar error: {message}"
  | .unsupportedFeature feature => s!"Unsupported feature: {feature}"
  | .config message => s!"Configuration error: {message}"
  | .internal message => s!"Internal front end error: {message}"

/-- A fault of the parser as the front end reports it: a bad grammar as such, and every
other fault as an internal one. -/
def ofFault : Fault → Failure
  | .grammar message => .grammar message
  | fault => .internal fault.message

end Failure

end AspectLang
