import AspectLang.Automaton.Feed
import AspectLang.Token.Basic

/-! # Repairs

Before a token that fits nowhere the parser looks for a repair: the insertion of one token, the
deletion of the token, or at the end of input a run of closing tokens.  A repair counts only if
a trial run of the automaton reads the next few tokens after it.  `Recovery` keeps how the
repairs of one unit went. -/

namespace AspectLang

/-- Where the recovery of a unit stands. -/
inductive RecoveryPhase where
  | parsing
  | recovering
  /-- A repair was made; the next few shifts confirm it. -/
  | resynchronized
  | abandoned
deriving DecidableEq, Inhabited, Repr

/-- The word for a phase. -/
def RecoveryPhase.word : RecoveryPhase → String
  | .parsing => "parsing"
  | .recovering => "recovering"
  | .resynchronized => "resynchronized"
  | .abandoned => "abandoned"

/-- The record of the repairs of one unit. -/
structure Recovery where
  phase : RecoveryPhase := .parsing
  /-- Failures since a repair was last confirmed. -/
  failures : Nat := 0
  /-- Shifts since the last repair. -/
  shifts : Nat := 0
  repairs : Nat := 0
deriving DecidableEq, Inhabited, Repr

namespace Recovery

/-- The record after a change of the input that still has to be confirmed. -/
def resynchronize (r : Recovery) : Recovery := { r with phase := .resynchronized, shifts := 0 }

/-- The record after a repair. -/
def repaired (r : Recovery) : Recovery := { r.resynchronize with repairs := r.repairs + 1 }

/-- The record after a shift; `window` shifts confirm a repair. -/
def shifted (window : Nat) (r : Recovery) : Recovery :=
  match r.phase with
  | .resynchronized =>
    if window ≤ r.shifts + 1 then
      { r with shifts := r.shifts + 1, failures := 0, phase := .parsing }
    else { r with shifts := r.shifts + 1 }
  | _ => r

end Recovery

/-! ### Finding a repair -/

/-- A change of the input that lets parsing go on. -/
inductive Repair where
  | insert (kinds : List TokenKind)
  | delete
deriving DecidableEq, Inhabited, Repr

namespace Automaton

/-- Tokens that are tried as insertions, in order. -/
def insertionKinds : List TokenKind :=
  [.semicolon, .rParen, .rBracket, .rBrace, .lBrace, .lParen, .identifier]

/-- The first insertion after which the next kinds can be read. -/
def insertion? (a : Automaton) (states : List Nat) (upcoming : List TokenKind) : Option TokenKind :=
  insertionKinds.find? fun kind => a.accepts states (kind :: upcoming)

/-- The repair before the first of the kinds that are left, if there is one.  A trial run has to
read `window` kinds, and at least one. -/
def repair? (a : Automaton) (window : Nat) (states : List Nat) (kinds : List TokenKind) :
    Option Repair :=
  let window := max window 1
  match a.insertion? states (kinds.take window) with
  | some kind => some (.insert [kind])
  | none =>
    if kinds.head? = some .eof then
      match a.completion? states with
      | none | some [] => none
      | some completion => some (.insert completion)
    else if a.accepts states (kinds.tail.take window) then some .delete
    else none

/-- The name of the construct that an insertion completes when `next` follows. -/
def constructAfter (a : Automaton) (states : List Nat) (inserted : List TokenKind)
    (next : TokenKind) : String :=
  let lhs := match inserted with
    | [] => a.firstReduction? states next
    | first :: more =>
      match a.feedOrSplit states first with
      | .shifted states => a.firstReduction? states (more.headD next)
      | _ => none
  match lhs with
  | some id => a.grammar.nonterminalName id
  | none => "CompilationUnit"

end Automaton

end AspectLang
