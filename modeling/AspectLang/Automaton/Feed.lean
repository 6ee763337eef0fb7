import AspectLang.Automaton.Tables
import Std.Data.HashSet

/-! # Running an automaton on kinds alone

An automaton reads kinds of tokens with nothing but a stack of states, the topmost first.
`Automaton.feed` reads one kind: reductions first, then the shift.  `Automaton.feedOrSplit` reads
a shift operator as closing angle brackets where it does not fit as a whole.  On these rest the
trial runs by which repairs are chosen. -/

namespace AspectLang

/-- A grammar with its tables. -/
structure Automaton where
  grammar : Grammar
  tables : Tables
deriving DecidableEq, Inhabited, Repr

/-- What became of a kind that was fed to an automaton. -/
inductive Fate where
  | shifted (states : List Nat)
  | accepted
  | rejected
deriving DecidableEq, Inhabited, Repr

/-- Number of closing brackets that a kind can be split into. -/
def TokenKind.brackets : TokenKind → Nat
  | .shiftRight => 2
  | .shiftRightUnsigned => 3
  | _ => 1

theorem TokenKind.brackets_pos (kind : TokenKind) : 0 < kind.brackets := by
  unfold brackets
  split <;> omega

theorem TokenKind.brackets_of_whole {kind : TokenKind} (h : kind.halves? = none) :
    kind.brackets = 1 := by
  cases kind <;> first | rfl | cases h

/-- The rest of a split kind has fewer brackets. -/
theorem TokenKind.brackets_lt_of_halves? {k first rest : TokenKind}
    (h : k.halves? = some (first, rest)) : rest.brackets < k.brackets := by
  cases k <;> simp [TokenKind.halves?] at h <;> obtain ⟨_, rfl⟩ := h <;> decide

namespace Automaton

/-- The states after the reduction by a production; `none` when there are too few states or
the left side leads nowhere. -/
def reduce? (a : Automaton) (states : List Nat) (production : Nat) : Option (List Nat) :=
  match a.grammar.productions[production]? with
  | none => none
  | some rule =>
    match states.drop rule.rhs.length with
    | [] => none
    | top :: below => (a.tables.goto? top rule.lhs).map (· :: top :: below)

/-- Reads one kind, with at most `gas` steps. -/
def feedWithin (a : Automaton) (kind : TokenKind) : (gas : Nat) → (states : List Nat) → Fate
  | 0, _ => .rejected
  | _, [] => .rejected
  | gas + 1, top :: below =>
    match a.tables.action top kind with
    | .shift target => .shifted (target :: top :: below)
    | .accept => .accepted
    | .error => .rejected
    | .reduce production =>
      match a.reduce? (top :: below) production with
      | some states => feedWithin a kind gas states
      | none => .rejected

/-- Steps that one kind may take. -/
def feedGas : Nat := 10000

/-- Reads one kind. -/
def feed (a : Automaton) (states : List Nat) (kind : TokenKind) : Fate :=
  a.feedWithin kind feedGas states

/-- Reads one kind, as closing brackets if it does not fit as a whole. -/
def feedOrSplit (a : Automaton) (states : List Nat) (kind : TokenKind) : Fate :=
  match a.feed states kind with
  | .rejected =>
    match _ : kind.halves? with
    | none => .rejected
    | some (first, rest) =>
      match a.feed states first with
      | .shifted states => a.feedOrSplit states rest
      | fed => fed
  | fed => fed
termination_by kind.brackets
decreasing_by exact TokenKind.brackets_lt_of_halves? ‹_›

/-- Whether every kind can be read, or the input is accepted on the way. -/
def accepts (a : Automaton) (states : List Nat) : List TokenKind → Bool
  | [] => true
  | kind :: kinds =>
    match a.feedOrSplit states kind with
    | .shifted states => a.accepts states kinds
    | .accepted => true
    | .rejected => false

/-- The left side of the first reduction that a kind brings about. -/
def firstReduction? (a : Automaton) (states : List Nat) (kind : TokenKind) : Option Nat :=
  match states with
  | [] => none
  | top :: _ =>
    match a.tables.action top kind with
    | .reduce production =>
      match a.grammar.productions[production]?, a.reduce? states production with
      | some rule, some _ => some rule.lhs
      | _, _ => none
    | _ => none

/-! ### Completions -/

/-- Tokens that a completion at the end of input may consist of, in order of preference. -/
def completionKinds : List TokenKind := [.rBrace, .semicolon, .rParen, .rBracket, .gt, .identifier]

/-- Stacks of states that the search for a completion may visit. -/
def completionLimit : Nat := 4096

/-- A stack of states with the kinds that led to it, the last one first. -/
structure Trial where
  states : List Nat
  path : List TokenKind

/-- Adds the trials that go on from one by a token to those in `later`, unless their states
were seen before, and gives the states seen then. -/
def extend (a : Automaton) (trial : Trial) (later : List Trial) (seen : Std.HashSet (List Nat)) :
    List Trial × Std.HashSet (List Nat) :=
  completionKinds.foldl
    (fun (later, seen) kind =>
      match a.feed trial.states kind with
      | .shifted states =>
        if seen.contains states then (later, seen)
        else (⟨states, kind :: trial.path⟩ :: later, seen.insert states)
      | _ => (later, seen))
    (later, seen)

/-- Searches breadth first; `later` holds the trials to come after `now`, the last one first. -/
def searchCompletion (a : Automaton) :
    (gas : Nat) → (now later : List Trial) → (seen : Std.HashSet (List Nat)) →
      Option (List TokenKind)
  | 0, _, _, _ => none
  | gas + 1, now, later, seen =>
    match (if now.isEmpty then later.reverse else now), (if now.isEmpty then [] else later) with
    | [], _ => none
    | trial :: now, later =>
      if completionLimit < seen.size then none
      else if a.feed trial.states .eof = .accepted then some trial.path.reverse
      else
        let (later, seen) := a.extend trial later seen
        searchCompletion a gas now later seen

/-- The first completion in breadth-first order that lets the input be accepted at its end. -/
def completion? (a : Automaton) (states : List Nat) : Option (List TokenKind) :=
  a.searchCompletion (completionLimit + 1) [⟨states, []⟩] []
    (Std.HashSet.emptyWithCapacity.insert states)

end Automaton

end AspectLang
