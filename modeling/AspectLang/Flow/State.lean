import AspectLang.Problem
import AspectLang.Tree.Declaration

/-! # States of flow analysis

A `PathState` says which local variables are assigned on every path to a point, and whether
there is such a path.  A `BodyFlow` is what the analysis of one body carries along: the path
state, the scopes, the handlers around the current statement, and what was found so far. -/

namespace AspectLang

/-- Exceptions that need no declaration. -/
def uncheckedExceptions : List String := [
  "RuntimeException", "Error", "AssertionError",
  "ArithmeticException", "NullPointerException", "ClassCastException",
  "ArrayIndexOutOfBoundsException", "IndexOutOfBoundsException", "IllegalArgumentException",
  "IllegalStateException", "UnsupportedOperationException", "NoSuchElementException",
  "NumberFormatException", "SoftException"]

/-- Whether an exception needs no declaration. -/
def isUnchecked (name : String) : Bool := uncheckedExceptions.contains name

/-- Exceptions whose handler catches every exception. -/
def catchAll : List String := ["Exception", "Throwable"]

/-- Whether a handler for `caught` catches the exception `name`. -/
def catches (caught name : String) : Bool := caught == name || catchAll.contains caught

/-- The local variables assigned on every path to a point, and whether there is a path. -/
structure PathState where
  assigned : List String := []
  alive : Bool := true
deriving DecidableEq, Inhabited, Repr

namespace PathState

/-- The state with a variable assigned. -/
def assign (name : String) (s : PathState) : PathState :=
  if s.assigned.contains name then s else { s with assigned := name :: s.assigned }

/-- The state with a variable not assigned. -/
def unassign (name : String) (s : PathState) : PathState :=
  { s with assigned := s.assigned.filter (· != name) }

/-- The variables assigned in both of two sets. -/
def meet (a b : List String) : List String := a.filter b.contains

/-- Where two paths join: one that ends does not constrain the other. -/
def join (a b : PathState) : PathState :=
  match a.alive, b.alive with
  | true, false => a
  | false, true => b
  | alive, _ => ⟨meet a.assigned b.assigned, alive⟩

end PathState

/-- An exception that leaves a body, and where it is thrown. -/
structure Escape where
  name : String
  span : Span
deriving DecidableEq, Inhabited, Repr

/-- The analysis of one body so far. -/
structure BodyFlow where
  reporter : Reporter
  state : PathState := {}
  /-- The local variables in scope with the simple names of their types, the innermost scope
  first. -/
  scopes : List (List (String × String)) := [[]]
  /-- The exceptions that the statements around the current one catch. -/
  handlers : List (List String) := []
  /-- Exceptions that leave the body, the last one first. -/
  escapes : List Escape := []
  /-- Variables that were reported. -/
  reported : List String := []
  unreachable : Nat := 0

namespace BodyFlow

/-! ### Variables -/

/-- Declares a variable in the innermost scope. -/
def declare (name type : String) (assigned : Bool) (f : BodyFlow) : BodyFlow :=
  { f with
    scopes := match f.scopes with
      | [] => []
      | scope :: outer => ((name, type) :: scope) :: outer
    state := if assigned then f.state.assign name else f.state.unassign name }

/-- The type of the variable with a given name. -/
def localType? (f : BodyFlow) (name : String) : Option String :=
  f.scopes.findSome? fun scope => scope.lookup name

/-- Enters a scope. -/
def enter (f : BodyFlow) : BodyFlow := { f with scopes := [] :: f.scopes }

/-- Leaves a scope. -/
def leave (f : BodyFlow) : BodyFlow := { f with scopes := f.scopes.tail }

/-- Does an analysis in a scope of its own. -/
def inScope (inner : BodyFlow → BodyFlow) (f : BodyFlow) : BodyFlow := (inner f.enter).leave

/-- Goes on from another state. -/
def setState (state : PathState) (f : BodyFlow) : BodyFlow := { f with state }

/-- Goes on with other assigned variables. -/
def setAssigned (assigned : List String) (f : BodyFlow) : BodyFlow :=
  { f with state.assigned := assigned }

/-- Goes on as if there were a path to here, or none. -/
def setAlive (alive : Bool) (f : BodyFlow) : BodyFlow := { f with state.alive := alive }

/-- Notes an assignment, if the name is that of a local variable. -/
def assign (name : String) (f : BodyFlow) : BodyFlow :=
  if (f.localType? name).isSome then { f with state := f.state.assign name } else f

/-- Notes a use; a local variable that may be unassigned is reported once. -/
def use (name : String) (span : Span) (f : BodyFlow) : BodyFlow :=
  if (f.localType? name).isNone || f.state.assigned.contains name || f.reported.contains name then f
  else { f with
    reported := name :: f.reported
    reporter := f.reporter.error .uninitializedLocal span [name] }

/-! ### Exceptions and reachability -/

/-- Notes an exception that is thrown; a checked one that no handler around catches leaves the
body. -/
def throws (name : String) (span : Span) (f : BodyFlow) : BodyFlow :=
  if isUnchecked name || f.handlers.any (·.any fun caught => catches caught name) then f
  else { f with escapes := ⟨name, span⟩ :: f.escapes }

/-- Does an analysis under handlers. -/
def handled (caught : List String) (inner : BodyFlow → BodyFlow) (f : BodyFlow) : BodyFlow :=
  let g := inner { f with handlers := caught :: f.handlers }
  { g with handlers := g.handlers.tail }

/-- Comes to a statement; one without a path to it is reported, and counts as reached. -/
def reach (span : Span) (f : BodyFlow) : BodyFlow :=
  if f.state.alive then f
  else { f with
    reporter := f.reporter.warning .unreachableCode span []
    unreachable := f.unreachable + 1
    state.alive := true }

/-- Number of variables reported. -/
def uninitialized (f : BodyFlow) : Nat := f.reported.length

end BodyFlow

end AspectLang
