import AspectLang.Parse.Machine

/-! # Trees of abandoned units

What an abandoned unit had completed is kept: `Salvage.ofNodes` goes through the nodes on the
stack, the lowest first, and puts each into the type or the method that was still open.  A
type or a method that was never closed is kept with what it had collected; everything else is
dropped. -/

namespace AspectLang

/-- The parts of an abandoned unit that were gathered so far. -/
structure Salvage where
  unit : CompilationUnit
  /-- Types whose end was not read, the innermost first. -/
  openTypes : List TypeDecl := []
  /-- The method whose end was not read. -/
  openMethod : Option MethodDecl := none

namespace Salvage

/-- The type with one more member. -/
def addMember (m : Member) (t : TypeDecl) : TypeDecl := { t with members := t.members ++ [m] }

/-- Adds a member to the innermost open type; without one only types are kept. -/
def place (m : Member) (s : Salvage) : Salvage :=
  match s.openTypes, m with
  | t :: outer, m => { s with openTypes := addMember m t :: outer }
  | [], .type t => { s with unit.types := s.unit.types ++ [t] }
  | [], _ => s

/-- Ends the open method; outside types it is dropped. -/
def closeMethod (s : Salvage) : Salvage :=
  match s.openMethod with
  | none => s
  | some m => { s.place (.method m) with openMethod := none }

/-- Takes up one node. -/
def add (s : Salvage) : Node → Salvage
  | .package p => { s with unit.package := some p }
  | .importDecl i => { s with unit.imports := s.unit.imports ++ [i] }
  | .statement stmt =>
    { s with openMethod := s.openMethod.map fun m =>
        { m with statements := some (m.statements.getD [] ++ [stmt]) } }
  | .type t =>
    if t.isOpen then
      let s := s.closeMethod
      { s with openTypes := t :: s.openTypes }
    else s.place (.type t)
  | .method m =>
    if m.isOpen then { s.closeMethod with openMethod := some m } else s.place (.method m)
  | node =>
    match node.member? with
    | some m => s.place m
    | none => s

/-- Puts the open types into each other, the outermost one into the unit. -/
def closeTypes (unit : CompilationUnit) : List TypeDecl → CompilationUnit
  | [] => unit
  | [t] => { unit with types := unit.types ++ [t] }
  | inner :: outer :: rest => closeTypes unit (addMember (.type inner) outer :: rest)
termination_by types => types.length

/-- The unit when there are no more nodes. -/
def close (s : Salvage) : CompilationUnit :=
  let s := s.closeMethod
  closeTypes s.unit s.openTypes

/-- The unit that nodes, the lowest first, leave. -/
def ofNodes (span : Span) (nodes : List Node) : CompilationUnit :=
  (nodes.foldl add { unit := ⟨none, [], [], span⟩ }).close

end Salvage

namespace Machine

/-- The production that only waits for a closing brace. -/
def pending? (m : Machine) : Option Nat :=
  m.states.head?.bind fun top =>
    match Language.tables.action top .rBrace with
    | .reduce production => some production
    | _ => none

/-- Tells whether a step succeeds; a crash is still a fault. -/
def attempt (step : Step Unit) : Step Bool := fun m =>
  match step m with
  | .ok _ m => .ok true m
  | .error e m => if e.isCrash then .error e m else .ok false m

/-- Does the reductions that only waited for a token, as if a closing brace at `offset`
followed, until one of them fails. -/
def settle (dialect : Dialect) (offset : Nat) : (gas : Nat) → Step Unit
  | 0 => return
  | gas + 1 => do
    match (← get).pending? with
    | none => return
    | some production =>
      if ← attempt (reduce dialect production (.point offset)) then settle dialect offset gas

end Machine

end AspectLang
