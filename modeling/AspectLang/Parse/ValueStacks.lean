import AspectLang.Fault
import AspectLang.Parse.SegmentStack
import AspectLang.Tree.Node

/-! # The value stacks of the parser

Next to its states the parser keeps the parts of the tree that it has built: nodes,
expressions, identifiers, types, and plain numbers for modifier flags, offsets and dimensions.
A fault of a stack names the stack and the production that is being reduced. -/

namespace AspectLang

/-- Types, wildcards and type parameters that wait for their list. -/
inductive TypeNode where
  | type (type : TypeRef)
  | wildcard (kind : WildcardKind) (bound : Option TypeRef) (span : Span)
  | parameter (parameter : TypeParameter)

/-- The value stacks, and the production that is being reduced. -/
structure ValueStacks where
  nodes : SegmentStack Node := {}
  exprs : SegmentStack Expr := {}
  identifiers : SegmentStack Identifier := {}
  ints : List Nat := []
  types : SegmentStack TypeNode := {}
  production : Nat := 0

/-- Numbers of items and segments on the stacks. -/
structure StackHeights where
  nodes : Nat
  nodeSegments : Nat
  exprs : Nat
  exprSegments : Nat
  identifiers : Nat
  identifierSegments : Nat
  ints : Nat
  types : Nat
  typeSegments : Nat
deriving DecidableEq, Inhabited, Repr

namespace StackHeights

/-- Whether every stack is empty. -/
def isZero (d : StackHeights) : Bool := d == ⟨0, 0, 0, 0, 0, 0, 0, 0, 0⟩

/-- The numbers with the names of the stacks. -/
def render (d : StackHeights) : String :=
  s!"ast {d.nodes}/{d.nodeSegments} expr {d.exprs}/{d.exprSegments} " ++
    s!"ident {d.identifiers}/{d.identifierSegments} int {d.ints} " ++
    s!"generics {d.types}/{d.typeSegments}"

end StackHeights

namespace ValueStacks

/-- Names the production whose reduction begins. -/
def begin (production : Nat) (s : ValueStacks) : ValueStacks := { s with production }

/-- The stacks without entries; the production stays. -/
def reset (s : ValueStacks) : ValueStacks := { production := s.production }

/-- How much the stacks hold. -/
def depths (s : ValueStacks) : StackHeights where
  nodes := s.nodes.depth
  nodeSegments := s.nodes.segmentCount
  exprs := s.exprs.depth
  exprSegments := s.exprs.segmentCount
  identifiers := s.identifiers.depth
  identifierSegments := s.identifiers.segmentCount
  ints := s.ints.length
  types := s.types.depth
  typeSegments := s.types.segmentCount

end ValueStacks

/-- The fault of the parser that a failed operation on a stack is. -/
def SegmentFault.fault (stack : StackName) (production : Nat) : SegmentFault → Fault
  | .underflow => .stackUnderflow stack production
  | .arity expected found => .arityMismatch production expected found

/-! ### Operations on one of the stacks -/

/-- An operation on the stacks that may fail and changes them either way. -/
abbrev StackM := EStateM Fault ValueStacks

namespace StackM

variable {β : Type}

/-- Does an operation on the nodes. -/
def onNodes (op : SegmentStack.Op Node β) : StackM β := fun s =>
  match op s.nodes with
  | .ok b nodes => .ok b { s with nodes }
  | .error e nodes => .error (e.fault .ast s.production) { s with nodes }

/-- Does an operation on the expressions. -/
def onExprs (op : SegmentStack.Op Expr β) : StackM β := fun s =>
  match op s.exprs with
  | .ok b exprs => .ok b { s with exprs }
  | .error e exprs => .error (e.fault .expression s.production) { s with exprs }

/-- Does an operation on the identifiers. -/
def onIdentifiers (op : SegmentStack.Op Identifier β) : StackM β := fun s =>
  match op s.identifiers with
  | .ok b identifiers => .ok b { s with identifiers }
  | .error e identifiers => .error (e.fault .identifier s.production) { s with identifiers }

/-- Does an operation on the types. -/
def onTypes (op : SegmentStack.Op TypeNode β) : StackM β := fun s =>
  match op s.types with
  | .ok b types => .ok b { s with types }
  | .error e types => .error (e.fault .generics s.production) { s with types }

/-- Adds a number. -/
def pushInt (n : Nat) : StackM Unit := modify fun s => { s with ints := n :: s.ints }

/-- Takes the topmost number. -/
def popInt : StackM Nat := fun s =>
  match s.ints with
  | [] => .error (.stackUnderflow .int s.production) s
  | n :: ints => .ok n { s with ints }

/-- Adds to the topmost number and gives the sum. -/
def addInt (k : Nat) : StackM Nat := fun s =>
  match s.ints with
  | [] => .error (.stackUnderflow .int s.production) s
  | n :: ints => .ok (n + k) { s with ints := (n + k) :: ints }

end StackM

end AspectLang
