import AspectLang.Dialect
import AspectLang.Parse.ValueStacks

/-! # Building a tree

Semantic actions run on a `Workspace`: the value stacks, the reporter, and the unit once it is
built.  They take the values of a rule's right side off the stacks in reverse order and put the
value of its left side on.  A `Handle` tells them where the symbols of the right side stand. -/

namespace AspectLang

/-- The ranges of the symbols on the right side that is being reduced, none for a symbol that
covers no text, and the range of the token after them. -/
structure Handle where
  spans : List (Option Span)
  lookahead : Span
deriving DecidableEq, Inhabited, Repr

namespace Handle

/-- The range of a symbol; one that covers no text stands at the next token. -/
def span (c : Handle) (i : Nat) : Span := (c.spans.getD i none).getD (.point c.lookahead.start)

/-- The range of the whole right side, if it covers any text. -/
def whole? (c : Handle) : Option Span := Span.hull (c.spans.filterMap id)

/-- The range of the whole right side, or the place of the next token. -/
def whole (c : Handle) : Span := c.whole?.getD (.point c.lookahead.start)

/-- Number of symbols on the right side. -/
def arity (c : Handle) : Nat := c.spans.length

/-- The range of the last symbol. -/
def lastSpan (c : Handle) : Span := c.span (c.arity - 1)

end Handle

/-- What semantic actions work on. -/
structure Workspace where
  values : ValueStacks := {}
  reporter : Reporter
  unit : Option CompilationUnit := none
  /-- Whether the lack of a dialect was reported for this unit. -/
  unavailableReported : Bool := false

/-- A step of building a tree, which may fail and changes the workspace either way. -/
abbrev Work := EStateM Fault Workspace

namespace Work

variable {β : Type}

/-- Does an operation on the stacks. -/
def onStacks (op : StackM β) : Work β := fun w =>
  match op w.values with
  | .ok b values => .ok b { w with values }
  | .error e values => .error e { w with values }

/-- Reports a problem. -/
def report (id : ProblemKind) (span : Span) (arguments : List String) : Work Unit :=
  modify fun w => { w with reporter := w.reporter.error id span arguments }

/-- Fails because a stack holds something else than expected. -/
def wrongNode (stack : StackName) (expected : NodeSort) : Work β := fun w =>
  .error (.wrongNode stack expected w.values.production) w

/-- The value, or the failure that a stack holds something else than expected. -/
def expectNode (stack : StackName) (expected : NodeSort) (value : Option β) : Work β :=
  match value with
  | some b => pure b
  | none => wrongNode stack expected

/-! ### Adding -/

/-- Adds a node. -/
def pushNode (n : Node) : Work Unit :=
  modify fun w => { w with values := { w.values with nodes := w.values.nodes.push n } }

/-- Adds nodes as one segment. -/
def pushNodes (ns : List Node) : Work Unit :=
  modify fun w => { w with values := { w.values with nodes := w.values.nodes.pushSegment ns } }

/-- Adds an empty segment of nodes. -/
def pushNoNodes : Work Unit :=
  modify fun w => { w with values := { w.values with nodes := w.values.nodes.pushLength 0 } }

/-- Adds an expression. -/
def pushExpr (e : Expr) : Work Unit :=
  modify fun w => { w with values := { w.values with exprs := w.values.exprs.push e } }

/-- Adds an empty segment of expressions. -/
def pushNoExprs : Work Unit :=
  modify fun w => { w with values := { w.values with exprs := w.values.exprs.pushLength 0 } }

/-- Adds a type, a wildcard or a type parameter. -/
def pushTypeNode (n : TypeNode) : Work Unit :=
  modify fun w => { w with values := { w.values with types := w.values.types.push n } }

/-- Adds a type. -/
def pushType (t : TypeRef) : Work Unit := pushTypeNode (.type t)

/-- Adds an empty segment of types. -/
def pushNoTypes : Work Unit :=
  modify fun w => { w with values := { w.values with types := w.values.types.pushLength 0 } }

/-- Adds a number. -/
def pushInt (n : Nat) : Work Unit := onStacks (StackM.pushInt n)

/-- Adds a statement. -/
def pushStatement (s : Statement) : Work Unit := pushNode (.statement s)

/-! ### Taking -/

/-- Takes a node. -/
def popNode : Work Node := onStacks (.onNodes SegmentStack.pop)

/-- Takes a segment of nodes. -/
def popNodes : Work (List Node) := onStacks (.onNodes SegmentStack.popSegment)

/-- Takes a segment of at most one node. -/
def popOptionalNode : Work (Option Node) := onStacks (.onNodes SegmentStack.popOptional)

/-- Takes an expression. -/
def popExpr : Work Expr := onStacks (.onExprs SegmentStack.pop)

/-- Takes a segment of expressions. -/
def popExprs : Work (List Expr) := onStacks (.onExprs SegmentStack.popSegment)

/-- Takes a segment of at most one expression. -/
def popOptionalExpr : Work (Option Expr) := onStacks (.onExprs SegmentStack.popOptional)

/-- Takes an identifier. -/
def popIdentifier : Work Identifier := onStacks (.onIdentifiers SegmentStack.pop)

/-- Takes a number. -/
def popInt : Work Nat := onStacks StackM.popInt

/-- Fails because the identifiers do not reach. -/
def noIdentifier : Work β := fun w => .error (.stackUnderflow .identifier w.values.production) w

/-- Takes a name, which has at least one word. -/
def popName : Work QualifiedName := do
  match ← onStacks (.onIdentifiers SegmentStack.popSegment) with
  | [] => noIdentifier
  | segments => return ⟨segments⟩

/-- The type that an entry is. -/
def asType? : TypeNode → Option TypeRef
  | .type t => some t
  | _ => none

/-- The type argument that an entry is. -/
def asTypeArgument? : TypeNode → Option TypeArgument
  | .type t => some (.type t)
  | .wildcard kind bound span => some (.wildcard kind bound span)
  | .parameter _ => none

/-- The type parameter that an entry is. -/
def asTypeParameter? : TypeNode → Option TypeParameter
  | .parameter p => some p
  | _ => none

/-- Takes a type. -/
def popType : Work TypeRef := do
  let n ← onStacks (.onTypes SegmentStack.pop)
  expectNode .generics .type (asType? n)

/-- Takes a segment of types. -/
def popTypes : Work (List TypeRef) := do
  let ns ← onStacks (.onTypes SegmentStack.popSegment)
  expectNode .generics .type (ns.mapM asType?)

/-- Takes a segment of type arguments. -/
def popTypeArguments : Work (List TypeArgument) := do
  let ns ← onStacks (.onTypes SegmentStack.popSegment)
  expectNode .generics .typeArgument (ns.mapM asTypeArgument?)

/-- Takes a segment of type parameters, where a rule has one. -/
def popTypeParameters (present : Bool) : Work (List TypeParameter) := do
  if present then
    let ns ← onStacks (.onTypes SegmentStack.popSegment)
    expectNode .generics .typeParameter (ns.mapM asTypeParameter?)
  else return []

/-- A run of modifiers and annotations. -/
structure WrittenModifiers where
  flags : Modifiers := 0
  /-- The offset of the first modifier, or of the token after an empty run. -/
  start : Nat := 0
  annotations : List AnnotationUse := []

/-- Whether a run holds nothing. -/
def WrittenModifiers.isEmpty (m : WrittenModifiers) : Bool := m.flags == 0 && m.annotations.isEmpty

/-- Takes a run of modifiers. -/
def popModifiers : Work WrittenModifiers := do
  let start ← popInt
  let flags ← popInt
  let exprs ← popExprs
  return ⟨flags, start, exprs.filterMap Expr.annotationUse?⟩

/-- Takes a run of modifiers, where a rule has one. -/
def popModifiersIf (present : Bool) : Work WrittenModifiers :=
  if present then popModifiers else return {}

/-- The parameter that a node is. -/
def asParameter? : Node → Option Parameter
  | .parameter p => some p
  | _ => none

/-- The declarator that a node is. -/
def asDeclarator? : Node → Option Declarator
  | .declarator d => some d
  | _ => none

/-- The statement that a node is. -/
def asStatement? : Node → Option Statement
  | .statement s => some s
  | _ => none

/-- The block that a statement is. -/
def asBlock? : Statement → Option Block
  | .block b => some b
  | _ => none

/-- The handler that a node is. -/
def asCatchClause? : Node → Option CatchClause
  | .catchClause c => some c
  | _ => none

/-- The type declaration that a node is. -/
def asTypeDecl? : Node → Option TypeDecl
  | .type t => some t
  | _ => none

/-- The import that a node is. -/
def asImport? : Node → Option ImportDecl
  | .importDecl i => some i
  | _ => none

/-- The package declaration that a node is. -/
def asPackage? : Node → Option PackageDecl
  | .package p => some p
  | _ => none

/-- The fragment that a node is. -/
def asFragment? : Node → Option Fragment
  | .fragment f => some f
  | _ => none

/-- The clause of an advice that a node is. -/
def asExtraParameter? : Node → Option ExtraParameter
  | .extraParameter e => some e
  | _ => none

/-- Takes a parameter. -/
def popParameter : Work Parameter := do
  let n ← popNode
  expectNode .ast .argument (asParameter? n)

/-- Takes a segment of parameters. -/
def popParameters : Work (List Parameter) := do
  let ns ← popNodes
  expectNode .ast .argument (ns.mapM asParameter?)

/-- Takes a declarator. -/
def popDeclarator : Work Declarator := do
  let n ← popNode
  expectNode .ast .declarator (asDeclarator? n)

/-- Takes a segment of declarators. -/
def popDeclarators : Work (List Declarator) := do
  let ns ← popNodes
  expectNode .ast .declarator (ns.mapM asDeclarator?)

/-- Takes a statement. -/
def popStatement : Work Statement := do
  let n ← popNode
  expectNode .ast .statement (asStatement? n)

/-- Takes a segment of statements. -/
def popStatements : Work (List Statement) := do
  let ns ← popNodes
  expectNode .ast .statement (ns.mapM asStatement?)

/-- Takes a block. -/
def popBlock : Work Block := do
  let s ← popStatement
  expectNode .ast .block (asBlock? s)

/-- Takes a fragment. -/
def popFragment : Work Fragment := do
  let n ← popNode
  expectNode .ast .pseudoToken (asFragment? n)

/-- Takes a segment of fragments. -/
def popFragments : Work (List Fragment) := do
  let ns ← popNodes
  expectNode .ast .pseudoToken (ns.mapM asFragment?)

/-! ### Changing the topmost declaration -/

/-- Puts a node in the place of the topmost one. -/
def replaceTop (n : Node) : Work Unit := onStacks (.onNodes (SegmentStack.modifyTop fun _ => n))

/-- The topmost node as a type. -/
def typeOnTop (expected : NodeSort) : Work TypeDecl := do
  let n ← onStacks (.onNodes SegmentStack.peek)
  expectNode .ast expected (asTypeDecl? n)

/-- The method that a node is. -/
def asMethod? : Node → Option MethodDecl
  | .method m => some m
  | _ => none

/-- The topmost node as a method. -/
def methodOnTop (expected : NodeSort) : Work MethodDecl := do
  let n ← onStacks (.onNodes SegmentStack.peek)
  expectNode .ast expected (asMethod? n)

/-- Changes the type on top. -/
def updateType (change : TypeDecl → TypeDecl) : Work Unit := do
  let t ← typeOnTop .type
  replaceTop (.type (change t))

/-- Changes the method on top. -/
def updateMethod (change : MethodDecl → MethodDecl) : Work Unit := do
  let m ← methodOnTop .method
  replaceTop (.method (change m))

/-! ### Headers -/

/-- Gives a type its name, modifiers and positions. -/
def headType (name : Identifier) (modifiers : WrittenModifiers) (t : TypeDecl) : TypeDecl :=
  { t with
    name := name.name
    modifiers := t.modifiers ||| modifiers.flags
    annotations := modifiers.annotations
    extent := ⟨name.span, ⟨min modifiers.start name.span.start, name.span.stop⟩⟩ }

/-- Gives a method its modifiers and positions. -/
def headMethod (name : Span) (modifiers : WrittenModifiers) (m : MethodDecl) : MethodDecl :=
  { m with
    modifiers := m.modifiers ||| modifiers.flags
    annotations := modifiers.annotations
    extent := ⟨name, ⟨min modifiers.start name.start, name.stop⟩⟩ }

end Work

end AspectLang
