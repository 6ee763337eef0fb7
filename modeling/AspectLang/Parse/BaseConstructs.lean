import AspectLang.Grammar.Action
import AspectLang.Parse.Workspace

/-! # Semantic actions of the base language

One definition per action that does more than move segments; `Work.baseAction` chooses among
them.  Each takes its values off the stacks in reverse order of the right side. -/

namespace AspectLang.Work

open Handle

/-! ### Compilation units -/

/-- A unit from its package, imports and types. -/
def compilationUnit (c : Handle) : Work Unit := do
  let types ← expectNode .ast .type ((← popNodes).mapM asTypeDecl?)
  let imports ← expectNode .ast .importDeclaration ((← popNodes).mapM asImport?)
  let package ← match ← popOptionalNode with
    | none => pure none
    | some n => some <$> expectNode .ast .package (asPackage? n)
  modify fun w => { w with unit := some ⟨package, imports, types, c.whole⟩ }

/-- A package declaration. -/
def packageDecl (c : Handle) : Work Unit := do
  let name ← popName
  pushNode (.package ⟨name, c.whole⟩)

/-- An import. -/
def importDecl (isStatic onDemand : Bool) (c : Handle) : Work Unit := do
  let name ← popName
  pushNode (.importDecl ⟨name, isStatic, onDemand, c.whole⟩)

/-! ### Types -/

/-- A class or interface by its name. -/
def namedType : Work Unit := do
  let name ← popName
  pushType (.ofName name)

/-- A member type of a type with arguments. -/
def qualifiedGenericType (c : Handle) : Work Unit := do
  let name ← popName
  let type ← popType
  pushType
    { type with segments := type.segments ++ (TypeRef.ofName name).segments, span := c.whole }

/-- Gives the last segment of a type its arguments; its range grows up to `span`. -/
def setArguments (arguments : List TypeArgument) (span : Span) : List TypeSegment → List TypeSegment
  | [] => []
  | [s] => [{ s with arguments, span := s.span.merge span }]
  | s :: rest => s :: setArguments arguments span rest

/-- A type with type arguments. -/
def genericType (c : Handle) : Work Unit := do
  let arguments ← popTypeArguments
  let type ← popType
  pushType
    { type with segments := setArguments arguments (c.span 1) type.segments, span := c.whole }

/-- An array type. -/
def arrayType (c : Handle) : Work Unit := do
  let dims ← popInt
  let type ← popType
  pushType { type.addDims dims with span := c.whole }

/-- A wildcard, with a bound unless it has none. -/
def wildcard (kind : WildcardKind) (c : Handle) : Work Unit := do
  let bound ← match kind with
    | .unbound => pure none
    | .upper | .lower => some <$> popType
  pushTypeNode (.wildcard kind bound c.whole)

/-- A type parameter with its bounds. -/
def typeParameter (bounded additional : Bool) (c : Handle) : Work Unit := do
  let more ← if additional then popTypes else pure []
  let bounds ← if bounded then (· :: more) <$> popType else pure more
  let name ← popIdentifier
  pushTypeNode (.parameter ⟨name.name, bounds, c.whole⟩)

/-! ### Modifiers and annotations -/

/-- Starts a run of modifiers with one flag at `start`. -/
def startModifiers (flag : Modifiers) (start : Nat) : Work Unit := do
  pushInt flag
  pushInt start

/-- Joins two runs of modifiers; a modifier in both is reported. -/
def concatModifiers (c : Handle) : Work Unit := do
  let _ ← popInt
  let flags ← popInt
  let start ← popInt
  let earlier ← popInt
  if Modifiers.meets earlier flags then
    report .duplicateModifier (c.span 1) [Modifiers.render (earlier &&& flags)]
  pushInt (earlier ||| flags)
  pushInt start
  onStacks (.onExprs SegmentStack.concat)

/-- An annotation without members. -/
def annotationMarker (c : Handle) : Work Unit := do
  let typeName ← popName
  pushExpr (.annotationUse ⟨typeName, [], c.whole⟩)

/-- An annotation with the one member `value`. -/
def annotationSingleMember (c : Handle) : Work Unit := do
  let value ← popExpr
  let typeName ← popName
  pushExpr (.annotationUse ⟨typeName, [⟨"value", value, value.span⟩], c.whole⟩)

/-! ### Declarations -/

/-- A type with its name. -/
def typeHeaderName (kind : TypeKind) (typeParameters : Bool) : Work Unit := do
  let parameters ← popTypeParameters typeParameters
  let name ← popIdentifier
  let modifiers ← popModifiers
  pushNode (.type
    (headType name modifiers { TypeDecl.new kind with typeParameters := parameters }))

/-- Lets a declaration reach at least to an offset. -/
def reachTo (stop : Nat) (t : TypeDecl) : TypeDecl :=
  { t with extent.declaration.stop := max t.extent.declaration.stop stop }

/-- The superclass of the type on top. -/
def superclass : Work Unit := do
  let type ← popType
  updateType fun t => { reachTo type.span.stop t with superclass := some type }

/-- The interfaces of the type on top. -/
def interfaces : Work Unit := do
  let types ← popTypes
  updateType fun t =>
    let t := match types.getLast? with
      | some last => reachTo last.span.stop t
      | none => t
    { t with interfaces := types }

/-- The body of the type on top, which ends it. -/
def classBody (c : Handle) : Work Unit := do
  let members ← expectNode .ast .member ((← popNodes).mapM Node.member?)
  let close := c.span 2
  updateType fun t =>
    { t with
      members
      bodyStart := some (c.span 0).start
      bodyEnd := some close.start
      extent.declaration.stop := close.stop }

/-- Reports each variable that is declared `void`. -/
def reportVoid (type : TypeRef) (declarators : List Declarator) : Work Unit := do
  if type.isVoid then
    declarators.forM fun d => report .voidVariable d.name.span [d.name.name]

/-- The fields of one field declaration. -/
def fieldDecl (c : Handle) : Work Unit := do
  let declarators ← popDeclarators
  let type ← popType
  let modifiers ← popModifiers
  let start := if modifiers.isEmpty then type.span.start else modifiers.start
  reportVoid type declarators
  pushNodes (declarators.map fun d => .field {
    name := d.name.name
    modifiers := modifiers.flags
    annotations := modifiers.annotations
    type := type.addDims d.dims
    initializer := d.initializer
    extent := ⟨d.name.span, ⟨start, (c.span 3).stop⟩⟩ })

/-- A declarator with its name and dimensions. -/
def declaratorId (c : Handle) : Work Unit := do
  let dims ← popInt
  let name ← popIdentifier
  pushNode (.declarator ⟨name, dims, none, c.whole⟩)

/-- The initial value of the declarator on top. -/
def declaratorInitializer : Work Unit := do
  let value ← popExpr
  let n ← onStacks (.onNodes SegmentStack.peek)
  let d ← expectNode .ast .declarator (asDeclarator? n)
  replaceTop (.declarator { d with initializer := some value, span := d.span.merge value.span })

/-- A method with its name. -/
def methodHeaderName (typeParameters : Bool) : Work Unit := do
  let name ← popIdentifier
  let returnType ← popType
  let parameters ← popTypeParameters typeParameters
  let modifiers ← popModifiers
  pushNode (.method (headMethod name.span modifiers
    { kind := .method, selector := name.name, returnType := some returnType,
      typeParameters := parameters }))

/-- A constructor with its name. -/
def constructorHeaderName : Work Unit := do
  let name ← popIdentifier
  let modifiers ← popModifiers
  pushNode (.method (headMethod name.span modifiers
    { kind := .constructor, selector := name.name }))

/-- The parameters and exceptions of the method on top. -/
def methodHeader (c : Handle) : Work Unit := do
  let throws ← popTypes
  let parameters ← popParameters
  updateMethod fun m =>
    { m with parameters, throws, extent.declaration.stop := c.whole.stop }

/-- The body of the method on top, which ends it; a semicolon is no body. -/
def methodDecl : Work Unit := do
  let body ← popStatement
  updateMethod fun m =>
    { m with
      statements := (asBlock? body).map (·.statements)
      bodyStart := some body.span.start
      bodyEnd := some body.span.stop
      extent.declaration.stop := body.span.stop }

/-- A formal parameter. -/
def formalParameter (hasModifiers varargs : Bool) (c : Handle) : Work Unit := do
  let d ← popDeclarator
  let type ← popType
  let modifiers ← popModifiersIf hasModifiers
  pushNode (.parameter {
    name := d.name
    type := type.addDims d.dims
    modifiers := modifiers.flags
    annotations := modifiers.annotations
    varargs
    span := c.whole })

/-- An initializer block. -/
def initializerBlock : Work Unit := do
  let block ← popBlock
  let modifiers ← popModifiers
  let start := if modifiers.isEmpty then block.span.start else modifiers.start
  pushNode (.initializer ⟨modifiers.flags, block, ⟨block.span, ⟨start, block.span.stop⟩⟩⟩)

/-! ### Statements -/

/-- A block. -/
def blockStatement (c : Handle) : Work Unit := do
  let statements ← popStatements
  pushStatement (.block ⟨statements, c.whole⟩)

/-- The local variables of one declaration. -/
def localVariables (hasModifiers : Bool) (c : Handle) : Work Unit := do
  let declarators ← popDeclarators
  let type ← popType
  let modifiers ← popModifiersIf hasModifiers
  reportVoid type declarators
  pushNodes (declarators.map fun d => .statement (.localVariable {
    name := d.name
    modifiers := modifiers.flags
    annotations := modifiers.annotations
    type := type.addDims d.dims
    initializer := d.initializer
    span := ⟨c.whole.start, d.span.stop⟩ }))

/-- Lets a statement end at an offset. -/
def endAt (stop : Nat) : Node → Node
  | .statement s => .statement (s.setSpan ⟨s.span.start, stop⟩)
  | n => n

/-- A declaration of local variables with its semicolon. -/
def localVariablesStatement (c : Handle) : Work Unit := do
  let ns ← popNodes
  pushNodes (ns.map (endAt (c.span 1).stop))

/-- An expression with its semicolon. -/
def expressionStatement (c : Handle) : Work Unit := do
  let value ← popExpr
  pushStatement (.expression value c.whole)

/-- A statement with a label. -/
def labeledStatement (c : Handle) : Work Unit := do
  let body ← popStatement
  let label ← popIdentifier
  pushStatement (.labeled label.name body c.whole)

/-- A conditional statement. -/
def ifStatement (hasElse : Bool) (c : Handle) : Work Unit := do
  let elseBranch ← if hasElse then some <$> popStatement else pure none
  let thenBranch ← popStatement
  let condition ← popExpr
  pushStatement (.ifThen condition thenBranch elseBranch c.whole)

/-- A loop with its condition first. -/
def whileStatement (c : Handle) : Work Unit := do
  let body ← popStatement
  let condition ← popExpr
  pushStatement (.whileLoop condition body c.whole)

/-- A loop with its condition last. -/
def doStatement (c : Handle) : Work Unit := do
  let condition ← popExpr
  let body ← popStatement
  pushStatement (.doLoop body condition c.whole)

/-- A loop with initialization and update. -/
def forStatement (c : Handle) : Work Unit := do
  let body ← popStatement
  let update ← popExprs
  let condition ← popOptionalExpr
  let init ← popStatements
  pushStatement (.forLoop init condition update body c.whole)

/-- The expressions that initialize a loop, as statements. -/
def forInitExpressions : Work Unit := do
  let values ← popExprs
  pushNodes (values.map fun e => .statement (.expression e e.span))

/-- A loop over a collection. -/
def forEachStatement (hasModifiers : Bool) (c : Handle) : Work Unit := do
  let body ← popStatement
  let collection ← popExpr
  let name ← popIdentifier
  let type ← popType
  let modifiers ← popModifiersIf hasModifiers
  let element : LocalVariable :=
    { name, modifiers := modifiers.flags, annotations := modifiers.annotations, type,
      initializer := none, span := (c.span 2).merge name.span }
  pushStatement (.forEach element collection body c.whole)

/-- The label of a jump, where a rule has one. -/
def popLabel (present : Bool) : Work (Option String) := do
  if present then return some (← popIdentifier).name else return none

/-- A statement with handlers. -/
def tryStatement (hasFinal : Bool) (c : Handle) : Work Unit := do
  let final ← if hasFinal then some <$> popBlock else pure none
  let catches ← expectNode .ast .catchClause ((← popNodes).mapM asCatchClause?)
  let block ← popBlock
  pushStatement (.trying block catches final c.whole)

/-- A handler. -/
def catchClause (c : Handle) : Work Unit := do
  let block ← popBlock
  let parameter ← popParameter
  pushNode (.catchClause ⟨parameter, block, c.whole⟩)

/-- An assertion. -/
def assertStatement (hasMessage : Bool) (c : Handle) : Work Unit := do
  let message ← if hasMessage then some <$> popExpr else pure none
  let condition ← popExpr
  pushStatement (.assertion condition message c.whole)

/-! ### Expressions -/

/-- The operators of compound assignments; the number of one on the stack is its position
plus one, and zero stands for a plain assignment. -/
def compoundOperators : List BinaryOperator :=
  [.mul, .div, .rem, .add, .sub, .shiftLeft, .shiftRight, .shiftRightUnsigned, .and, .xor, .or]

/-- The number of an assignment operator. -/
def assignmentCode (operator : Option BinaryOperator) : Nat :=
  match operator.bind fun op => compoundOperators.idxOf? op with
  | some i => i + 1
  | none => 0

/-- The assignment operator with a given number. -/
def assignmentOperator? : Nat → Option BinaryOperator
  | 0 => none
  | i + 1 => compoundOperators[i]?

/-- An expression in parentheses. -/
def parenthesized (c : Handle) : Work Unit := do
  let inner ← popExpr
  pushExpr (.paren inner c.whole)

/-- An object creation. -/
def allocation (c : Handle) : Work Unit := do
  let arguments ← popExprs
  let type ← popType
  pushExpr (.new type arguments c.whole)

/-- The object in front of a dot: `super`, or an expression. -/
def popReceiver (isSuper : Bool) (c : Handle) : Work Expr :=
  if isSuper then pure (.super (c.span 0)) else popExpr

/-- A field of an object. -/
def fieldAccess (isSuper : Bool) (c : Handle) : Work Unit := do
  let name ← popIdentifier
  let receiver ← popReceiver isSuper c
  pushExpr (.fieldAccess receiver name.name c.whole)

/-- A call whose method is a name; the last word is the selector. -/
def callByName (dialect : Dialect) (c : Handle) : Work Unit := do
  let arguments ← popExprs
  let segments ← onStacks (.onIdentifiers SegmentStack.popSegment)
  match segments.getLast? with
  | none => noIdentifier
  | some selector =>
    let receiver := match segments.dropLast with
      | [] => none
      | words => some (Expr.name ⟨words⟩)
    let proceed := receiver.isNone && selector.name == "proceed" &&
      (match dialect.factory? with
        | some f => f.marksProceed
        | none => false)
    pushExpr (.send receiver selector arguments c.whole proceed)

/-- A call on an object. -/
def callOn (isSuper : Bool) (c : Handle) : Work Unit := do
  let arguments ← popExprs
  let selector ← popIdentifier
  let receiver ← popReceiver isSuper c
  pushExpr (.send (some receiver) selector arguments c.whole false)

/-- A name as an expression. -/
def nameExpr : Work Unit := do
  let name ← popName
  pushExpr (.name name)

/-- An operator with one operand. -/
def unary (operator : UnaryOperator) (c : Handle) : Work Unit := do
  let operand ← popExpr
  pushExpr (.unary operator operand c.whole)

/-- An operator with two operands. -/
def binary (operator : BinaryOperator) (c : Handle) : Work Unit := do
  let right ← popExpr
  let left ← popExpr
  pushExpr (.binary left operator right c.whole)

/-- A type test. -/
def instanceOf (c : Handle) : Work Unit := do
  let type ← popType
  let value ← popExpr
  pushExpr (.instanceOf value type c.whole)

/-- A conditional expression. -/
def conditional (c : Handle) : Work Unit := do
  let whenFalse ← popExpr
  let whenTrue ← popExpr
  let condition ← popExpr
  pushExpr (.conditional condition whenTrue whenFalse c.whole)

/-- An assignment. -/
def assignment (c : Handle) : Work Unit := do
  let value ← popExpr
  let operator := assignmentOperator? (← popInt)
  let target ← popExpr
  pushExpr (.assign target operator value c.whole)

/-! ### Choice -/

/-- Runs an action of the base language; actions of aspect constructs do nothing here. -/
def baseAction (dialect : Dialect) (c : Handle) : SemanticAction → Work Unit
  | .none => pure ()
  | .emptyNodes => pushNoNodes
  | .emptyExprs => pushNoExprs
  | .emptyTypes => pushNoTypes
  | .concatNodes => onStacks (.onNodes SegmentStack.concat)
  | .concatExprs => onStacks (.onExprs SegmentStack.concat)
  | .concatTypes => onStacks (.onTypes SegmentStack.concat)
  | .concatIdentifiers => onStacks (.onIdentifiers SegmentStack.concat)
  | .compilationUnit => compilationUnit c
  | .packageDecl => packageDecl c
  | .importDecl isStatic onDemand => importDecl isStatic onDemand c
  | .primitiveType name => pushType (.ofPrimitive name (c.span 0))
  | .namedType => namedType
  | .qualifiedGenericType => qualifiedGenericType c
  | .genericType => genericType c
  | .arrayType => arrayType c
  | .dimsOne => pushInt 1
  | .dimsMore => discard (onStacks (StackM.addInt 1))
  | .dimsZero => pushInt 0
  | .wildcard kind => wildcard kind c
  | .typeParameter bounded additional => typeParameter bounded additional c
  | .emptyModifiers => do startModifiers 0 c.lookahead.start; pushNoExprs
  | .modifierKeyword flag => do startModifiers flag (c.span 0).start; pushNoExprs
  | .annotationModifier => startModifiers 0 (c.span 0).start
  | .concatModifiers => concatModifiers c
  | .annotationMarker => annotationMarker c
  | .annotationSingleMember => annotationSingleMember c
  | .typeHeaderName kind typeParameters => typeHeaderName kind typeParameters
  | .superclass => superclass
  | .interfaces => interfaces
  | .classBody => classBody c
  | .fieldDecl => fieldDecl c
  | .declaratorId => declaratorId c
  | .declaratorInitializer => declaratorInitializer
  | .methodHeaderName typeParameters => methodHeaderName typeParameters
  | .constructorHeaderName => constructorHeaderName
  | .methodHeader => methodHeader c
  | .methodDecl => methodDecl
  | .emptyMethodBody => pushStatement (.empty (c.span 0))
  | .formalParameter modifiers varargs => formalParameter modifiers varargs c
  | .initializerBlock => initializerBlock
  | .block => blockStatement c
  | .localVariables modifiers => localVariables modifiers c
  | .localVariablesStatement => localVariablesStatement c
  | .emptyStatement => pushStatement (.empty (c.span 0))
  | .expressionStatement => expressionStatement c
  | .labeledStatement => labeledStatement c
  | .ifStatement hasElse => ifStatement hasElse c
  | .whileStatement => whileStatement c
  | .doStatement => doStatement c
  | .forStatement => forStatement c
  | .forInitExpressions => forInitExpressions
  | .forEachStatement modifiers => forEachStatement modifiers c
  | .returnStatement => do pushStatement (.returning (← popOptionalExpr) c.whole)
  | .throwStatement => do pushStatement (.throwing (← popExpr) c.whole)
  | .breakStatement label => do pushStatement (.breaking (← popLabel label) c.whole)
  | .continueStatement label => do pushStatement (.continuing (← popLabel label) c.whole)
  | .tryStatement final => tryStatement final c
  | .catchClause => catchClause c
  | .assertStatement message => assertStatement message c
  | .constructorCall isSuper => do pushStatement (.constructorCall isSuper (← popExprs) c.whole)
  | .thisExpr => pushExpr (.this (c.span 0))
  | .parenthesized => parenthesized c
  | .allocation => allocation c
  | .fieldAccess isSuper => fieldAccess isSuper c
  | .callByName => callByName dialect c
  | .callOnPrimary => callOn false c
  | .callOnSuper => callOn true c
  | .nameExpr => nameExpr
  | .unary operator => unary operator c
  | .binary operator => binary operator c
  | .instanceOf => instanceOf c
  | .conditional => conditional c
  | .assignmentOperator operator => pushInt (assignmentCode operator)
  | .assignment => assignment c
  | .aspect _ => pure ()

end AspectLang.Work
