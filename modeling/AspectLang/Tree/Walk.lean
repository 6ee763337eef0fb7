import AspectLang.Tree.Declaration

/-! # Walks over trees

`CompilationUnit.walk` lists what a reader meets on a walk through a unit: types, methods,
statements and expressions, each before its parts and in source order. -/

namespace AspectLang

/-- What a walk meets. -/
inductive Visit where
  | typeStart (name : String)
  | typeEnd
  | method (selector : String)
  | statement (statement : Statement)
  | expression (value : Expr)

mutual

/-- An expression and its parts. -/
def Expr.walk (e : Expr) : List Visit :=
  .expression e ::
    match e with
    | .literal _ _ _ | .name _ | .this _ | .super _ => []
    | .fieldAccess receiver _ _ => receiver.walk
    | .send none _ arguments _ _ => walkExprs arguments
    | .send (some receiver) _ arguments _ _ => receiver.walk ++ walkExprs arguments
    | .new _ arguments _ => walkExprs arguments
    | .assign target _ value _ => target.walk ++ value.walk
    | .binary left _ right _ => left.walk ++ right.walk
    | .unary _ operand _ => operand.walk
    | .conditional condition whenTrue whenFalse _ =>
      condition.walk ++ whenTrue.walk ++ whenFalse.walk
    | .instanceOf value _ _ => value.walk
    | .paren inner _ => inner.walk
    | .annotationUse ⟨_, values, _⟩ => walkValues values

/-- Expressions and their parts. -/
def walkExprs : List Expr → List Visit
  | [] => []
  | e :: rest => e.walk ++ walkExprs rest

/-- The values of annotation members and their parts. -/
def walkValues : List MemberValue → List Visit
  | [] => []
  | ⟨_, value, _⟩ :: rest => value.walk ++ walkValues rest

end

/-- An expression, if there is one, and its parts. -/
def walkOptional (e : Option Expr) : List Visit :=
  match e with
  | some e => e.walk
  | none => []

mutual

/-- A statement and its parts.  The condition of a loop comes before its body. -/
def Statement.walk (s : Statement) : List Visit :=
  .statement s ::
    match s with
    | .block ⟨statements, _⟩ => walkStatements statements
    | .localVariable v => walkOptional v.initializer
    | .expression value _ => value.walk
    | .ifThen condition thenBranch none _ => condition.walk ++ thenBranch.walk
    | .ifThen condition thenBranch (some elseBranch) _ =>
      condition.walk ++ thenBranch.walk ++ elseBranch.walk
    | .whileLoop condition body _ => condition.walk ++ body.walk
    | .doLoop body condition _ => condition.walk ++ body.walk
    | .forLoop init condition update body _ =>
      walkStatements init ++ walkOptional condition ++ walkExprs update ++ body.walk
    | .forEach _ collection body _ => collection.walk ++ body.walk
    | .returning value _ => walkOptional value
    | .throwing value _ => value.walk
    | .breaking _ _ | .continuing _ _ | .empty _ => []
    | .labeled _ body _ => body.walk
    | .trying ⟨statements, _⟩ catches none _ => walkStatements statements ++ walkCatches catches
    | .trying ⟨statements, _⟩ catches (some ⟨final, _⟩) _ =>
      walkStatements statements ++ walkCatches catches ++ walkStatements final
    | .assertion condition message _ => condition.walk ++ walkOptional message
    | .constructorCall _ arguments _ => walkExprs arguments

/-- Statements and their parts. -/
def walkStatements : List Statement → List Visit
  | [] => []
  | s :: rest => s.walk ++ walkStatements rest

/-- The statements of handlers. -/
def walkCatches : List CatchClause → List Visit
  | [] => []
  | ⟨_, ⟨statements, _⟩, _⟩ :: rest => walkStatements statements ++ walkCatches rest

end

mutual

/-- A type, its members in order, and its end. -/
def TypeDecl.walk : TypeDecl → List Visit
  | ⟨_, name, _, _, _, _, _, members, _, _, _, _⟩ =>
    .typeStart name :: walkMembers members ++ [.typeEnd]

/-- Members and their parts. -/
def walkMembers : List Member → List Visit
  | [] => []
  | m :: rest => m.walk ++ walkMembers rest

/-- A member and its parts; of a field only the initial value is met. -/
def Member.walk : Member → List Visit
  | .field f => walkOptional f.initializer
  | .method m => .method m.selector :: walkStatements (m.statements.getD [])
  | .type t => t.walk
  | .initializer i => walkStatements i.block.statements

end

/-- What a walk through a unit meets. -/
def CompilationUnit.walk (u : CompilationUnit) : List Visit := u.types.flatMap TypeDecl.walk

end AspectLang
