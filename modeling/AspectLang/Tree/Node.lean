import AspectLang.Tree.Declaration

/-! # Nodes of an unfinished tree

While a unit is parsed, its parts wait on a stack of `Node`s. -/

namespace AspectLang

/-- A variable that was declared, before it is known whether it is a field, a local variable
or a parameter. -/
structure Declarator where
  name : Identifier
  dims : Nat
  initializer : Option Expr
  span : Span

/-- The `returning` or `throwing` clause of an advice. -/
structure ExtraParameter where
  name : Identifier
  parameter : Option Parameter

/-- A part of an unfinished tree. -/
inductive Node where
  | package (package : PackageDecl)
  | importDecl (decl : ImportDecl)
  | type (type : TypeDecl)
  | method (method : MethodDecl)
  | field (field : FieldDecl)
  | initializer (initializer : InitializerDecl)
  | parameter (parameter : Parameter)
  | statement (statement : Statement)
  | catchClause (clause : CatchClause)
  | declarator (declarator : Declarator)
  | extraParameter (extra : ExtraParameter)
  | fragment (fragment : Fragment)

namespace Node

/-- The words for the sort of node. -/
def kindName : Node → String
  | .package _ => "package"
  | .importDecl _ => "import"
  | .type _ => "type"
  | .method _ => "method"
  | .field _ => "field"
  | .initializer _ => "initializer"
  | .parameter _ => "argument"
  | .statement _ => "statement"
  | .catchClause _ => "catch"
  | .declarator _ => "declarator"
  | .extraParameter _ => "extra parameter"
  | .fragment _ => "dialect node"

/-- Whether an aspect construct made the node. -/
def isExtended : Node → Bool
  | .type t => t.extension.isSome
  | .method m => m.extension.isSome
  | .fragment _ => true
  | _ => false

/-- The member of a type that a node is. -/
def member? : Node → Option Member
  | .type t => some (.type t)
  | .method m => some (.method m)
  | .field f => some (.field f)
  | .initializer i => some (.initializer i)
  | _ => none

end Node

end AspectLang
