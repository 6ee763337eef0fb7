import AspectLang.Token.Kind
import AspectLang.Tree.Declaration

/-! # Semantic actions

Each rule of the language has a semantic action, which builds the part of the tree for the
rule's left side from the parts for its right side.  The actions of aspect constructs are a
type of their own, since they go through a factory. -/

namespace AspectLang

/-- How the header of an inter-type member writes the type that the member goes on. -/
inductive TargetForm where
  /-- A plain name. -/
  | plain
  /-- A name with a star as its last segment. -/
  | starSegment
  /-- A star in place of the member's name. -/
  | starOnly
  /-- A name with a plus sign. -/
  | plus
deriving DecidableEq, Inhabited, Repr

/-- The semantic actions of aspect constructs. -/
inductive AspectAction where
  | aspectHeaderName (privileged typeParameters : Bool)
  | headerRest
  | pointcutHeader
  | pointcutDecl (designator : Bool)
  | aroundHeaderName (returnType : Bool)
  | adviceHeaderName (after : Bool)
  | adviceHeader (extraParameter : Bool)
  | extraParameter (formal : Bool)
  | declareHeader
  | declareDecl
  | declareAnnotationHeader
  | annotationDeclare (sign : Char)
  | interTypeFieldHeader (pattern : TargetForm)
  | interTypeFieldBody (initializer : Bool)
  | interTypeFieldDecl
  | interTypeMethodHeaderName (pattern : TargetForm)
  | interTypeConstructorHeaderName (plus : Bool)
  | interTypeClassHeaderName
  | symbolToken (kind : TokenKind)
  | identifierToken
  | literalToken
  | modifierToken
  | primitiveTypeToken
  | guardToken
deriving DecidableEq, Inhabited, Repr

/-- The construct that is missing when an action runs without a dialect. -/
def AspectAction.constructWords : AspectAction → String
  | .aspectHeaderName .. | .headerRest => "aspect declaration"
  | .pointcutHeader | .pointcutDecl _ => "pointcut declaration"
  | .aroundHeaderName _ => "around advice"
  | .adviceHeaderName true => "after advice"
  | .adviceHeaderName false => "before advice"
  | .adviceHeader _ | .extraParameter _ => "advice declaration"
  | .declareHeader | .declareDecl => "declare statement"
  | .declareAnnotationHeader | .annotationDeclare _ => "declare annotation statement"
  | .interTypeFieldHeader _ | .interTypeFieldBody _ | .interTypeFieldDecl => "inter-type field"
  | .interTypeMethodHeaderName _ => "inter-type method"
  | .interTypeConstructorHeaderName _ => "inter-type constructor"
  | .interTypeClassHeaderName => "inter-type member class"
  | .symbolToken _ | .identifierToken | .literalToken | .modifierToken | .primitiveTypeToken
  | .guardToken => "pointcut designator"

/-- The semantic actions. -/
inductive SemanticAction where
  | none
  -- lists
  | emptyNodes | emptyExprs | emptyTypes
  | concatNodes | concatExprs | concatTypes | concatIdentifiers
  -- compilation units
  | compilationUnit | packageDecl
  | importDecl (isStatic onDemand : Bool)
  -- types
  | primitiveType (name : String)
  | namedType | qualifiedGenericType | genericType | arrayType
  | dimsOne | dimsMore | dimsZero
  | wildcard (kind : WildcardKind)
  | typeParameter (bounded additional : Bool)
  -- modifiers and annotations
  | emptyModifiers
  | modifierKeyword (flag : Modifiers)
  | annotationModifier | concatModifiers | annotationMarker | annotationSingleMember
  -- declarations
  | typeHeaderName (kind : TypeKind) (typeParameters : Bool)
  | superclass | interfaces | classBody | fieldDecl | declaratorId | declaratorInitializer
  | methodHeaderName (typeParameters : Bool)
  | constructorHeaderName | methodHeader | methodDecl | emptyMethodBody
  | formalParameter (modifiers varargs : Bool)
  | initializerBlock
  -- statements
  | block
  | localVariables (modifiers : Bool)
  | localVariablesStatement | emptyStatement | expressionStatement | labeledStatement
  | ifStatement (hasElse : Bool)
  | whileStatement | doStatement | forStatement | forInitExpressions
  | forEachStatement (modifiers : Bool)
  | returnStatement | throwStatement
  | breakStatement (label : Bool)
  | continueStatement (label : Bool)
  | tryStatement (final : Bool)
  | catchClause
  | assertStatement (message : Bool)
  | constructorCall (isSuper : Bool)
  -- expressions
  | thisExpr | parenthesized | allocation
  | fieldAccess (isSuper : Bool)
  | callByName | callOnPrimary | callOnSuper | nameExpr
  | unary (operator : UnaryOperator)
  | binary (operator : BinaryOperator)
  | instanceOf | conditional
  | assignmentOperator (operator : Option BinaryOperator)
  | assignment
  -- aspect constructs
  | aspect (action : AspectAction)
deriving DecidableEq, Inhabited, Repr

/-- Whether an action builds an aspect construct. -/
def SemanticAction.isAspect : SemanticAction → Bool
  | .aspect _ => true
  | _ => false

end AspectLang
