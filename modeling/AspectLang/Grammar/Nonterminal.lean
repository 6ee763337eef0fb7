/-! # Nonterminals of the language

The nonterminals in the order in which the rules introduce them; the position of one is its
number in the grammar. -/

namespace AspectLang

/-- The nonterminals of the language. -/
inductive Nonterminal where
  | goal | compilationUnit | packageDeclarationOpt | packageDeclaration | importDeclarationsOpt
  | importDeclarations | importDeclaration | typeDeclarationsOpt | typeDeclarations
  | typeDeclaration | name | type | primitiveType | referenceType | classOrInterfaceType
  | classOrInterface | genericType | arrayType | classType | classTypeList | dims | dimsOpt
  | typeArguments | typeArgumentList | typeArgument | typeParameters | typeParameterList
  | typeParameter | additionalBoundList | additionalBound | modifiersOpt | modifiers | modifier
  | modifierKeyword | annotationUse | classDeclaration | classHeader | classHeaderName
  | classHeaderExtendsOpt | classHeaderImplementsOpt | interfaceDeclaration | interfaceHeader
  | interfaceHeaderName | interfaceHeaderExtendsOpt | classBody | classBodyDeclarationsOpt
  | classBodyDeclarations | classBodyDeclaration | classMemberDeclaration | fieldDeclaration
  | variableDeclarators | variableDeclarator | variableDeclaratorId | variableInitializer
  | methodDeclaration | methodHeader | methodHeaderName | methodHeaderThrowsClauseOpt
  | methodBody | constructorDeclaration | constructorHeader | constructorHeaderName
  | formalParameterListOpt | formalParameterList | formalParameter | initializer | block
  | blockStatementsOpt | blockStatements | blockStatement | localVariableDeclarationStatement
  | localVariableDeclaration | statement | catchesOpt | catches | catchClause | finallyClause
  | forInitOpt | forUpdateOpt | statementExpressionList | expressionOpt | statementExpression
  | explicitConstructorInvocation | primary | literal | classInstanceCreationExpression
  | argumentListOpt | argumentList | fieldAccess | methodInvocation | postfixExpression
  | postIncrementExpression | postDecrementExpression | unaryExpression | preIncrementExpression
  | preDecrementExpression | unaryExpressionNotPlusMinus | multiplicativeExpression
  | additiveExpression | shiftExpression | relationalExpression | equalityExpression
  | andExpression | exclusiveOrExpression | inclusiveOrExpression | conditionalAndExpression
  | conditionalOrExpression | conditionalExpression | assignmentExpression | assignment
  | leftHandSide | assignmentOperator | expression | aspectDeclaration | aspectHeader
  | aspectHeaderName | aspectHeaderRestOpt | aspectHeaderRest | aspectHeaderRestStart
  | pointcutDeclaration | pointcutHeader | adviceDeclaration | aroundHeader | aroundHeaderName
  | basicAdviceHeader | basicAdviceHeaderName | extraParamOpt | declareDeclaration
  | declareHeader | declareAnnotationDeclaration | declareAnnotationHeader
  | interTypeFieldDeclaration | interTypeFieldHeader | interTypeFieldBody
  | interTypeMethodDeclaration | interTypeMethodHeader | interTypeMethodHeaderName
  | interTypeConstructorDeclaration | interTypeConstructorHeader | interTypeConstructorHeaderName
  | interTypeClassDeclaration | interTypeClassHeader | interTypeClassHeaderName | onType
  | pseudoTokens | pseudoTokensNoColon | pseudoToken | pseudoTokenNoColon | plainIdentifier
deriving DecidableEq, Inhabited, Repr

namespace Nonterminal

/-- Name of a nonterminal in grammar rules and messages. -/
def label : Nonterminal → String
  | .goal => "Goal"
  | .compilationUnit => "CompilationUnit"
  | .packageDeclarationOpt => "PackageDeclarationopt"
  | .packageDeclaration => "PackageDeclaration"
  | .importDeclarationsOpt => "ImportDeclarationsopt"
  | .importDeclarations => "ImportDeclarations"
  | .importDeclaration => "ImportDeclaration"
  | .typeDeclarationsOpt => "TypeDeclarationsopt"
  | .typeDeclarations => "TypeDeclarations"
  | .typeDeclaration => "TypeDeclaration"
  | .name => "Name"
  | .type => "Type"
  | .primitiveType => "PrimitiveType"
  | .referenceType => "ReferenceType"
  | .classOrInterfaceType => "ClassOrInterfaceType"
  | .classOrInterface => "ClassOrInterface"
  | .genericType => "GenericType"
  | .arrayType => "ArrayType"
  | .classType => "ClassType"
  | .classTypeList => "ClassTypeList"
  | .dims => "Dims"
  | .dimsOpt => "Dimsopt"
  | .typeArguments => "TypeArguments"
  | .typeArgumentList => "TypeArgumentList"
  | .typeArgument => "TypeArgument"
  | .typeParameters => "TypeParameters"
  | .typeParameterList => "TypeParameterList"
  | .typeParameter => "TypeParameter"
  | .additionalBoundList => "AdditionalBoundList"
  | .additionalBound => "AdditionalBound"
  | .modifiersOpt => "Modifiersopt"
  | .modifiers => "Modifiers"
  | .modifier => "Modifier"
  | .modifierKeyword => "ModifierKeyword"
  | .annotationUse => "Annotation"
  | .classDeclaration => "ClassDeclaration"
  | .classHeader => "ClassHeader"
  | .classHeaderName => "ClassHeaderName"
  | .classHeaderExtendsOpt => "ClassHeaderExtendsopt"
  | .classHeaderImplementsOpt => "ClassHeaderImplementsopt"
  | .interfaceDeclaration => "InterfaceDeclaration"
  | .interfaceHeader => "InterfaceHeader"
  | .interfaceHeaderName => "InterfaceHeaderName"
  | .interfaceHeaderExtendsOpt => "InterfaceHeaderExtendsopt"
  | .classBody => "ClassBody"
  | .classBodyDeclarationsOpt => "ClassBodyDeclarationsopt"
  | .classBodyDeclarations => "ClassBodyDeclarations"
  | .classBodyDeclaration => "ClassBodyDeclaration"
  | .classMemberDeclaration => "ClassMemberDeclaration"
  | .fieldDeclaration => "FieldDeclaration"
  | .variableDeclarators => "VariableDeclarators"
  | .variableDeclarator => "VariableDeclarator"
  | .variableDeclaratorId => "VariableDeclaratorId"
  | .variableInitializer => "VariableInitializer"
  | .methodDeclaration => "MethodDeclaration"
  | .methodHeader => "MethodHeader"
  | .methodHeaderName => "MethodHeaderName"
  | .methodHeaderThrowsClauseOpt => "MethodHeaderThrowsClauseopt"
  | .methodBody => "MethodBody"
  | .constructorDeclaration => "ConstructorDeclaration"
  | .constructorHeader => "ConstructorHeader"
  | .constructorHeaderName => "ConstructorHeaderName"
  | .formalParameterListOpt => "FormalParameterListopt"
  | .formalParameterList => "FormalParameterList"
  | .formalParameter => "FormalParameter"
  | .initializer => "Initializer"
  | .block => "Block"
  | .blockStatementsOpt => "BlockStatementsopt"
  | .blockStatements => "BlockStatements"
  | .blockStatement => "BlockStatement"
  | .localVariableDeclarationStatement => "LocalVariableDeclarationStatement"
  | .localVariableDeclaration => "LocalVariableDeclaration"
  | .statement => "Statement"
  | .catchesOpt => "Catchesopt"
  | .catches => "Catches"
  | .catchClause => "CatchClause"
  | .finallyClause => "Finally"
  | .forInitOpt => "ForInitopt"
  | .forUpdateOpt => "ForUpdateopt"
  | .statementExpressionList => "StatementExpressionList"
  | .expressionOpt => "Expressionopt"
  | .statementExpression => "StatementExpression"
  | .explicitConstructorInvocation => "ExplicitConstructorInvocation"
  | .primary => "Primary"
  | .literal => "Literal"
  | .classInstanceCreationExpression => "ClassInstanceCreationExpression"
  | .argumentListOpt => "ArgumentListopt"
  | .argumentList => "ArgumentList"
  | .fieldAccess => "FieldAccess"
  | .methodInvocation => "MethodInvocation"
  | .postfixExpression => "PostfixExpression"
  | .postIncrementExpression => "PostIncrementExpression"
  | .postDecrementExpression => "PostDecrementExpression"
  | .unaryExpression => "UnaryExpression"
  | .preIncrementExpression => "PreIncrementExpression"
  | .preDecrementExpression => "PreDecrementExpression"
  | .unaryExpressionNotPlusMinus => "UnaryExpressionNotPlusMinus"
  | .multiplicativeExpression => "MultiplicativeExpression"
  | .additiveExpression => "AdditiveExpression"
  | .shiftExpression => "ShiftExpression"
  | .relationalExpression => "RelationalExpression"
  | .equalityExpression => "EqualityExpression"
  | .andExpression => "AndExpression"
  | .exclusiveOrExpression => "ExclusiveOrExpression"
  | .inclusiveOrExpression => "InclusiveOrExpression"
  | .conditionalAndExpression => "ConditionalAndExpression"
  | .conditionalOrExpression => "ConditionalOrExpression"
  | .conditionalExpression => "ConditionalExpression"
  | .assignmentExpression => "AssignmentExpression"
  | .assignment => "Assignment"
  | .leftHandSide => "LeftHandSide"
  | .assignmentOperator => "AssignmentOperator"
  | .expression => "Expression"
  | .aspectDeclaration => "AspectDeclaration"
  | .aspectHeader => "AspectHeader"
  | .aspectHeaderName => "AspectHeaderName"
  | .aspectHeaderRestOpt => "AspectHeaderRestopt"
  | .aspectHeaderRest => "AspectHeaderRest"
  | .aspectHeaderRestStart => "AspectHeaderRestStart"
  | .pointcutDeclaration => "PointcutDeclaration"
  | .pointcutHeader => "PointcutHeader"
  | .adviceDeclaration => "AdviceDeclaration"
  | .aroundHeader => "AroundHeader"
  | .aroundHeaderName => "AroundHeaderName"
  | .basicAdviceHeader => "BasicAdviceHeader"
  | .basicAdviceHeaderName => "BasicAdviceHeaderName"
  | .extraParamOpt => "ExtraParamopt"
  | .declareDeclaration => "DeclareDeclaration"
  | .declareHeader => "DeclareHeader"
  | .declareAnnotationDeclaration => "DeclareAnnotationDeclaration"
  | .declareAnnotationHeader => "DeclareAnnotationHeader"
  | .interTypeFieldDeclaration => "InterTypeFieldDeclaration"
  | .interTypeFieldHeader => "InterTypeFieldHeader"
  | .interTypeFieldBody => "InterTypeFieldBody"
  | .interTypeMethodDeclaration => "InterTypeMethodDeclaration"
  | .interTypeMethodHeader => "InterTypeMethodHeader"
  | .interTypeMethodHeaderName => "InterTypeMethodHeaderName"
  | .interTypeConstructorDeclaration => "InterTypeConstructorDeclaration"
  | .interTypeConstructorHeader => "InterTypeConstructorHeader"
  | .interTypeConstructorHeaderName => "InterTypeConstructorHeaderName"
  | .interTypeClassDeclaration => "InterTypeClassDeclaration"
  | .interTypeClassHeader => "InterTypeClassHeader"
  | .interTypeClassHeaderName => "InterTypeClassHeaderName"
  | .onType => "OnType"
  | .pseudoTokens => "PseudoTokens"
  | .pseudoTokensNoColon => "PseudoTokensNoColon"
  | .pseudoToken => "PseudoToken"
  | .pseudoTokenNoColon => "PseudoTokenNoColon"
  | .plainIdentifier => "JavaIdentifier"

/-- Every nonterminal, in order. -/
def all : List Nonterminal := [
  .goal, .compilationUnit, .packageDeclarationOpt, .packageDeclaration, .importDeclarationsOpt,
  .importDeclarations, .importDeclaration, .typeDeclarationsOpt, .typeDeclarations,
  .typeDeclaration, .name, .type, .primitiveType, .referenceType, .classOrInterfaceType,
  .classOrInterface, .genericType, .arrayType, .classType, .classTypeList, .dims, .dimsOpt,
  .typeArguments, .typeArgumentList, .typeArgument, .typeParameters, .typeParameterList,
  .typeParameter, .additionalBoundList, .additionalBound, .modifiersOpt, .modifiers, .modifier,
  .modifierKeyword, .annotationUse, .classDeclaration, .classHeader, .classHeaderName,
  .classHeaderExtendsOpt, .classHeaderImplementsOpt, .interfaceDeclaration, .interfaceHeader,
  .interfaceHeaderName, .interfaceHeaderExtendsOpt, .classBody, .classBodyDeclarationsOpt,
  .classBodyDeclarations, .classBodyDeclaration, .classMemberDeclaration, .fieldDeclaration,
  .variableDeclarators, .variableDeclarator, .variableDeclaratorId, .variableInitializer,
  .methodDeclaration, .methodHeader, .methodHeaderName, .methodHeaderThrowsClauseOpt,
  .methodBody, .constructorDeclaration, .constructorHeader, .constructorHeaderName,
  .formalParameterListOpt, .formalParameterList, .formalParameter, .initializer, .block,
  .blockStatementsOpt, .blockStatements, .blockStatement, .localVariableDeclarationStatement,
  .localVariableDeclaration, .statement, .catchesOpt, .catches, .catchClause, .finallyClause,
  .forInitOpt, .forUpdateOpt, .statementExpressionList, .expressionOpt, .statementExpression,
  .explicitConstructorInvocation, .primary, .literal, .classInstanceCreationExpression,
  .argumentListOpt, .argumentList, .fieldAccess, .methodInvocation, .postfixExpression,
  .postIncrementExpression, .postDecrementExpression, .unaryExpression, .preIncrementExpression,
  .preDecrementExpression, .unaryExpressionNotPlusMinus, .multiplicativeExpression,
  .additiveExpression, .shiftExpression, .relationalExpression, .equalityExpression,
  .andExpression, .exclusiveOrExpression, .inclusiveOrExpression, .conditionalAndExpression,
  .conditionalOrExpression, .conditionalExpression, .assignmentExpression, .assignment,
  .leftHandSide, .assignmentOperator, .expression, .aspectDeclaration, .aspectHeader,
  .aspectHeaderName, .aspectHeaderRestOpt, .aspectHeaderRest, .aspectHeaderRestStart,
  .pointcutDeclaration, .pointcutHeader, .adviceDeclaration, .aroundHeader, .aroundHeaderName,
  .basicAdviceHeader, .basicAdviceHeaderName, .extraParamOpt, .declareDeclaration,
  .declareHeader, .declareAnnotationDeclaration, .declareAnnotationHeader,
  .interTypeFieldDeclaration, .interTypeFieldHeader, .interTypeFieldBody,
  .interTypeMethodDeclaration, .interTypeMethodHeader, .interTypeMethodHeaderName,
  .interTypeConstructorDeclaration, .interTypeConstructorHeader, .interTypeConstructorHeaderName,
  .interTypeClassDeclaration, .interTypeClassHeader, .interTypeClassHeaderName, .onType,
  .pseudoTokens, .pseudoTokensNoColon, .pseudoToken, .pseudoTokenNoColon, .plainIdentifier]

/-- Number of a nonterminal in the grammar. -/
def index (x : Nonterminal) : Nat := x.ctorIdx

end Nonterminal

end AspectLang
