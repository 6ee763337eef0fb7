import AspectLang.Grammar.Action
import AspectLang.Grammar.Basic
import AspectLang.Grammar.Nonterminal

/-! # The grammar of the language

The rules of the language in order, each with its semantic action; the first one is the start
rule.  `Language.grammar` is the same grammar with numbers for nonterminals. -/

namespace AspectLang

/-- A symbol on the right of a rule: a terminal or a nonterminal. -/
inductive RuleSymbol where
  | t (kind : TokenKind)
  | n (nonterminal : Nonterminal)
deriving DecidableEq, Repr

namespace RuleSymbol

/-- Name of a symbol in grammar rules. -/
def label : RuleSymbol → String
  | .t kind => kind.grammarName
  | .n nonterminal => nonterminal.label

/-- The symbol with a number for its nonterminal. -/
def symbol : RuleSymbol → Symbol
  | .t kind => .terminal kind
  | .n nonterminal => .nonterminal nonterminal.index

end RuleSymbol

/-- A rule of the language with its semantic action. -/
structure Rule where
  lhs : Nonterminal
  rhs : List RuleSymbol
  action : SemanticAction

namespace Rule

/-- The rule as text. -/
def text (r : Rule) : String := " ".intercalate (r.lhs.label :: "::=" :: r.rhs.map RuleSymbol.label)

/-- The rule with numbers for its nonterminals. -/
def production (r : Rule) : Production := ⟨r.lhs.index, r.rhs.map RuleSymbol.symbol⟩

end Rule

namespace Language

open RuleSymbol (t n)

/-- Compilation units. -/
def unitRules : List Rule := [
  ⟨.goal, [n .compilationUnit], .none⟩,
  ⟨.compilationUnit, [n .packageDeclarationOpt, n .importDeclarationsOpt, n .typeDeclarationsOpt],
    .compilationUnit⟩,
  ⟨.packageDeclarationOpt, [], .emptyNodes⟩,
  ⟨.packageDeclarationOpt, [n .packageDeclaration], .none⟩,
  ⟨.packageDeclaration, [t .kwPackage, n .name, t .semicolon], .packageDecl⟩,
  ⟨.importDeclarationsOpt, [], .emptyNodes⟩,
  ⟨.importDeclarationsOpt, [n .importDeclarations], .none⟩,
  ⟨.importDeclarations, [n .importDeclaration], .none⟩,
  ⟨.importDeclarations, [n .importDeclarations, n .importDeclaration], .concatNodes⟩,
  ⟨.importDeclaration, [t .kwImport, n .name, t .semicolon], .importDecl false false⟩,
  ⟨.importDeclaration, [t .kwImport, n .name, t .dot, t .star, t .semicolon],
    .importDecl false true⟩,
  ⟨.importDeclaration, [t .kwImport, t .kwStatic, n .name, t .semicolon], .importDecl true false⟩,
  ⟨.importDeclaration, [t .kwImport, t .kwStatic, n .name, t .dot, t .star, t .semicolon],
    .importDecl true true⟩,
  ⟨.typeDeclarationsOpt, [], .emptyNodes⟩,
  ⟨.typeDeclarationsOpt, [n .typeDeclarations], .none⟩,
  ⟨.typeDeclarations, [n .typeDeclaration], .none⟩,
  ⟨.typeDeclarations, [n .typeDeclarations, n .typeDeclaration], .concatNodes⟩,
  ⟨.typeDeclaration, [n .classDeclaration], .none⟩,
  ⟨.typeDeclaration, [n .interfaceDeclaration], .none⟩,
  ⟨.typeDeclaration, [n .aspectDeclaration], .none⟩,
  ⟨.typeDeclaration, [t .semicolon], .emptyNodes⟩]

/-- Names and types. -/
def typeRules : List Rule := [
  ⟨.name, [t .identifier], .none⟩,
  ⟨.name, [n .name, t .dot, t .identifier], .concatIdentifiers⟩,
  ⟨.type, [n .primitiveType], .none⟩,
  ⟨.type, [n .referenceType], .none⟩,
  ⟨.primitiveType, [t .kwBoolean], .primitiveType "boolean"⟩,
  ⟨.primitiveType, [t .kwByte], .primitiveType "byte"⟩,
  ⟨.primitiveType, [t .kwShort], .primitiveType "short"⟩,
  ⟨.primitiveType, [t .kwInt], .primitiveType "int"⟩,
  ⟨.primitiveType, [t .kwLong], .primitiveType "long"⟩,
  ⟨.primitiveType, [t .kwChar], .primitiveType "char"⟩,
  ⟨.primitiveType, [t .kwFloat], .primitiveType "float"⟩,
  ⟨.primitiveType, [t .kwDouble], .primitiveType "double"⟩,
  ⟨.primitiveType, [t .kwVoid], .primitiveType "void"⟩,
  ⟨.referenceType, [n .classOrInterfaceType], .none⟩,
  ⟨.referenceType, [n .arrayType], .none⟩,
  ⟨.classOrInterfaceType, [n .classOrInterface], .none⟩,
  ⟨.classOrInterfaceType, [n .genericType], .none⟩,
  ⟨.classOrInterface, [n .name], .namedType⟩,
  ⟨.classOrInterface, [n .genericType, t .dot, n .name], .qualifiedGenericType⟩,
  ⟨.genericType, [n .classOrInterface, n .typeArguments], .genericType⟩,
  ⟨.arrayType, [n .primitiveType, n .dims], .arrayType⟩,
  ⟨.arrayType, [n .classOrInterfaceType, n .dims], .arrayType⟩,
  ⟨.classType, [n .classOrInterfaceType], .none⟩,
  ⟨.classTypeList, [n .classType], .none⟩,
  ⟨.classTypeList, [n .classTypeList, t .comma, n .classType], .concatTypes⟩,
  ⟨.dims, [t .lBracket, t .rBracket], .dimsOne⟩,
  ⟨.dims, [n .dims, t .lBracket, t .rBracket], .dimsMore⟩,
  ⟨.dimsOpt, [], .dimsZero⟩,
  ⟨.dimsOpt, [n .dims], .none⟩,
  ⟨.typeArguments, [t .lt, n .typeArgumentList, t .gt], .none⟩,
  ⟨.typeArgumentList, [n .typeArgument], .none⟩,
  ⟨.typeArgumentList, [n .typeArgumentList, t .comma, n .typeArgument], .concatTypes⟩,
  ⟨.typeArgument, [n .referenceType], .none⟩,
  ⟨.typeArgument, [t .question], .wildcard .unbound⟩,
  ⟨.typeArgument, [t .question, t .kwExtends, n .referenceType], .wildcard .upper⟩,
  ⟨.typeArgument, [t .question, t .kwSuper, n .referenceType], .wildcard .lower⟩,
  ⟨.typeParameters, [t .lt, n .typeParameterList, t .gt], .none⟩,
  ⟨.typeParameterList, [n .typeParameter], .none⟩,
  ⟨.typeParameterList, [n .typeParameterList, t .comma, n .typeParameter], .concatTypes⟩,
  ⟨.typeParameter, [t .identifier], .typeParameter false false⟩,
  ⟨.typeParameter, [t .identifier, t .kwExtends, n .referenceType], .typeParameter true false⟩,
  ⟨.typeParameter, [t .identifier, t .kwExtends, n .referenceType, n .additionalBoundList],
    .typeParameter true true⟩,
  ⟨.additionalBoundList, [n .additionalBound], .none⟩,
  ⟨.additionalBoundList, [n .additionalBoundList, n .additionalBound], .concatTypes⟩,
  ⟨.additionalBound, [t .ampersand, n .referenceType], .none⟩]

/-- Modifiers and annotations. -/
def modifierRules : List Rule := [
  ⟨.modifiersOpt, [], .emptyModifiers⟩,
  ⟨.modifiersOpt, [n .modifiers], .none⟩,
  ⟨.modifiers, [n .modifier], .none⟩,
  ⟨.modifiers, [n .modifiers, n .modifier], .concatModifiers⟩,
  ⟨.modifier, [n .modifierKeyword], .none⟩,
  ⟨.modifier, [n .annotationUse], .annotationModifier⟩,
  ⟨.modifierKeyword, [t .kwPublic], .modifierKeyword Modifiers.publicFlag⟩,
  ⟨.modifierKeyword, [t .kwProtected], .modifierKeyword Modifiers.protectedFlag⟩,
  ⟨.modifierKeyword, [t .kwPrivate], .modifierKeyword Modifiers.privateFlag⟩,
  ⟨.modifierKeyword, [t .kwStatic], .modifierKeyword Modifiers.staticFlag⟩,
  ⟨.modifierKeyword, [t .kwAbstract], .modifierKeyword Modifiers.abstractFlag⟩,
  ⟨.modifierKeyword, [t .kwFinal], .modifierKeyword Modifiers.finalFlag⟩,
  ⟨.modifierKeyword, [t .kwNative], .modifierKeyword Modifiers.nativeFlag⟩,
  ⟨.modifierKeyword, [t .kwSynchronized], .modifierKeyword Modifiers.synchronizedFlag⟩,
  ⟨.modifierKeyword, [t .kwTransient], .modifierKeyword Modifiers.transientFlag⟩,
  ⟨.modifierKeyword, [t .kwVolatile], .modifierKeyword Modifiers.volatileFlag⟩,
  ⟨.modifierKeyword, [t .kwStrictfp], .modifierKeyword Modifiers.strictfpFlag⟩,
  ⟨.modifierKeyword, [t .kwDefault], .modifierKeyword Modifiers.defaultMethodFlag⟩,
  ⟨.annotationUse, [t .atSign, n .name], .annotationMarker⟩,
  ⟨.annotationUse, [t .atSign, n .name, t .lParen, n .conditionalExpression, t .rParen],
    .annotationSingleMember⟩]

/-- Classes, interfaces and their members. -/
def declarationRules : List Rule := [
  ⟨.classDeclaration, [n .classHeader, n .classBody], .none⟩,
  ⟨.classHeader, [n .classHeaderName, n .classHeaderExtendsOpt, n .classHeaderImplementsOpt],
    .none⟩,
  ⟨.classHeaderName, [n .modifiersOpt, t .kwClass, t .identifier],
    .typeHeaderName .classType false⟩,
  ⟨.classHeaderName, [n .modifiersOpt, t .kwClass, t .identifier, n .typeParameters],
    .typeHeaderName .classType true⟩,
  ⟨.classHeaderExtendsOpt, [], .none⟩,
  ⟨.classHeaderExtendsOpt, [t .kwExtends, n .classType], .superclass⟩,
  ⟨.classHeaderImplementsOpt, [], .none⟩,
  ⟨.classHeaderImplementsOpt, [t .kwImplements, n .classTypeList], .interfaces⟩,
  ⟨.interfaceDeclaration, [n .interfaceHeader, n .classBody], .none⟩,
  ⟨.interfaceHeader, [n .interfaceHeaderName, n .interfaceHeaderExtendsOpt], .none⟩,
  ⟨.interfaceHeaderName, [n .modifiersOpt, t .kwInterface, t .identifier],
    .typeHeaderName .interfaceType false⟩,
  ⟨.interfaceHeaderName, [n .modifiersOpt, t .kwInterface, t .identifier, n .typeParameters],
    .typeHeaderName .interfaceType true⟩,
  ⟨.interfaceHeaderExtendsOpt, [], .none⟩,
  ⟨.interfaceHeaderExtendsOpt, [t .kwExtends, n .classTypeList], .interfaces⟩,
  ⟨.classBody, [t .lBrace, n .classBodyDeclarationsOpt, t .rBrace], .classBody⟩,
  ⟨.classBodyDeclarationsOpt, [], .emptyNodes⟩,
  ⟨.classBodyDeclarationsOpt, [n .classBodyDeclarations], .none⟩,
  ⟨.classBodyDeclarations, [n .classBodyDeclaration], .none⟩,
  ⟨.classBodyDeclarations, [n .classBodyDeclarations, n .classBodyDeclaration], .concatNodes⟩,
  ⟨.classBodyDeclaration, [n .classMemberDeclaration], .none⟩,
  ⟨.classBodyDeclaration, [t .semicolon], .emptyNodes⟩,
  ⟨.classMemberDeclaration, [n .fieldDeclaration], .none⟩,
  ⟨.classMemberDeclaration, [n .methodDeclaration], .none⟩,
  ⟨.classMemberDeclaration, [n .constructorDeclaration], .none⟩,
  ⟨.classMemberDeclaration, [n .initializer], .none⟩,
  ⟨.classMemberDeclaration, [n .classDeclaration], .none⟩,
  ⟨.classMemberDeclaration, [n .interfaceDeclaration], .none⟩,
  ⟨.classMemberDeclaration, [n .aspectDeclaration], .none⟩,
  ⟨.classMemberDeclaration, [n .pointcutDeclaration], .none⟩,
  ⟨.classMemberDeclaration, [n .adviceDeclaration], .none⟩,
  ⟨.classMemberDeclaration, [n .declareDeclaration], .none⟩,
  ⟨.classMemberDeclaration, [n .declareAnnotationDeclaration], .none⟩,
  ⟨.classMemberDeclaration, [n .interTypeFieldDeclaration], .none⟩,
  ⟨.classMemberDeclaration, [n .interTypeMethodDeclaration], .none⟩,
  ⟨.classMemberDeclaration, [n .interTypeConstructorDeclaration], .none⟩,
  ⟨.classMemberDeclaration, [n .interTypeClassDeclaration], .none⟩,
  ⟨.fieldDeclaration, [n .modifiersOpt, n .type, n .variableDeclarators, t .semicolon],
    .fieldDecl⟩,
  ⟨.variableDeclarators, [n .variableDeclarator], .none⟩,
  ⟨.variableDeclarators, [n .variableDeclarators, t .comma, n .variableDeclarator], .concatNodes⟩,
  ⟨.variableDeclarator, [n .variableDeclaratorId], .none⟩,
  ⟨.variableDeclarator, [n .variableDeclaratorId, t .assign, n .variableInitializer],
    .declaratorInitializer⟩,
  ⟨.variableDeclaratorId, [t .identifier, n .dimsOpt], .declaratorId⟩,
  ⟨.variableInitializer, [n .expression], .none⟩,
  ⟨.methodDeclaration, [n .methodHeader, n .methodBody], .methodDecl⟩,
  ⟨.methodHeader, [n .methodHeaderName, n .formalParameterListOpt, t .rParen,
    n .methodHeaderThrowsClauseOpt],
    .methodHeader⟩,
  ⟨.methodHeaderName, [n .modifiersOpt, n .type, t .identifier, t .lParen],
    .methodHeaderName false⟩,
  ⟨.methodHeaderName, [n .modifiersOpt, n .typeParameters, n .type, t .identifier, t .lParen],
    .methodHeaderName true⟩,
  ⟨.methodHeaderThrowsClauseOpt, [], .emptyTypes⟩,
  ⟨.methodHeaderThrowsClauseOpt, [t .kwThrows, n .classTypeList], .none⟩,
  ⟨.methodBody, [n .block], .none⟩,
  ⟨.methodBody, [t .semicolon], .emptyMethodBody⟩,
  ⟨.constructorDeclaration, [n .constructorHeader, n .methodBody], .methodDecl⟩,
  ⟨.constructorHeader, [n .constructorHeaderName, n .formalParameterListOpt, t .rParen,
    n .methodHeaderThrowsClauseOpt],
    .methodHeader⟩,
  ⟨.constructorHeaderName, [n .modifiersOpt, t .identifier, t .lParen], .constructorHeaderName⟩,
  ⟨.formalParameterListOpt, [], .emptyNodes⟩,
  ⟨.formalParameterListOpt, [n .formalParameterList], .none⟩,
  ⟨.formalParameterList, [n .formalParameter], .none⟩,
  ⟨.formalParameterList, [n .formalParameterList, t .comma, n .formalParameter], .concatNodes⟩,
  ⟨.formalParameter, [n .type, n .variableDeclaratorId], .formalParameter false false⟩,
  ⟨.formalParameter, [n .modifiers, n .type, n .variableDeclaratorId],
    .formalParameter true false⟩,
  ⟨.formalParameter, [n .type, t .ellipsis, n .variableDeclaratorId], .formalParameter false true⟩,
  ⟨.formalParameter, [n .modifiers, n .type, t .ellipsis, n .variableDeclaratorId],
    .formalParameter true true⟩,
  ⟨.initializer, [n .modifiersOpt, n .block], .initializerBlock⟩]

/-- Statements. -/
def statementRules : List Rule := [
  ⟨.block, [t .lBrace, n .blockStatementsOpt, t .rBrace], .block⟩,
  ⟨.blockStatementsOpt, [], .emptyNodes⟩,
  ⟨.blockStatementsOpt, [n .blockStatements], .none⟩,
  ⟨.blockStatements, [n .blockStatement], .none⟩,
  ⟨.blockStatements, [n .blockStatements, n .blockStatement], .concatNodes⟩,
  ⟨.blockStatement, [n .localVariableDeclarationStatement], .none⟩,
  ⟨.blockStatement, [n .statement], .none⟩,
  ⟨.blockStatement, [n .explicitConstructorInvocation], .none⟩,
  ⟨.localVariableDeclarationStatement, [n .localVariableDeclaration, t .semicolon],
    .localVariablesStatement⟩,
  ⟨.localVariableDeclaration, [n .type, n .variableDeclarators], .localVariables false⟩,
  ⟨.localVariableDeclaration, [n .modifiers, n .type, n .variableDeclarators],
    .localVariables true⟩,
  ⟨.statement, [n .block], .none⟩,
  ⟨.statement, [t .semicolon], .emptyStatement⟩,
  ⟨.statement, [n .statementExpression, t .semicolon], .expressionStatement⟩,
  ⟨.statement, [t .identifier, t .colon, n .statement], .labeledStatement⟩,
  ⟨.statement, [t .kwIf, t .lParen, n .expression, t .rParen, n .statement], .ifStatement false⟩,
  ⟨.statement, [t .kwIf, t .lParen, n .expression, t .rParen, n .statement, t .kwElse,
    n .statement],
    .ifStatement true⟩,
  ⟨.statement, [t .kwWhile, t .lParen, n .expression, t .rParen, n .statement], .whileStatement⟩,
  ⟨.statement, [t .kwDo, n .statement, t .kwWhile, t .lParen, n .expression, t .rParen,
    t .semicolon],
    .doStatement⟩,
  ⟨.statement, [t .kwFor, t .lParen, n .forInitOpt, t .semicolon, n .expressionOpt,
    t .semicolon, n .forUpdateOpt, t .rParen, n .statement],
    .forStatement⟩,
  ⟨.statement, [t .kwFor, t .lParen, n .type, t .identifier, t .colon, n .expression,
    t .rParen, n .statement],
    .forEachStatement false⟩,
  ⟨.statement, [t .kwFor, t .lParen, n .modifiers, n .type, t .identifier, t .colon,
    n .expression, t .rParen, n .statement],
    .forEachStatement true⟩,
  ⟨.statement, [t .kwReturn, n .expressionOpt, t .semicolon], .returnStatement⟩,
  ⟨.statement, [t .kwThrow, n .expression, t .semicolon], .throwStatement⟩,
  ⟨.statement, [t .kwBreak, t .semicolon], .breakStatement false⟩,
  ⟨.statement, [t .kwBreak, t .identifier, t .semicolon], .breakStatement true⟩,
  ⟨.statement, [t .kwContinue, t .semicolon], .continueStatement false⟩,
  ⟨.statement, [t .kwContinue, t .identifier, t .semicolon], .continueStatement true⟩,
  ⟨.statement, [t .kwTry, n .block, n .catches], .tryStatement false⟩,
  ⟨.statement, [t .kwTry, n .block, n .catchesOpt, n .finallyClause], .tryStatement true⟩,
  ⟨.statement, [t .kwAssert, n .expression, t .semicolon], .assertStatement false⟩,
  ⟨.statement, [t .kwAssert, n .expression, t .colon, n .expression, t .semicolon],
    .assertStatement true⟩,
  ⟨.catchesOpt, [], .emptyNodes⟩,
  ⟨.catchesOpt, [n .catches], .none⟩,
  ⟨.catches, [n .catchClause], .none⟩,
  ⟨.catches, [n .catches, n .catchClause], .concatNodes⟩,
  ⟨.catchClause, [t .kwCatch, t .lParen, n .formalParameter, t .rParen, n .block], .catchClause⟩,
  ⟨.finallyClause, [t .kwFinally, n .block], .none⟩,
  ⟨.forInitOpt, [], .emptyNodes⟩,
  ⟨.forInitOpt, [n .localVariableDeclaration], .none⟩,
  ⟨.forInitOpt, [n .statementExpressionList], .forInitExpressions⟩,
  ⟨.forUpdateOpt, [], .emptyExprs⟩,
  ⟨.forUpdateOpt, [n .statementExpressionList], .none⟩,
  ⟨.statementExpressionList, [n .statementExpression], .none⟩,
  ⟨.statementExpressionList, [n .statementExpressionList, t .comma, n .statementExpression],
    .concatExprs⟩,
  ⟨.expressionOpt, [], .emptyExprs⟩,
  ⟨.expressionOpt, [n .expression], .none⟩,
  ⟨.statementExpression, [n .assignment], .none⟩,
  ⟨.statementExpression, [n .preIncrementExpression], .none⟩,
  ⟨.statementExpression, [n .preDecrementExpression], .none⟩,
  ⟨.statementExpression, [n .postIncrementExpression], .none⟩,
  ⟨.statementExpression, [n .postDecrementExpression], .none⟩,
  ⟨.statementExpression, [n .methodInvocation], .none⟩,
  ⟨.statementExpression, [n .classInstanceCreationExpression], .none⟩,
  ⟨.explicitConstructorInvocation, [t .kwThis, t .lParen, n .argumentListOpt, t .rParen,
    t .semicolon],
    .constructorCall false⟩,
  ⟨.explicitConstructorInvocation, [t .kwSuper, t .lParen, n .argumentListOpt, t .rParen,
    t .semicolon],
    .constructorCall true⟩]

/-- Expressions. -/
def expressionRules : List Rule := [
  ⟨.primary, [n .literal], .none⟩,
  ⟨.primary, [t .kwThis], .thisExpr⟩,
  ⟨.primary, [t .lParen, n .expression, t .rParen], .parenthesized⟩,
  ⟨.primary, [n .classInstanceCreationExpression], .none⟩,
  ⟨.primary, [n .fieldAccess], .none⟩,
  ⟨.primary, [n .methodInvocation], .none⟩,
  ⟨.literal, [t .integerLiteral], .none⟩,
  ⟨.literal, [t .longLiteral], .none⟩,
  ⟨.literal, [t .floatingPointLiteral], .none⟩,
  ⟨.literal, [t .doubleLiteral], .none⟩,
  ⟨.literal, [t .characterLiteral], .none⟩,
  ⟨.literal, [t .stringLiteral], .none⟩,
  ⟨.literal, [t .kwTrue], .none⟩,
  ⟨.literal, [t .kwFalse], .none⟩,
  ⟨.literal, [t .kwNull], .none⟩,
  ⟨.classInstanceCreationExpression, [t .kwNew, n .classType, t .lParen, n .argumentListOpt,
    t .rParen],
    .allocation⟩,
  ⟨.argumentListOpt, [], .emptyExprs⟩,
  ⟨.argumentListOpt, [n .argumentList], .none⟩,
  ⟨.argumentList, [n .expression], .none⟩,
  ⟨.argumentList, [n .argumentList, t .comma, n .expression], .concatExprs⟩,
  ⟨.fieldAccess, [n .primary, t .dot, t .identifier], .fieldAccess false⟩,
  ⟨.fieldAccess, [t .kwSuper, t .dot, t .identifier], .fieldAccess true⟩,
  ⟨.methodInvocation, [n .name, t .lParen, n .argumentListOpt, t .rParen], .callByName⟩,
  ⟨.methodInvocation, [n .primary, t .dot, t .identifier, t .lParen, n .argumentListOpt,
    t .rParen],
    .callOnPrimary⟩,
  ⟨.methodInvocation, [t .kwSuper, t .dot, t .identifier, t .lParen, n .argumentListOpt,
    t .rParen],
    .callOnSuper⟩,
  ⟨.postfixExpression, [n .primary], .none⟩,
  ⟨.postfixExpression, [n .name], .nameExpr⟩,
  ⟨.postfixExpression, [n .postIncrementExpression], .none⟩,
  ⟨.postfixExpression, [n .postDecrementExpression], .none⟩,
  ⟨.postIncrementExpression, [n .postfixExpression, t .increment], .unary .postIncrement⟩,
  ⟨.postDecrementExpression, [n .postfixExpression, t .decrement], .unary .postDecrement⟩,
  ⟨.unaryExpression, [n .preIncrementExpression], .none⟩,
  ⟨.unaryExpression, [n .preDecrementExpression], .none⟩,
  ⟨.unaryExpression, [t .plus, n .unaryExpression], .unary .plus⟩,
  ⟨.unaryExpression, [t .minus, n .unaryExpression], .unary .minus⟩,
  ⟨.unaryExpression, [n .unaryExpressionNotPlusMinus], .none⟩,
  ⟨.preIncrementExpression, [t .increment, n .unaryExpression], .unary .preIncrement⟩,
  ⟨.preDecrementExpression, [t .decrement, n .unaryExpression], .unary .preDecrement⟩,
  ⟨.unaryExpressionNotPlusMinus, [n .postfixExpression], .none⟩,
  ⟨.unaryExpressionNotPlusMinus, [t .tilde, n .unaryExpression], .unary .complement⟩,
  ⟨.unaryExpressionNotPlusMinus, [t .bang, n .unaryExpression], .unary .not⟩,
  ⟨.multiplicativeExpression, [n .unaryExpression], .none⟩,
  ⟨.multiplicativeExpression, [n .multiplicativeExpression, t .star, n .unaryExpression],
    .binary .mul⟩,
  ⟨.multiplicativeExpression, [n .multiplicativeExpression, t .slash, n .unaryExpression],
    .binary .div⟩,
  ⟨.multiplicativeExpression, [n .multiplicativeExpression, t .percent, n .unaryExpression],
    .binary .rem⟩,
  ⟨.additiveExpression, [n .multiplicativeExpression], .none⟩,
  ⟨.additiveExpression, [n .additiveExpression, t .plus, n .multiplicativeExpression],
    .binary .add⟩,
  ⟨.additiveExpression, [n .additiveExpression, t .minus, n .multiplicativeExpression],
    .binary .sub⟩,
  ⟨.shiftExpression, [n .additiveExpression], .none⟩,
  ⟨.shiftExpression, [n .shiftExpression, t .shiftLeft, n .additiveExpression],
    .binary .shiftLeft⟩,
  ⟨.shiftExpression, [n .shiftExpression, t .shiftRight, n .additiveExpression],
    .binary .shiftRight⟩,
  ⟨.shiftExpression, [n .shiftExpression, t .shiftRightUnsigned, n .additiveExpression],
    .binary .shiftRightUnsigned⟩,
  ⟨.relationalExpression, [n .shiftExpression], .none⟩,
  ⟨.relationalExpression, [n .relationalExpression, t .lt, n .shiftExpression], .binary .lt⟩,
  ⟨.relationalExpression, [n .relationalExpression, t .gt, n .shiftExpression], .binary .gt⟩,
  ⟨.relationalExpression, [n .relationalExpression, t .le, n .shiftExpression], .binary .le⟩,
  ⟨.relationalExpression, [n .relationalExpression, t .ge, n .shiftExpression], .binary .ge⟩,
  ⟨.relationalExpression, [n .relationalExpression, t .kwInstanceOf, n .referenceType],
    .instanceOf⟩,
  ⟨.equalityExpression, [n .relationalExpression], .none⟩,
  ⟨.equalityExpression, [n .equalityExpression, t .eq, n .relationalExpression], .binary .eq⟩,
  ⟨.equalityExpression, [n .equalityExpression, t .ne, n .relationalExpression], .binary .ne⟩,
  ⟨.andExpression, [n .equalityExpression], .none⟩,
  ⟨.andExpression, [n .andExpression, t .ampersand, n .equalityExpression], .binary .and⟩,
  ⟨.exclusiveOrExpression, [n .andExpression], .none⟩,
  ⟨.exclusiveOrExpression, [n .exclusiveOrExpression, t .caret, n .andExpression], .binary .xor⟩,
  ⟨.inclusiveOrExpression, [n .exclusiveOrExpression], .none⟩,
  ⟨.inclusiveOrExpression, [n .inclusiveOrExpression, t .pipe, n .exclusiveOrExpression],
    .binary .or⟩,
  ⟨.conditionalAndExpression, [n .inclusiveOrExpression], .none⟩,
  ⟨.conditionalAndExpression, [n .conditionalAndExpression, t .andAnd, n .inclusiveOrExpression],
    .binary .andAnd⟩,
  ⟨.conditionalOrExpression, [n .conditionalAndExpression], .none⟩,
  ⟨.conditionalOrExpression, [n .conditionalOrExpression, t .orOr, n .conditionalAndExpression],
    .binary .orOr⟩,
  ⟨.conditionalExpression, [n .conditionalOrExpression], .none⟩,
  ⟨.conditionalExpression, [n .conditionalOrExpression, t .question, n .expression, t .colon,
    n .conditionalExpression],
    .conditional⟩,
  ⟨.assignmentExpression, [n .conditionalExpression], .none⟩,
  ⟨.assignmentExpression, [n .assignment], .none⟩,
  ⟨.assignment, [n .leftHandSide, n .assignmentOperator, n .assignmentExpression], .assignment⟩,
  ⟨.leftHandSide, [n .name], .nameExpr⟩,
  ⟨.leftHandSide, [n .fieldAccess], .none⟩,
  ⟨.assignmentOperator, [t .assign], .assignmentOperator none⟩,
  ⟨.assignmentOperator, [t .mulAssign], .assignmentOperator (some .mul)⟩,
  ⟨.assignmentOperator, [t .divAssign], .assignmentOperator (some .div)⟩,
  ⟨.assignmentOperator, [t .modAssign], .assignmentOperator (some .rem)⟩,
  ⟨.assignmentOperator, [t .addAssign], .assignmentOperator (some .add)⟩,
  ⟨.assignmentOperator, [t .subAssign], .assignmentOperator (some .sub)⟩,
  ⟨.assignmentOperator, [t .shiftLeftAssign], .assignmentOperator (some .shiftLeft)⟩,
  ⟨.assignmentOperator, [t .shiftRightAssign], .assignmentOperator (some .shiftRight)⟩,
  ⟨.assignmentOperator, [t .shiftRightUnsignedAssign],
    .assignmentOperator (some .shiftRightUnsigned)⟩,
  ⟨.assignmentOperator, [t .andAssign], .assignmentOperator (some .and)⟩,
  ⟨.assignmentOperator, [t .xorAssign], .assignmentOperator (some .xor)⟩,
  ⟨.assignmentOperator, [t .orAssign], .assignmentOperator (some .or)⟩,
  ⟨.expression, [n .assignmentExpression], .none⟩]

/-- Aspects. -/
def aspectRules : List Rule := [
  ⟨.aspectDeclaration, [n .aspectHeader, n .classBody], .none⟩,
  ⟨.aspectHeader, [n .aspectHeaderName, n .classHeaderExtendsOpt, n .classHeaderImplementsOpt,
    n .aspectHeaderRestOpt],
    .none⟩,
  ⟨.aspectHeaderName, [n .modifiersOpt, t .kwAspect, t .identifier],
    .aspect (.aspectHeaderName false false)⟩,
  ⟨.aspectHeaderName, [n .modifiersOpt, t .kwAspect, t .identifier, n .typeParameters],
    .aspect (.aspectHeaderName false true)⟩,
  ⟨.aspectHeaderName, [n .modifiersOpt, t .kwPrivileged, n .modifiersOpt, t .kwAspect,
    t .identifier],
    .aspect (.aspectHeaderName true false)⟩,
  ⟨.aspectHeaderName, [n .modifiersOpt, t .kwPrivileged, n .modifiersOpt, t .kwAspect,
    t .identifier, n .typeParameters],
    .aspect (.aspectHeaderName true true)⟩,
  ⟨.aspectHeaderRestOpt, [], .none⟩,
  ⟨.aspectHeaderRestOpt, [n .aspectHeaderRest], .none⟩,
  ⟨.aspectHeaderRest, [n .aspectHeaderRestStart], .aspect .headerRest⟩,
  ⟨.aspectHeaderRest, [n .aspectHeaderRestStart, n .pseudoTokens], .aspect .headerRest⟩,
  ⟨.aspectHeaderRestStart, [t .identifier], .aspect .identifierToken⟩]

/-- Pointcut declarations. -/
def pointcutRules : List Rule := [
  ⟨.pointcutDeclaration, [n .pointcutHeader, n .formalParameterListOpt, t .rParen, t .semicolon],
    .aspect (.pointcutDecl false)⟩,
  ⟨.pointcutDeclaration, [n .pointcutHeader, n .formalParameterListOpt, t .rParen, t .colon,
    n .pseudoTokens, t .semicolon],
    .aspect (.pointcutDecl true)⟩,
  ⟨.pointcutHeader, [n .modifiersOpt, t .kwPointcut, t .identifier, t .lParen],
    .aspect .pointcutHeader⟩]

/-- Advice. -/
def adviceRules : List Rule := [
  ⟨.adviceDeclaration, [n .aroundHeader, n .methodBody], .methodDecl⟩,
  ⟨.adviceDeclaration, [n .basicAdviceHeader, n .methodBody], .methodDecl⟩,
  ⟨.aroundHeader, [n .aroundHeaderName, n .formalParameterListOpt, t .rParen,
    n .methodHeaderThrowsClauseOpt, t .colon, n .pseudoTokens],
    .aspect (.adviceHeader false)⟩,
  ⟨.aroundHeaderName, [n .modifiersOpt, n .type, t .kwAround, t .lParen],
    .aspect (.aroundHeaderName true)⟩,
  ⟨.aroundHeaderName, [n .modifiersOpt, t .kwAround, t .lParen],
    .aspect (.aroundHeaderName false)⟩,
  ⟨.basicAdviceHeader, [n .basicAdviceHeaderName, n .formalParameterListOpt, t .rParen,
    n .extraParamOpt, n .methodHeaderThrowsClauseOpt, t .colon, n .pseudoTokens],
    .aspect (.adviceHeader true)⟩,
  ⟨.basicAdviceHeaderName, [n .modifiersOpt, t .kwBefore, t .lParen],
    .aspect (.adviceHeaderName false)⟩,
  ⟨.basicAdviceHeaderName, [n .modifiersOpt, t .kwAfter, t .lParen],
    .aspect (.adviceHeaderName true)⟩,
  ⟨.extraParamOpt, [], .emptyNodes⟩,
  ⟨.extraParamOpt, [t .identifier], .aspect (.extraParameter false)⟩,
  ⟨.extraParamOpt, [t .identifier, t .lParen, t .rParen], .aspect (.extraParameter false)⟩,
  ⟨.extraParamOpt, [t .identifier, t .lParen, n .formalParameter, t .rParen],
    .aspect (.extraParameter true)⟩]

/-- Declare statements. -/
def declareRules : List Rule := [
  ⟨.declareDeclaration, [n .declareHeader, n .pseudoTokens, t .semicolon], .aspect .declareDecl⟩,
  ⟨.declareHeader, [t .kwDeclare, t .identifier, t .colon], .aspect .declareHeader⟩,
  ⟨.declareAnnotationDeclaration, [n .declareAnnotationHeader, n .pseudoTokensNoColon,
    t .colon, n .annotationUse, t .semicolon],
    .aspect (.annotationDeclare ' ')⟩,
  ⟨.declareAnnotationDeclaration, [n .declareAnnotationHeader, n .pseudoTokensNoColon,
    t .colon, t .plus, n .annotationUse, t .semicolon],
    .aspect (.annotationDeclare '+')⟩,
  ⟨.declareAnnotationDeclaration, [n .declareAnnotationHeader, n .pseudoTokensNoColon,
    t .colon, t .minus, n .annotationUse, t .semicolon],
    .aspect (.annotationDeclare '-')⟩,
  ⟨.declareAnnotationHeader, [t .kwDeclare, t .atSign, t .identifier, t .colon],
    .aspect .declareAnnotationHeader⟩]

/-- Inter-type members. -/
def interTypeRules : List Rule := [
  ⟨.interTypeFieldDeclaration, [n .interTypeFieldHeader, n .interTypeFieldBody, t .semicolon],
    .aspect .interTypeFieldDecl⟩,
  ⟨.interTypeFieldHeader, [n .modifiersOpt, n .type, n .onType, t .dot, t .identifier],
    .aspect (.interTypeFieldHeader .plain)⟩,
  ⟨.interTypeFieldHeader, [n .modifiersOpt, n .type, n .onType, t .dot, t .star, t .dot,
    t .identifier],
    .aspect (.interTypeFieldHeader .starSegment)⟩,
  ⟨.interTypeFieldHeader, [n .modifiersOpt, n .type, n .onType, t .dot, t .star],
    .aspect (.interTypeFieldHeader .starOnly)⟩,
  ⟨.interTypeFieldHeader, [n .modifiersOpt, n .type, n .onType, t .plus, t .dot, t .identifier],
    .aspect (.interTypeFieldHeader .plus)⟩,
  ⟨.interTypeFieldBody, [], .aspect (.interTypeFieldBody false)⟩,
  ⟨.interTypeFieldBody, [t .assign, n .variableInitializer], .aspect (.interTypeFieldBody true)⟩,
  ⟨.interTypeMethodDeclaration, [n .interTypeMethodHeader, n .methodBody], .methodDecl⟩,
  ⟨.interTypeMethodHeader, [n .interTypeMethodHeaderName, n .formalParameterListOpt, t .rParen,
    n .methodHeaderThrowsClauseOpt],
    .methodHeader⟩,
  ⟨.interTypeMethodHeaderName, [n .modifiersOpt, n .type, n .onType, t .dot, t .identifier,
    t .lParen],
    .aspect (.interTypeMethodHeaderName .plain)⟩,
  ⟨.interTypeMethodHeaderName, [n .modifiersOpt, n .type, n .onType, t .dot, t .star, t .dot,
    t .identifier, t .lParen],
    .aspect (.interTypeMethodHeaderName .starSegment)⟩,
  ⟨.interTypeMethodHeaderName, [n .modifiersOpt, n .type, n .onType, t .plus, t .dot,
    t .identifier, t .lParen],
    .aspect (.interTypeMethodHeaderName .plus)⟩,
  ⟨.interTypeConstructorDeclaration, [n .interTypeConstructorHeader, n .methodBody], .methodDecl⟩,
  ⟨.interTypeConstructorHeader, [n .interTypeConstructorHeaderName, n .formalParameterListOpt,
    t .rParen, n .methodHeaderThrowsClauseOpt],
    .methodHeader⟩,
  ⟨.interTypeConstructorHeaderName, [n .modifiersOpt, n .name, t .dot, t .kwNew, t .lParen],
    .aspect (.interTypeConstructorHeaderName false)⟩,
  ⟨.interTypeConstructorHeaderName, [n .modifiersOpt, n .name, t .plus, t .dot, t .kwNew,
    t .lParen],
    .aspect (.interTypeConstructorHeaderName true)⟩,
  ⟨.interTypeClassDeclaration, [n .interTypeClassHeader, n .classBody], .none⟩,
  ⟨.interTypeClassHeader, [n .interTypeClassHeaderName, n .classHeaderExtendsOpt,
    n .classHeaderImplementsOpt],
    .none⟩,
  ⟨.interTypeClassHeaderName, [n .modifiersOpt, t .kwClass, n .onType, t .dot, t .identifier],
    .aspect .interTypeClassHeaderName⟩,
  ⟨.onType, [t .identifier], .none⟩,
  ⟨.onType, [n .onType, t .dot, t .identifier], .concatIdentifiers⟩]

/-- Pseudo tokens of pointcuts, per-clauses and declare statements. -/
def pseudoTokenRules : List Rule := [
  ⟨.pseudoTokens, [n .pseudoToken], .none⟩,
  ⟨.pseudoTokens, [n .pseudoTokens, n .pseudoToken], .concatNodes⟩,
  ⟨.pseudoTokensNoColon, [n .pseudoTokenNoColon], .none⟩,
  ⟨.pseudoTokensNoColon, [n .pseudoTokensNoColon, n .pseudoTokenNoColon], .concatNodes⟩,
  ⟨.pseudoToken, [n .pseudoTokenNoColon], .none⟩,
  ⟨.pseudoToken, [t .colon], .aspect (.symbolToken .colon)⟩,
  ⟨.pseudoTokenNoColon, [n .plainIdentifier], .aspect .identifierToken⟩,
  ⟨.pseudoTokenNoColon, [t .lParen], .aspect (.symbolToken .lParen)⟩,
  ⟨.pseudoTokenNoColon, [t .rParen], .aspect (.symbolToken .rParen)⟩,
  ⟨.pseudoTokenNoColon, [t .dot], .aspect (.symbolToken .dot)⟩,
  ⟨.pseudoTokenNoColon, [t .star], .aspect (.symbolToken .star)⟩,
  ⟨.pseudoTokenNoColon, [t .plus], .aspect (.symbolToken .plus)⟩,
  ⟨.pseudoTokenNoColon, [t .assign], .aspect (.symbolToken .assign)⟩,
  ⟨.pseudoTokenNoColon, [t .andAnd], .aspect (.symbolToken .andAnd)⟩,
  ⟨.pseudoTokenNoColon, [t .orOr], .aspect (.symbolToken .orOr)⟩,
  ⟨.pseudoTokenNoColon, [t .bang], .aspect (.symbolToken .bang)⟩,
  ⟨.pseudoTokenNoColon, [t .comma], .aspect (.symbolToken .comma)⟩,
  ⟨.pseudoTokenNoColon, [t .lBracket], .aspect (.symbolToken .lBracket)⟩,
  ⟨.pseudoTokenNoColon, [t .rBracket], .aspect (.symbolToken .rBracket)⟩,
  ⟨.pseudoTokenNoColon, [t .atSign], .aspect (.symbolToken .atSign)⟩,
  ⟨.pseudoTokenNoColon, [t .ellipsis], .aspect (.symbolToken .ellipsis)⟩,
  ⟨.pseudoTokenNoColon, [t .question], .aspect (.symbolToken .question)⟩,
  ⟨.pseudoTokenNoColon, [t .lt], .aspect (.symbolToken .lt)⟩,
  ⟨.pseudoTokenNoColon, [t .gt], .aspect (.symbolToken .gt)⟩,
  ⟨.pseudoTokenNoColon, [t .shiftRight], .aspect (.symbolToken .shiftRight)⟩,
  ⟨.pseudoTokenNoColon, [t .shiftRightUnsigned], .aspect (.symbolToken .shiftRightUnsigned)⟩,
  ⟨.pseudoTokenNoColon, [t .ampersand], .aspect (.symbolToken .ampersand)⟩,
  ⟨.pseudoTokenNoColon, [t .ne], .aspect (.symbolToken .ne)⟩,
  ⟨.pseudoTokenNoColon, [n .primitiveType], .aspect .primitiveTypeToken⟩,
  ⟨.pseudoTokenNoColon, [n .modifierKeyword], .aspect .modifierToken⟩,
  ⟨.pseudoTokenNoColon, [n .literal], .aspect .literalToken⟩,
  ⟨.pseudoTokenNoColon, [t .kwThis], .aspect (.symbolToken .kwThis)⟩,
  ⟨.pseudoTokenNoColon, [t .kwSuper], .aspect (.symbolToken .kwSuper)⟩,
  ⟨.pseudoTokenNoColon, [t .kwClass], .aspect (.symbolToken .kwClass)⟩,
  ⟨.pseudoTokenNoColon, [t .kwInterface], .aspect (.symbolToken .kwInterface)⟩,
  ⟨.pseudoTokenNoColon, [t .kwNew], .aspect (.symbolToken .kwNew)⟩,
  ⟨.pseudoTokenNoColon, [t .kwExtends], .aspect (.symbolToken .kwExtends)⟩,
  ⟨.pseudoTokenNoColon, [t .kwImplements], .aspect (.symbolToken .kwImplements)⟩,
  ⟨.pseudoTokenNoColon, [t .kwThrows], .aspect (.symbolToken .kwThrows)⟩,
  ⟨.pseudoTokenNoColon, [t .kwInstanceOf], .aspect (.symbolToken .kwInstanceOf)⟩,
  ⟨.pseudoTokenNoColon, [t .kwImport], .aspect (.symbolToken .kwImport)⟩,
  ⟨.pseudoTokenNoColon, [t .kwPackage], .aspect (.symbolToken .kwPackage)⟩,
  ⟨.pseudoTokenNoColon, [t .kwAssert], .aspect (.symbolToken .kwAssert)⟩,
  ⟨.pseudoTokenNoColon, [t .kwThrow], .aspect (.symbolToken .kwThrow)⟩,
  ⟨.pseudoTokenNoColon, [t .kwDo], .aspect (.symbolToken .kwDo)⟩,
  ⟨.pseudoTokenNoColon, [t .kwFor], .aspect (.symbolToken .kwFor)⟩,
  ⟨.pseudoTokenNoColon, [t .kwSwitch], .aspect (.symbolToken .kwSwitch)⟩,
  ⟨.pseudoTokenNoColon, [t .kwTry], .aspect (.symbolToken .kwTry)⟩,
  ⟨.pseudoTokenNoColon, [t .kwWhile], .aspect (.symbolToken .kwWhile)⟩,
  ⟨.pseudoTokenNoColon, [t .kwBreak], .aspect (.symbolToken .kwBreak)⟩,
  ⟨.pseudoTokenNoColon, [t .kwContinue], .aspect (.symbolToken .kwContinue)⟩,
  ⟨.pseudoTokenNoColon, [t .kwReturn], .aspect (.symbolToken .kwReturn)⟩,
  ⟨.pseudoTokenNoColon, [t .kwCase], .aspect (.symbolToken .kwCase)⟩,
  ⟨.pseudoTokenNoColon, [t .kwCatch], .aspect (.symbolToken .kwCatch)⟩,
  ⟨.pseudoTokenNoColon, [t .kwElse], .aspect (.symbolToken .kwElse)⟩,
  ⟨.pseudoTokenNoColon, [t .kwFinally], .aspect (.symbolToken .kwFinally)⟩,
  ⟨.pseudoTokenNoColon, [t .kwIf, t .lParen, n .expression, t .rParen], .aspect .guardToken⟩,
  ⟨.plainIdentifier, [t .identifier], .none⟩,
  ⟨.plainIdentifier, [t .kwAspect], .none⟩,
  ⟨.plainIdentifier, [t .kwPrivileged], .none⟩,
  ⟨.plainIdentifier, [t .kwPointcut], .none⟩,
  ⟨.plainIdentifier, [t .kwBefore], .none⟩,
  ⟨.plainIdentifier, [t .kwAfter], .none⟩,
  ⟨.plainIdentifier, [t .kwAround], .none⟩,
  ⟨.plainIdentifier, [t .kwDeclare], .none⟩]

/-- Every rule, the start rule first. -/
def rules : List Rule :=
  unitRules ++ typeRules ++ modifierRules ++ declarationRules ++ statementRules ++
    expressionRules ++ aspectRules ++ pointcutRules ++ adviceRules ++ declareRules ++
    interTypeRules ++ pseudoTokenRules

/-- The rules by number. -/
def ruleArray : Array Rule := rules.toArray

/-- The grammar of the language. -/
def grammar : Grammar where
  nonterminals := (Nonterminal.all.map Nonterminal.label).toArray
  productions := (rules.map Rule.production).toArray

end Language

end AspectLang
