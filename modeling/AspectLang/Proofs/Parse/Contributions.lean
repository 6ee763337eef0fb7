import AspectLang.Proofs.Parse.Effects

/-! # What the symbols of the language leave on the value stacks

`Nonterminal.profile` lists what each nonterminal leaves on the value stacks, and
`Nonterminal.context` the declaration that has to stand below it where its rules change that
declaration.  Every rule is balanced: its action takes what the right side leaves, and gives what
the left side leaves (`rules_balanced`).  Every rule that mentions a nonterminal with a context
provides it (`rules_provide`). -/

namespace AspectLang

open Profile

namespace Nonterminal

/-- What a nonterminal leaves on the value stacks. -/
def profile : Nonterminal → Profile
  | goal | compilationUnit => { unit := true }
  | packageDeclarationOpt => node .package .optional
  | packageDeclaration => node .package
  | importDeclarationsOpt | importDeclarations => node .importDecl .many
  | importDeclaration => node .importDecl
  | typeDeclarationsOpt | typeDeclarations => node .type .many
  | typeDeclaration => node .type .optional
  | name | onType => word .some
  | plainIdentifier => word
  | type | primitiveType | referenceType | classOrInterfaceType | classOrInterface | genericType
  | arrayType | classType | additionalBound => Profile.type
  | classTypeList | additionalBoundList | methodHeaderThrowsClauseOpt => Profile.type .type .many
  | dims | dimsOpt | assignmentOperator => int
  | typeArguments | typeArgumentList => Profile.type .argument .many
  | typeArgument => Profile.type .argument
  | typeParameters | typeParameterList => Profile.type .parameter .many
  | typeParameter => Profile.type .parameter
  | modifiersOpt | modifiers | modifier | modifierKeyword => Profile.modifiers
  | annotationUse => expr .annotationUse
  | classDeclaration | classHeader | classHeaderName | interfaceDeclaration | interfaceHeader
  | interfaceHeaderName | aspectDeclaration | aspectHeader | aspectHeaderName
  | interTypeClassDeclaration | interTypeClassHeader | interTypeClassHeaderName => node .type
  | classHeaderExtendsOpt | classHeaderImplementsOpt | interfaceHeaderExtendsOpt | classBody
  | aspectHeaderRestOpt | aspectHeaderRest | interTypeFieldBody => {}
  | classBodyDeclarationsOpt | classBodyDeclarations | classBodyDeclaration
  | classMemberDeclaration | fieldDeclaration => node .member .many
  | initializer => node .member
  | variableDeclarators => node .declarator .many
  | variableDeclarator | variableDeclaratorId => node .declarator
  | methodDeclaration | methodHeader | methodHeaderName | constructorDeclaration
  | constructorHeader | constructorHeaderName | pointcutDeclaration | pointcutHeader
  | adviceDeclaration | aroundHeader | aroundHeaderName | basicAdviceHeader
  | basicAdviceHeaderName | declareDeclaration | declareAnnotationDeclaration
  | interTypeFieldDeclaration | interTypeFieldHeader | interTypeMethodDeclaration
  | interTypeMethodHeader | interTypeMethodHeaderName | interTypeConstructorDeclaration
  | interTypeConstructorHeader | interTypeConstructorHeaderName => node .method
  | methodBody | statement | explicitConstructorInvocation => node .statement
  | formalParameterListOpt | formalParameterList => node .parameter .many
  | formalParameter => node .parameter
  | block | finallyClause => node .block
  | blockStatementsOpt | blockStatements | blockStatement | localVariableDeclarationStatement
  | localVariableDeclaration | forInitOpt => node .statement .many
  | catchesOpt | catches => node .catchClause .many
  | catchClause => node .catchClause
  | forUpdateOpt | statementExpressionList | argumentListOpt | argumentList => expr .expr .many
  | expressionOpt => expr .expr .optional
  | literal => expr .literal
  | variableInitializer | statementExpression | primary | classInstanceCreationExpression
  | fieldAccess | methodInvocation | postfixExpression | postIncrementExpression
  | postDecrementExpression | unaryExpression | preIncrementExpression | preDecrementExpression
  | unaryExpressionNotPlusMinus | multiplicativeExpression | additiveExpression
  | shiftExpression | relationalExpression | equalityExpression | andExpression
  | exclusiveOrExpression | inclusiveOrExpression | conditionalAndExpression
  | conditionalOrExpression | conditionalExpression | assignmentExpression | assignment
  | leftHandSide | expression => expr
  | aspectHeaderRestStart | pseudoToken | pseudoTokenNoColon => node .fragment
  | pseudoTokens | pseudoTokensNoColon | declareHeader | declareAnnotationHeader =>
    node .fragment .many
  | extraParamOpt => node .extraParameter .optional

/-- The declaration on top of the stack of nodes that rules for a nonterminal change. -/
def context : Nonterminal → List (Shape NodeRole)
  | classHeaderExtendsOpt | classHeaderImplementsOpt | interfaceHeaderExtendsOpt | classBody
  | aspectHeaderRestOpt | aspectHeaderRest => [⟨.type, .one⟩]
  | interTypeFieldBody => [⟨.method, .one⟩]
  | _ => []

theorem all_getElem? (x : Nonterminal) : all[x.index]? = some x := by
  cases x <;> rfl

theorem index_injective {x y : Nonterminal} (h : x.index = y.index) : x = y := by
  have hx := x.all_getElem?
  rw [h, y.all_getElem?] at hx
  exact (Option.some.inj hx).symm

end Nonterminal

/-- What a token of a given kind leaves on the value stacks. -/
def TokenKind.profile (k : TokenKind) : Profile :=
  if k.isWord then word else if k.literalKind?.isSome then expr .literal else {}

/-- What a symbol leaves on the value stacks. -/
def RuleSymbol.profile : RuleSymbol → Profile
  | .t kind => kind.profile
  | .n nonterminal => nonterminal.profile

namespace Rule

/-- What stands below a right side that is to be reduced. -/
def base (r : Rule) : Profile := { nodes := r.lhs.context }

/-- What stands there after the reduction. -/
def output (r : Rule) : Profile := r.lhs.profile.atop r.base

/-- What an action takes and gives by a rule. -/
def effect (r : Rule) : List Profile × Profile := r.action.effect r.rhs.length r.output

/-- Whether the action of a rule takes what the right side leaves, and gives what the left side
leaves. -/
def isBalanced (r : Rule) : Bool :=
  (r.base.followed (r.rhs.map RuleSymbol.profile)).within (Profile.followed {} r.effect.1) &&
    r.effect.2.within r.output

/-- The context of a symbol. -/
def contextOf : RuleSymbol → List (Shape NodeRole)
  | .t _ => []
  | .n x => x.context

/-- Whether the context of every symbol on the right is left by the symbols before it. -/
def providesContexts (r : Rule) : Bool :=
  (List.range r.rhs.length).all fun dot =>
    (r.rhs[dot]?.elim [] contextOf).isPrefixOf
      (r.base.followed ((r.rhs.take dot).map RuleSymbol.profile)).nodes

end Rule

namespace Language

theorem rules_balanced : ∀ r ∈ rules, r.isBalanced = true := by
  decide +kernel

theorem rules_provide : ∀ r ∈ rules, r.providesContexts = true := by
  decide +kernel

end Language

end AspectLang
