import AspectLang.Proofs.Parse.AspectActions

/-! # The effects of all actions

`SemanticAction.effect` lists, for each action, the profiles of the values that it takes and the
profile of what it gives; `Work.turns_act` is the fact that actions have these effects.  Actions
that only move segments depend on `out`, what the rule is to leave. -/

namespace AspectLang

open Profile

/-- The role of the topmost nodes. -/
def Profile.nodeRole (p : Profile) : NodeRole := (p.nodes.head?.map Shape.role).getD .member

/-- The role of the topmost expressions. -/
def Profile.exprRole (p : Profile) : ExprRole := (p.exprs.head?.map Shape.role).getD .expr

/-- The role of the topmost types. -/
def Profile.typeRole (p : Profile) : TypeRole := (p.types.head?.map Shape.role).getD .type

/-- What an action of an aspect construct takes from a right side of `arity` symbols, and what it
gives. -/
def AspectAction.effect (arity : Nat) : AspectAction → List Profile × Profile
  | .aspectHeaderName privileged typeParameters =>
    ([Work.privilege privileged, modifiers, word, word,
      provided typeParameters (type .parameter .many)], node .type)
  | .headerRest =>
    ([node .type, node .fragment, provided (arity = 2) (node .fragment .many)], node .type)
  | .pointcutHeader => ([modifiers, word, word], node .method)
  | .pointcutDecl designator =>
    ([node .method, node .parameter .many, provided designator (node .fragment .many)],
      node .method)
  | .aroundHeaderName returnType => ([modifiers, provided returnType type, word], node .method)
  | .adviceHeaderName _ => ([modifiers, word], node .method)
  | .adviceHeader extra =>
    ([node .method, node .parameter .many, provided extra (node .extraParameter .optional),
      type .type .many, node .fragment .many], node .method)
  | .extraParameter formal => ([word, provided formal (node .parameter)], node .extraParameter)
  | .declareHeader | .declareAnnotationHeader => ([word, word], node .fragment .many)
  | .declareDecl => ([node .fragment .many, node .fragment .many], node .method)
  | .annotationDeclare _ =>
    ([node .fragment .many, node .fragment .many, expr .annotationUse], node .method)
  | .interTypeFieldHeader pattern =>
    ([modifiers, type, word .some, provided (pattern ≠ .starOnly) word], node .method)
  | .interTypeFieldBody initializer => ([node .method, provided initializer expr], node .method)
  | .interTypeFieldDecl => ([node .method], node .method)
  | .interTypeMethodHeaderName _ => ([modifiers, type, word .some, word], node .method)
  | .interTypeConstructorHeaderName _ => ([modifiers, word .some], node .method)
  | .interTypeClassHeaderName => ([modifiers, word .some, word], node .type)
  | .symbolToken _ => ([], node .fragment)
  | .identifierToken => ([word], node .fragment)
  | .literalToken => ([expr .literal], node .fragment)
  | .modifierToken => ([modifiers], node .fragment)
  | .primitiveTypeToken => ([type], node .fragment)
  | .guardToken => ([expr], node .fragment)

/-- What an action takes from a right side of `arity` symbols, and what it gives, where the rule
is to leave `out`. -/
def SemanticAction.effect (arity : Nat) (out : Profile) : SemanticAction → List Profile × Profile
  | .none => ([out], out)
  | .emptyNodes => ([], node .member .none)
  | .emptyExprs => ([], expr .expr .none)
  | .emptyTypes => ([], type .type .none)
  | .concatNodes => ([node out.nodeRole .many, node out.nodeRole .many], node out.nodeRole .many)
  | .concatExprs => ([expr out.exprRole .many, expr out.exprRole .many], expr out.exprRole .many)
  | .concatTypes => ([type out.typeRole .many, type out.typeRole .many], type out.typeRole .many)
  | .concatIdentifiers => ([word .some, word], word .some)
  | .compilationUnit =>
    ([node .package .optional, node .importDecl .many, node .type .many], { unit := true })
  | .packageDecl => ([word .some], node .package)
  | .importDecl _ _ => ([word .some], node .importDecl)
  | .primitiveType _ => ([], type)
  | .namedType => ([word .some], type)
  | .qualifiedGenericType => ([type, word .some], type)
  | .genericType => ([type, type .argument .many], type)
  | .arrayType => ([type, int], type)
  | .dimsOne | .dimsZero => ([], int)
  | .dimsMore => ([int], int)
  | .wildcard kind => ([provided (kind ≠ .unbound) type], type .argument)
  | .typeParameter bounded additional =>
    ([word, provided bounded type, provided additional (type .type .many)], type .parameter)
  | .emptyModifiers | .modifierKeyword _ =>
    ([], { exprs := [⟨.expr, .none⟩], ints := [(), ()] })
  | .annotationModifier =>
    ([expr .annotationUse], { exprs := [⟨.annotationUse, .one⟩], ints := [(), ()] })
  | .concatModifiers => ([modifiers, modifiers], modifiers)
  | .annotationMarker => ([word .some], expr .annotationUse)
  | .annotationSingleMember => ([word .some, expr], expr .annotationUse)
  | .typeHeaderName _ typeParameters =>
    ([modifiers, word, provided typeParameters (type .parameter .many)], node .type)
  | .superclass => ([node .type, type], node .type)
  | .interfaces => ([node .type, type .type .many], node .type)
  | .classBody => ([node .type, node .member .many], node .type)
  | .fieldDecl => ([modifiers, type, node .declarator .many], node .member .many)
  | .declaratorId => ([word, int], node .declarator)
  | .declaratorInitializer => ([node .declarator, expr], node .declarator)
  | .methodHeaderName typeParameters =>
    ([modifiers, provided typeParameters (type .parameter .many), type, word], node .method)
  | .constructorHeaderName => ([modifiers, word], node .method)
  | .methodHeader => ([node .method, node .parameter .many, type .type .many], node .method)
  | .methodDecl => ([node .method, node .statement], node .method)
  | .emptyMethodBody | .emptyStatement => ([], node .statement)
  | .formalParameter hasModifiers _ =>
    ([provided hasModifiers modifiers, type, node .declarator], node .parameter)
  | .initializerBlock => ([modifiers, node .block], node .member)
  | .block => ([node .statement .many], node .block)
  | .localVariables hasModifiers =>
    ([provided hasModifiers modifiers, type, node .declarator .many], node .statement .many)
  | .localVariablesStatement => ([node .statement .many], node .statement .many)
  | .expressionStatement | .throwStatement => ([expr], node .statement)
  | .labeledStatement => ([word, node .statement], node .statement)
  | .ifStatement hasElse =>
    ([expr, node .statement, provided hasElse (node .statement)], node .statement)
  | .whileStatement => ([expr, node .statement], node .statement)
  | .doStatement => ([node .statement, expr], node .statement)
  | .forStatement =>
    ([node .statement .many, expr .expr .optional, expr .expr .many, node .statement],
      node .statement)
  | .forInitExpressions => ([expr .expr .many], node .statement .many)
  | .forEachStatement hasModifiers =>
    ([provided hasModifiers modifiers, type, word, expr, node .statement], node .statement)
  | .returnStatement => ([expr .expr .optional], node .statement)
  | .breakStatement label | .continueStatement label => ([provided label word], node .statement)
  | .tryStatement final =>
    ([node .block, node .catchClause .many, provided final (node .block)], node .statement)
  | .catchClause => ([node .parameter, node .block], node .catchClause)
  | .assertStatement message => ([expr, provided message expr], node .statement)
  | .constructorCall _ => ([expr .expr .many], node .statement)
  | .thisExpr => ([], expr)
  | .parenthesized | .unary _ => ([expr], expr)
  | .allocation => ([type, expr .expr .many], expr)
  | .fieldAccess isSuper => ([provided (!isSuper) expr, word], expr)
  | .callByName => ([word .some, expr .expr .many], expr)
  | .callOnPrimary => ([expr, word, expr .expr .many], expr)
  | .callOnSuper => ([word, expr .expr .many], expr)
  | .nameExpr => ([word .some], expr)
  | .binary _ => ([expr, expr], expr)
  | .instanceOf => ([expr, type], expr)
  | .conditional => ([expr, expr, expr], expr)
  | .assignmentOperator _ => ([], int)
  | .assignment => ([expr, int, expr], expr)
  | .aspect action => action.effect arity

namespace Work

variable {plain : Prop}

theorem turns_aspectAction (dialect : Dialect) (c : Handle) (action : AspectAction) :
    Turns plain (aspectAction dialect c action) (action.effect c.arity).1
      (action.effect c.arity).2 := by
  intro w frame h
  refine .bind (ensures_factoryFor h) fun f w' h => ?_
  cases action with
  | aspectHeaderName privileged typeParameters => exact turns_aspectHeaderName w' frame h
  | headerRest => exact turns_headerRest w' frame h
  | pointcutHeader => exact turns_pointcutHeader w' frame h
  | pointcutDecl designator => exact turns_pointcutDecl w' frame h
  | aroundHeaderName returnType => exact turns_aroundHeaderName w' frame h
  | adviceHeaderName after => exact turns_adviceHeaderName w' frame h
  | adviceHeader extra => exact turns_adviceHeader w' frame h
  | extraParameter formal => exact turns_extraParameter w' frame h
  | declareHeader => exact turns_declareHeader w' frame h
  | declareDecl => exact turns_declareDecl w' frame h
  | declareAnnotationHeader => exact turns_declareAnnotationHeader w' frame h
  | annotationDeclare sign => exact turns_annotationDeclare w' frame h
  | interTypeFieldHeader pattern => exact turns_interTypeFieldHeader w' frame h
  | interTypeFieldBody initializer => exact turns_interTypeFieldBody w' frame h
  | interTypeFieldDecl => exact turns_interTypeFieldDecl w' frame h
  | interTypeMethodHeaderName pattern => exact turns_interTypeMethodHeaderName w' frame h
  | interTypeConstructorHeaderName plus => exact turns_interTypeConstructorHeaderName w' frame h
  | interTypeClassHeaderName => exact turns_interTypeClassHeaderName w' frame h
  | symbolToken kind => exact ensures_pushNode h fun _ => Factory.plain_pseudoToken _ _ _
  | identifierToken =>
      refine .bind (ensures_popIdentifier h) fun _ _ h => ?_
      exact ensures_pushNode h fun _ => Factory.plain_pseudoToken _ _ _
  | literalToken => exact turns_literalToken w' frame h
  | modifierToken =>
      refine .bind (ensures_popModifiers h) fun _ _ h => ?_
      exact ensures_pushNode h fun _ => Factory.plain_pseudoToken _ _ _
  | primitiveTypeToken =>
      refine .bind (ensures_popType h) fun _ _ h => ?_
      exact ensures_pushNode h fun _ => Factory.plain_pseudoToken _ _ _
  | guardToken =>
      refine .bind (ensures_popExpr h) fun _ _ h => ?_
      exact ensures_pushNode h fun _ => Factory.plain_guardToken _ _

/-- **Every action has its effect**, in every dialect. -/
theorem turns_act (dialect : Dialect) (c : Handle) (out : Profile) (action : SemanticAction) :
    Turns plain (act dialect c action) (action.effect c.arity out).1
      (action.effect c.arity out).2 := by
  intro w frame h
  cases action with
  | none => exact .pure h
  | emptyNodes => exact ensures_pushNoNodes h
  | emptyExprs => exact ensures_pushNoExprs h
  | emptyTypes => exact ensures_pushNoTypes h
  | concatNodes => exact turns_concatNodes w frame h
  | concatExprs => exact turns_concatExprs w frame h
  | concatTypes => exact turns_concatTypes w frame h
  | concatIdentifiers => exact turns_concatIdentifiers w frame h
  | compilationUnit => exact turns_compilationUnit w frame h
  | packageDecl => exact turns_packageDecl w frame h
  | importDecl isStatic onDemand => exact turns_importDecl w frame h
  | primitiveType name => exact ensures_pushType h
  | namedType => exact turns_namedType w frame h
  | qualifiedGenericType => exact turns_qualifiedGenericType w frame h
  | genericType => exact turns_genericType w frame h
  | arrayType => exact turns_arrayType w frame h
  | dimsOne | dimsZero => exact ensures_pushInt h
  | dimsMore => exact turns_dimsMore w frame h
  | wildcard kind => exact turns_wildcard w frame h
  | typeParameter bounded additional => exact turns_typeParameter w frame h
  | emptyModifiers | modifierKeyword flag => exact turns_noAnnotations w frame h
  | annotationModifier => exact turns_annotationModifier w frame h
  | concatModifiers => exact turns_concatModifiers w frame h
  | annotationMarker => exact turns_annotationMarker w frame h
  | annotationSingleMember => exact turns_annotationSingleMember w frame h
  | typeHeaderName kind typeParameters => exact turns_typeHeaderName w frame h
  | superclass => exact turns_superclass w frame h
  | interfaces => exact turns_interfaces w frame h
  | classBody => exact turns_classBody w frame h
  | fieldDecl => exact turns_fieldDecl w frame h
  | declaratorId => exact turns_declaratorId w frame h
  | declaratorInitializer => exact turns_declaratorInitializer w frame h
  | methodHeaderName typeParameters => exact turns_methodHeaderName w frame h
  | constructorHeaderName => exact turns_constructorHeaderName w frame h
  | methodHeader => exact turns_methodHeader w frame h
  | methodDecl => exact turns_methodDecl w frame h
  | emptyMethodBody | emptyStatement => exact ensures_pushStatement h
  | formalParameter hasModifiers varargs => exact turns_formalParameter w frame h
  | initializerBlock => exact turns_initializerBlock w frame h
  | block => exact turns_blockStatement w frame h
  | localVariables hasModifiers => exact turns_localVariables w frame h
  | localVariablesStatement => exact turns_localVariablesStatement w frame h
  | expressionStatement => exact turns_expressionStatement w frame h
  | labeledStatement => exact turns_labeledStatement w frame h
  | ifStatement hasElse => exact turns_ifStatement w frame h
  | whileStatement => exact turns_whileStatement w frame h
  | doStatement => exact turns_doStatement w frame h
  | forStatement => exact turns_forStatement w frame h
  | forInitExpressions => exact turns_forInitExpressions w frame h
  | forEachStatement hasModifiers => exact turns_forEachStatement w frame h
  | returnStatement => exact .bind (ensures_popOptionalExpr h) fun _ _ h => ensures_pushStatement h
  | throwStatement => exact .bind (ensures_popExpr h) fun _ _ h => ensures_pushStatement h
  | breakStatement label | continueStatement label =>
      exact .bind (ensures_popLabel h) fun _ _ h => ensures_pushStatement h
  | tryStatement final => exact turns_tryStatement w frame h
  | catchClause => exact turns_catchClause w frame h
  | assertStatement message => exact turns_assertStatement w frame h
  | constructorCall isSuper =>
      exact .bind (ensures_popExprs h) fun _ _ h => ensures_pushStatement h
  | thisExpr => exact ensures_pushExpr h trivial
  | parenthesized => exact turns_parenthesized w frame h
  | allocation => exact turns_allocation w frame h
  | fieldAccess isSuper => exact turns_fieldAccess w frame h
  | callByName => exact turns_callByName w frame h
  | callOnPrimary => exact turns_callOn w frame h
  | callOnSuper => exact turns_callOn w frame h
  | nameExpr => exact turns_nameExpr w frame h
  | unary operator => exact turns_unary w frame h
  | binary operator => exact turns_binary w frame h
  | instanceOf => exact turns_instanceOf w frame h
  | conditional => exact turns_conditional w frame h
  | assignmentOperator operator => exact ensures_pushInt h
  | assignment => exact turns_assignment w frame h
  | aspect action => exact turns_aspectAction dialect c action w frame h

end Work

end AspectLang
