import AspectLang.Proofs.Parse.ValuesInStep

/-! # The actions of the base language in two runs

One lemma per action: where one run builds without a dialect and the other with a factory, the
action keeps their values in step.  Each proof follows the action from one value to the next.
The factory is asked at one place only, for a call of `proceed` (`inStep_callByName`). -/

namespace AspectLang.Work

open SegmentStack Workspace

variable {f : Factory} {L : Reporter × Bool → Reporter × Bool → Prop} {c : Handle}

/-- An action does the same in both runs. -/
def Steady (f : Factory) (L : Reporter × Bool → Reporter × Bool → Prop) (x : Work Unit) : Prop :=
  InStep (Mirrors f L) Eq x x

/-- Only aspect constructs forbid a repair. -/
theorem allowsRepair_of_plain {n : Node} (h : n.isExtended = false) : f.allowsRepair n = true := by
  cases f with
  | aspects =>
      change (!n.isExtended) = true
      rw [h]
      rfl
  | placeholder => rfl

/-! ### Compilation units -/

theorem steady_compilationUnit : Steady f L (compilationUnit c) := by
  refine .chain (inStep_popNodesAs Node.asTypeDecl?_markProceeds) ?_
  rintro types _ rfl
  refine .chain (inStep_popNodesAs Node.asImport?_markProceeds) ?_
  rintro imports _ rfl
  refine .bind (inStep_onNodes inStep_popOptional) ?_
  rintro package _ ⟨rfl, _⟩
  rw [List.map_id]
  have hfinish : ∀ found : Option PackageDecl, InStep (Mirrors f L) Eq
      (modify fun w => { w with unit := some ⟨found, imports, types, c.whole⟩ } : Work Unit)
      (modify fun w => { w with
        unit := some ⟨found, imports, types.map (TypeDecl.markProceeds f), c.whole⟩ }) :=
    fun found => .modifies fun w w' h => ⟨h.values, rfl, h.repairable, h.log⟩
  cases package with
  | none => exact hfinish none
  | some n =>
      have hpackage : InStep (Mirrors f L) Eq (some <$> expectNode .ast .package (asPackage? n))
          (some <$> expectNode .ast .package (asPackage? (n.markProceeds f))) := by
        rw [Node.asPackage?_markProceeds]
        exact .map (inStep_expectNode _ _ _) fun _ _ h => congrArg some h.symm
      refine .bind hpackage ?_
      rintro found _ rfl
      exact hfinish found

theorem steady_packageDecl : Steady f L (packageDecl c) := by
  refine .bind inStep_popName ?_
  rintro name _ rfl
  exact inStep_pushNode (allowsRepair_of_plain rfl)

theorem steady_importDecl (isStatic onDemand : Bool) :
    Steady f L (importDecl isStatic onDemand c) := by
  refine .bind inStep_popName ?_
  rintro name _ rfl
  exact inStep_pushNode (allowsRepair_of_plain rfl)

/-! ### Types -/

theorem steady_namedType : Steady f L namedType := by
  refine .bind inStep_popName ?_
  rintro name _ rfl
  exact inStep_pushType _

theorem steady_qualifiedGenericType : Steady f L (qualifiedGenericType c) := by
  refine .bind inStep_popName ?_
  rintro name _ rfl
  refine .bind inStep_popType ?_
  rintro type _ rfl
  exact inStep_pushType _

theorem steady_genericType : Steady f L (genericType c) := by
  refine .bind inStep_popTypeArguments ?_
  rintro arguments _ rfl
  refine .bind inStep_popType ?_
  rintro type _ rfl
  exact inStep_pushType _

theorem steady_arrayType : Steady f L (arrayType c) := by
  refine .bind inStep_popInt ?_
  rintro dims _ rfl
  refine .bind inStep_popType ?_
  rintro type _ rfl
  exact inStep_pushType _

theorem steady_wildcard (kind : WildcardKind) : Steady f L (wildcard kind c) := by
  cases kind with
  | unbound => exact inStep_pushTypeNode _
  | upper | lower =>
      refine .bind (.map inStep_popType fun _ _ => congrArg some) ?_
      rintro bound _ rfl
      exact inStep_pushTypeNode _

theorem steady_typeParameter (bounded additional : Bool) :
    Steady f L (typeParameter bounded additional c) := by
  have hname : ∀ bounds : List TypeRef, Steady f L (do
      let name ← popIdentifier
      pushTypeNode (.parameter ⟨name.name, bounds, c.whole⟩)) := by
    intro bounds
    refine .bind inStep_popIdentifier ?_
    rintro name _ rfl
    exact inStep_pushTypeNode _
  have hbound : ∀ more : List TypeRef, Steady f L (do
      let bounds ← if bounded then (· :: more) <$> popType else pure more
      let name ← popIdentifier
      pushTypeNode (.parameter ⟨name.name, bounds, c.whole⟩)) := by
    intro more
    cases bounded with
    | false => exact hname more
    | true =>
        refine .bind (.map inStep_popType fun _ _ => congrArg (· :: more)) ?_
        rintro bounds _ rfl
        exact hname bounds
  cases additional with
  | false => exact hbound []
  | true =>
      refine .bind inStep_popTypes ?_
      rintro more _ rfl
      exact hbound more

/-! ### Modifiers and annotations -/

theorem steady_startModifiers (flag start : Nat) : Steady f L (startModifiers flag start) :=
  .bind (inStep_pushInt flag) fun _ _ _ => inStep_pushInt start

theorem steady_concatModifiers (hL : KeptByErrors L) : Steady f L (concatModifiers c) := by
  refine .bind inStep_popInt ?_
  rintro _ _ rfl
  refine .bind inStep_popInt ?_
  rintro flags _ rfl
  refine .bind inStep_popInt ?_
  rintro start _ rfl
  refine .bind inStep_popInt ?_
  rintro earlier _ rfl
  have hjoin : Steady f L (do
      pushInt (earlier ||| flags)
      pushInt start
      onStacks (.onExprs SegmentStack.concat)) :=
    .bind (inStep_pushInt _) fun _ _ _ =>
      .bind (inStep_pushInt _) fun _ _ _ => inStep_onExprs inStep_concat
  dsimp only
  split
  · exact .bind (inStep_report hL _ _ _) fun _ _ _ => hjoin
  · exact hjoin

theorem steady_annotationMarker : Steady f L (annotationMarker c) := by
  refine .bind inStep_popName ?_
  rintro typeName _ rfl
  exact inStep_pushExpr _

theorem steady_annotationSingleMember : Steady f L (annotationSingleMember c) := by
  refine .bind inStep_popExpr ?_
  rintro value _ rfl
  refine .bind inStep_popName ?_
  rintro typeName _ rfl
  rw [Expr.span_markProceeds]
  exact inStep_pushExpr (.annotationUse ⟨typeName, [⟨"value", value, value.span⟩], c.whole⟩)

/-! ### Declarations -/

theorem steady_typeHeaderName (kind : TypeKind) (typeParameters : Bool) :
    Steady f L (typeHeaderName kind typeParameters) := by
  refine .bind (inStep_popTypeParameters typeParameters) ?_
  rintro parameters _ rfl
  refine .bind inStep_popIdentifier ?_
  rintro name _ rfl
  refine .bind inStep_popModifiers ?_
  rintro modifiers _ rfl
  exact inStep_pushNode (n := .type
    (headType name modifiers { TypeDecl.new kind with typeParameters := parameters }))
    (allowsRepair_of_plain rfl)

theorem steady_superclass : Steady f L superclass := by
  refine .bind inStep_popType ?_
  rintro type _ rfl
  refine inStep_updateType (fun t => ?_) fun _ => rfl
  cases t
  rfl

theorem steady_interfaces : Steady f L interfaces := by
  refine .bind inStep_popTypes ?_
  rintro types _ rfl
  refine inStep_updateType (fun t => ?_) fun _ => ?_
  · cases t
    cases types.getLast? <;> rfl
  · cases types.getLast? <;> rfl

theorem steady_classBody : Steady f L (classBody c) := by
  refine .chain (inStep_popNodesAs Node.member?_markProceeds) ?_
  rintro members _ rfl
  refine inStep_updateType (fun t => ?_) fun _ => rfl
  rw [TypeDecl.markProceeds_eq, TypeDecl.markProceeds_eq]

theorem steady_reportVoid (hL : KeptByErrors L) (type : TypeRef) (declarators : List Declarator) :
    InStep (Mirrors f L) Eq (reportVoid type declarators)
      (reportVoid type (declarators.map (Declarator.markProceeds f))) := by
  have hforM : InStep (Mirrors f L) Eq
      (declarators.forM fun d => report .voidVariable d.name.span [d.name.name])
      ((declarators.map (Declarator.markProceeds f)).forM fun d =>
        report .voidVariable d.name.span [d.name.name]) := by
    induction declarators with
    | nil => exact .pure rfl
    | cons d declarators ih => exact .bind (inStep_report hL _ _ _) fun _ _ _ => ih
  unfold reportVoid
  split
  · exact hforM
  · exact .pure rfl

theorem steady_fieldDecl (hL : KeptByErrors L) : Steady f L (fieldDecl c) := by
  refine .bind inStep_popDeclarators ?_
  rintro declarators _ rfl
  refine .bind inStep_popType ?_
  rintro type _ rfl
  refine .bind inStep_popModifiers ?_
  rintro modifiers _ rfl
  rw [WrittenModifiers.isEmpty_markProceeds]
  refine .bind (steady_reportVoid hL type declarators) fun _ _ _ => ?_
  exact inStep_pushMapped declarators (fun _ => rfl) fun _ _ => allowsRepair_of_plain rfl

theorem steady_declaratorId : Steady f L (declaratorId c) := by
  refine .bind inStep_popInt ?_
  rintro dims _ rfl
  refine .bind inStep_popIdentifier ?_
  rintro name _ rfl
  exact inStep_pushNode (n := .declarator ⟨name, dims, none, c.whole⟩)
    (allowsRepair_of_plain rfl)

theorem steady_declaratorInitializer : Steady f L declaratorInitializer := by
  refine .bind inStep_popExpr ?_
  rintro value _ rfl
  have htop : InStep (Mirrors f L) (fun a b => b = a.markProceeds f ∧
      f.allowsRepair (.declarator a) = true)
      (do expectNode .ast .declarator (asDeclarator? (← onStacks (.onNodes SegmentStack.peek))))
      (do expectNode .ast .declarator (asDeclarator? (← onStacks (.onNodes SegmentStack.peek)))) :=
    inStep_topAs Node.asDeclarator?_markProceeds fun n d h => by cases n <;> cases h; rfl
  refine .chain htop ?_
  rintro d _ ⟨rfl, _⟩
  rw [Expr.span_markProceeds]
  exact inStep_replaceTop
    (n := .declarator { d with initializer := some value, span := d.span.merge value.span })
    (allowsRepair_of_plain rfl)

theorem steady_methodHeaderName (typeParameters : Bool) :
    Steady f L (methodHeaderName typeParameters) := by
  refine .bind inStep_popIdentifier ?_
  rintro name _ rfl
  refine .bind inStep_popType ?_
  rintro returnType _ rfl
  refine .bind (inStep_popTypeParameters typeParameters) ?_
  rintro parameters _ rfl
  refine .bind inStep_popModifiers ?_
  rintro modifiers _ rfl
  exact inStep_pushNode (n := .method (headMethod name.span modifiers
    { kind := .method, selector := name.name, returnType := some returnType,
      typeParameters := parameters })) (allowsRepair_of_plain rfl)

theorem steady_constructorHeaderName : Steady f L constructorHeaderName := by
  refine .bind inStep_popIdentifier ?_
  rintro name _ rfl
  refine .bind inStep_popModifiers ?_
  rintro modifiers _ rfl
  exact inStep_pushNode (n := .method (headMethod name.span modifiers
    { kind := .constructor, selector := name.name })) (allowsRepair_of_plain rfl)

theorem steady_methodHeader : Steady f L (methodHeader c) := by
  refine .bind inStep_popTypes ?_
  rintro throws _ rfl
  refine .bind inStep_popParameters ?_
  rintro parameters _ rfl
  exact inStep_updateMethod (fun _ => rfl) fun _ => rfl

theorem steady_methodDecl : Steady f L methodDecl := by
  refine .bind inStep_popStatement ?_
  rintro body _ rfl
  refine inStep_updateMethod (fun m => ?_) fun _ => rfl
  rw [Statement.span_markProceeds, Statement.asBlock?_markProceeds, Option.map_map]
  unfold MethodDecl.markProceeds
  dsimp only
  rw [Option.map_map]
  congr 2
  funext b
  simp only [Function.comp, Block.markProceeds_eq]

theorem steady_formalParameter (hasModifiers varargs : Bool) :
    Steady f L (formalParameter hasModifiers varargs c) := by
  refine .bind inStep_popDeclarator ?_
  rintro d _ rfl
  refine .bind inStep_popType ?_
  rintro type _ rfl
  refine .bind (inStep_popModifiersIf hasModifiers) ?_
  rintro modifiers _ rfl
  exact inStep_pushNode (n := .parameter {
    name := d.name
    type := type.addDims d.dims
    modifiers := modifiers.flags
    annotations := modifiers.annotations
    varargs
    span := c.whole }) (allowsRepair_of_plain rfl)

theorem steady_initializerBlock : Steady f L initializerBlock := by
  refine .bind inStep_popBlock ?_
  rintro block _ rfl
  refine .bind inStep_popModifiers ?_
  rintro modifiers _ rfl
  rw [WrittenModifiers.isEmpty_markProceeds]
  cases block
  exact inStep_pushNode (n := .initializer ⟨modifiers.flags, ⟨_, _⟩, ⟨_, ⟨_, _⟩⟩⟩)
    (allowsRepair_of_plain rfl)

/-! ### Statements -/

theorem steady_blockStatement : Steady f L (blockStatement c) := by
  refine .bind inStep_popStatements ?_
  rintro statements _ rfl
  have hmark : (Statement.block ⟨statements, c.whole⟩).markProceeds f =
      .block ⟨statements.map (Statement.markProceeds f), c.whole⟩ :=
    congrArg Statement.block (Block.markProceeds_eq _)
  rw [← hmark]
  exact inStep_pushStatement _

theorem steady_localVariables (hL : KeptByErrors L) (hasModifiers : Bool) :
    Steady f L (localVariables hasModifiers c) := by
  refine .bind inStep_popDeclarators ?_
  rintro declarators _ rfl
  refine .bind inStep_popType ?_
  rintro type _ rfl
  refine .bind (inStep_popModifiersIf hasModifiers) ?_
  rintro modifiers _ rfl
  refine .bind (steady_reportVoid hL type declarators) fun _ _ _ => ?_
  exact inStep_pushMapped declarators (fun _ => rfl) fun _ _ => allowsRepair_of_plain rfl

theorem steady_localVariablesStatement : Steady f L (localVariablesStatement c) := by
  refine .bind inStep_popNodes ?_
  rintro ns _ ⟨rfl, hns⟩
  refine inStep_pushMapped ns (fun n => ?_) fun n hn => ?_
  · cases n with
    | statement s =>
        simp only [Node.markProceeds, endAt, Statement.span_markProceeds,
          Statement.markProceeds_setSpan]
    | _ => rfl
  · cases n with
    | statement s => exact allowsRepair_of_plain rfl
    | _ => exact hns _ hn

theorem steady_expressionStatement : Steady f L (expressionStatement c) := by
  refine .bind inStep_popExpr ?_
  rintro value _ rfl
  exact inStep_pushStatement (.expression value c.whole)

theorem steady_labeledStatement : Steady f L (labeledStatement c) := by
  refine .bind inStep_popStatement ?_
  rintro body _ rfl
  refine .bind inStep_popIdentifier ?_
  rintro label _ rfl
  exact inStep_pushStatement (.labeled label.name body c.whole)

theorem steady_ifStatement (hasElse : Bool) : Steady f L (ifStatement hasElse c) := by
  have hrest : ∀ elseBranch : Option Statement, InStep (Mirrors f L) Eq
      (do
        let thenBranch ← popStatement
        let condition ← popExpr
        pushStatement (.ifThen condition thenBranch elseBranch c.whole))
      (do
        let thenBranch ← popStatement
        let condition ← popExpr
        pushStatement
          (.ifThen condition thenBranch (elseBranch.map (Statement.markProceeds f)) c.whole)) := by
    intro elseBranch
    refine .bind inStep_popStatement ?_
    rintro thenBranch _ rfl
    refine .bind inStep_popExpr ?_
    rintro condition _ rfl
    cases elseBranch <;> exact inStep_pushStatement (.ifThen condition thenBranch _ c.whole)
  cases hasElse with
  | false => exact hrest none
  | true =>
      refine .bind (.map_some inStep_popStatement) ?_
      rintro elseBranch _ rfl
      exact hrest elseBranch

theorem steady_whileStatement : Steady f L (whileStatement c) := by
  refine .bind inStep_popStatement ?_
  rintro body _ rfl
  refine .bind inStep_popExpr ?_
  rintro condition _ rfl
  exact inStep_pushStatement (.whileLoop condition body c.whole)

theorem steady_doStatement : Steady f L (doStatement c) := by
  refine .bind inStep_popExpr ?_
  rintro condition _ rfl
  refine .bind inStep_popStatement ?_
  rintro body _ rfl
  exact inStep_pushStatement (.doLoop body condition c.whole)

theorem steady_forStatement : Steady f L (forStatement c) := by
  refine .bind inStep_popStatement ?_
  rintro body _ rfl
  refine .bind inStep_popExprs ?_
  rintro update _ rfl
  refine .bind inStep_popOptionalExpr ?_
  rintro condition _ rfl
  refine .bind inStep_popStatements ?_
  rintro init _ rfl
  have hmark : (Statement.forLoop init condition update body c.whole).markProceeds f =
      .forLoop (init.map (Statement.markProceeds f)) (condition.map (Expr.markProceeds f))
        (update.map (Expr.markProceeds f)) (body.markProceeds f) c.whole := by
    rw [Statement.markProceeds, markStatements_eq]
  rw [← hmark]
  exact inStep_pushStatement _

theorem steady_forInitExpressions : Steady f L forInitExpressions := by
  refine .bind inStep_popExprs ?_
  rintro values _ rfl
  refine inStep_pushMapped values (fun e => ?_) fun _ _ => allowsRepair_of_plain rfl
  rw [Expr.span_markProceeds]
  rfl

theorem steady_forEachStatement (hasModifiers : Bool) :
    Steady f L (forEachStatement hasModifiers c) := by
  refine .bind inStep_popStatement ?_
  rintro body _ rfl
  refine .bind inStep_popExpr ?_
  rintro collection _ rfl
  refine .bind inStep_popIdentifier ?_
  rintro name _ rfl
  refine .bind inStep_popType ?_
  rintro type _ rfl
  refine .bind (inStep_popModifiersIf hasModifiers) ?_
  rintro modifiers _ rfl
  exact inStep_pushStatement (.forEach
    { name, modifiers := modifiers.flags, annotations := modifiers.annotations, type,
      initializer := none, span := (c.span 2).merge name.span } collection body c.whole)

theorem steady_returnStatement :
    Steady f L (do pushStatement (.returning (← popOptionalExpr) c.whole)) := by
  refine .bind inStep_popOptionalExpr ?_
  rintro value _ rfl
  exact inStep_pushStatement (.returning value c.whole)

theorem steady_throwStatement :
    Steady f L (do pushStatement (.throwing (← popExpr) c.whole)) := by
  refine .bind inStep_popExpr ?_
  rintro value _ rfl
  exact inStep_pushStatement (.throwing value c.whole)

theorem inStep_popLabel (present : Bool) :
    InStep (Mirrors f L) Eq (popLabel present) (popLabel present) := by
  cases present with
  | false => exact .pure rfl
  | true =>
      refine .bind inStep_popIdentifier ?_
      rintro label _ rfl
      exact .pure rfl

theorem steady_breakStatement (label : Bool) :
    Steady f L (do pushStatement (.breaking (← popLabel label) c.whole)) := by
  refine .bind (inStep_popLabel label) ?_
  rintro label _ rfl
  exact inStep_pushStatement (.breaking label c.whole)

theorem steady_continueStatement (label : Bool) :
    Steady f L (do pushStatement (.continuing (← popLabel label) c.whole)) := by
  refine .bind (inStep_popLabel label) ?_
  rintro label _ rfl
  exact inStep_pushStatement (.continuing label c.whole)

theorem steady_tryStatement (hasFinal : Bool) : Steady f L (tryStatement hasFinal c) := by
  have hrest : ∀ final : Option Block, InStep (Mirrors f L) Eq
      (do
        let catches ← expectNode .ast .catchClause ((← popNodes).mapM asCatchClause?)
        let block ← popBlock
        pushStatement (.trying block catches final c.whole))
      (do
        let catches ← expectNode .ast .catchClause ((← popNodes).mapM asCatchClause?)
        let block ← popBlock
        pushStatement (.trying block catches (final.map (Block.markProceeds f)) c.whole)) := by
    intro final
    refine .chain (inStep_popNodesAs Node.asCatchClause?_markProceeds) ?_
    rintro catches _ rfl
    refine .bind inStep_popBlock ?_
    rintro block _ rfl
    have hmark : (Statement.trying block catches final c.whole).markProceeds f =
        .trying (block.markProceeds f) (catches.map (CatchClause.markProceeds f))
          (final.map (Block.markProceeds f)) c.whole := by
      cases final <;> rw [Statement.markProceeds, markCatches_eq] <;> rfl
    rw [← hmark]
    exact inStep_pushStatement _
  cases hasFinal with
  | false => exact hrest none
  | true =>
      refine .bind (.map_some inStep_popBlock) ?_
      rintro final _ rfl
      exact hrest final

theorem steady_catchClause : Steady f L (catchClause c) := by
  refine .bind inStep_popBlock ?_
  rintro block _ rfl
  refine .bind inStep_popParameter ?_
  rintro parameter _ rfl
  exact inStep_pushNode (n := .catchClause ⟨parameter, block, c.whole⟩)
    (allowsRepair_of_plain rfl)

theorem steady_assertStatement (hasMessage : Bool) : Steady f L (assertStatement hasMessage c) := by
  have hrest : ∀ message : Option Expr, InStep (Mirrors f L) Eq
      (do
        let condition ← popExpr
        pushStatement (.assertion condition message c.whole))
      (do
        let condition ← popExpr
        pushStatement (.assertion condition (message.map (Expr.markProceeds f)) c.whole)) := by
    intro message
    refine .bind inStep_popExpr ?_
    rintro condition _ rfl
    exact inStep_pushStatement (.assertion condition message c.whole)
  cases hasMessage with
  | false => exact hrest none
  | true =>
      refine .bind (.map_some inStep_popExpr) ?_
      rintro message _ rfl
      exact hrest message

theorem steady_constructorCall (isSuper : Bool) :
    Steady f L (do pushStatement (.constructorCall isSuper (← popExprs) c.whole)) := by
  refine .bind inStep_popExprs ?_
  rintro arguments _ rfl
  exact inStep_pushStatement (.constructorCall isSuper arguments c.whole)

/-! ### Expressions -/

theorem steady_parenthesized : Steady f L (parenthesized c) := by
  refine .bind inStep_popExpr ?_
  rintro inner _ rfl
  exact inStep_pushExpr (.paren inner c.whole)

theorem steady_allocation : Steady f L (allocation c) := by
  refine .bind inStep_popExprs ?_
  rintro arguments _ rfl
  refine .bind inStep_popType ?_
  rintro type _ rfl
  rw [← markExprs_eq]
  exact inStep_pushExpr (.new type arguments c.whole)

theorem inStep_popReceiver (isSuper : Bool) :
    InStep (Mirrors f L) (fun a b => b = a.markProceeds f) (popReceiver isSuper c)
      (popReceiver isSuper c) := by
  cases isSuper with
  | false => exact inStep_popExpr
  | true => exact .pure rfl

theorem steady_fieldAccess (isSuper : Bool) : Steady f L (fieldAccess isSuper c) := by
  refine .bind inStep_popIdentifier ?_
  rintro name _ rfl
  refine .bind (inStep_popReceiver isSuper) ?_
  rintro receiver _ rfl
  exact inStep_pushExpr (.fieldAccess receiver name.name c.whole)

/-- The one place where a factory is asked. -/
theorem inStep_callByName :
    InStep (Mirrors f L) Eq (callByName .disabled c) (callByName (.enabled f) c) := by
  refine .bind inStep_popExprs ?_
  rintro arguments _ rfl
  refine .bind (inStep_onIdentifiers _) ?_
  rintro segments _ rfl
  rw [← markExprs_eq]
  cases segments.getLast? with
  | none => exact inStep_noIdentifier
  | some selector =>
      dsimp only [Dialect.factory?]
      cases segments.dropLast with
      | nil =>
          simp only [Option.isNone_none, Bool.true_and, Bool.and_false]
          exact inStep_pushExpr (.send none selector arguments c.whole false)
      | cons word words =>
          exact inStep_pushExpr (.send (some (.name ⟨word :: words⟩)) selector arguments c.whole
            false)

theorem steady_callOn (isSuper : Bool) : Steady f L (callOn isSuper c) := by
  refine .bind inStep_popExprs ?_
  rintro arguments _ rfl
  refine .bind inStep_popIdentifier ?_
  rintro selector _ rfl
  refine .bind (inStep_popReceiver isSuper) ?_
  rintro receiver _ rfl
  rw [← markExprs_eq]
  exact inStep_pushExpr (.send (some receiver) selector arguments c.whole false)

theorem steady_nameExpr : Steady f L nameExpr := by
  refine .bind inStep_popName ?_
  rintro name _ rfl
  exact inStep_pushExpr (.name name)

theorem steady_unary (operator : UnaryOperator) : Steady f L (unary operator c) := by
  refine .bind inStep_popExpr ?_
  rintro operand _ rfl
  exact inStep_pushExpr (.unary operator operand c.whole)

theorem steady_binary (operator : BinaryOperator) : Steady f L (binary operator c) := by
  refine .bind inStep_popExpr ?_
  rintro right _ rfl
  refine .bind inStep_popExpr ?_
  rintro left _ rfl
  exact inStep_pushExpr (.binary left operator right c.whole)

theorem steady_instanceOf : Steady f L (instanceOf c) := by
  refine .bind inStep_popType ?_
  rintro type _ rfl
  refine .bind inStep_popExpr ?_
  rintro value _ rfl
  exact inStep_pushExpr (.instanceOf value type c.whole)

theorem steady_conditional : Steady f L (conditional c) := by
  refine .bind inStep_popExpr ?_
  rintro whenFalse _ rfl
  refine .bind inStep_popExpr ?_
  rintro whenTrue _ rfl
  refine .bind inStep_popExpr ?_
  rintro condition _ rfl
  exact inStep_pushExpr (.conditional condition whenTrue whenFalse c.whole)

theorem steady_assignment : Steady f L (assignment c) := by
  refine .bind inStep_popExpr ?_
  rintro value _ rfl
  refine .bind inStep_popInt ?_
  rintro code _ rfl
  refine .bind inStep_popExpr ?_
  rintro target _ rfl
  exact inStep_pushExpr (.assign target (assignmentOperator? code) value c.whole)

/-! ### All actions -/

/-- **The actions of the base language keep a run without a dialect and one with a factory in
step.** -/
theorem inStep_baseAction (hL : KeptByErrors L) (c : Handle) (action : SemanticAction) :
    InStep (Mirrors f L) Eq (baseAction .disabled c action) (baseAction (.enabled f) c action) := by
  cases action with
  | none | aspect => exact .pure rfl
  | emptyNodes => exact inStep_pushNoNodes
  | emptyExprs => exact inStep_pushNoExprs
  | emptyTypes => exact inStep_pushNoTypes
  | concatNodes => exact inStep_onNodes inStep_concat
  | concatExprs => exact inStep_onExprs inStep_concat
  | concatTypes => exact inStep_onTypes _
  | concatIdentifiers => exact inStep_onIdentifiers _
  | compilationUnit => exact steady_compilationUnit
  | packageDecl => exact steady_packageDecl
  | importDecl isStatic onDemand => exact steady_importDecl isStatic onDemand
  | primitiveType name => exact inStep_pushType _
  | namedType => exact steady_namedType
  | qualifiedGenericType => exact steady_qualifiedGenericType
  | genericType => exact steady_genericType
  | arrayType => exact steady_arrayType
  | dimsOne | dimsZero => exact inStep_pushInt _
  | dimsMore => exact .map (inStep_addInt 1) fun _ _ _ => rfl
  | wildcard kind => exact steady_wildcard kind
  | typeParameter bounded additional => exact steady_typeParameter bounded additional
  | emptyModifiers | modifierKeyword flag =>
      exact .bind (steady_startModifiers _ _) fun _ _ _ => inStep_pushNoExprs
  | annotationModifier => exact steady_startModifiers _ _
  | concatModifiers => exact steady_concatModifiers hL
  | annotationMarker => exact steady_annotationMarker
  | annotationSingleMember => exact steady_annotationSingleMember
  | typeHeaderName kind typeParameters => exact steady_typeHeaderName kind typeParameters
  | superclass => exact steady_superclass
  | interfaces => exact steady_interfaces
  | classBody => exact steady_classBody
  | fieldDecl => exact steady_fieldDecl hL
  | declaratorId => exact steady_declaratorId
  | declaratorInitializer => exact steady_declaratorInitializer
  | methodHeaderName typeParameters => exact steady_methodHeaderName typeParameters
  | constructorHeaderName => exact steady_constructorHeaderName
  | methodHeader => exact steady_methodHeader
  | methodDecl => exact steady_methodDecl
  | emptyMethodBody | emptyStatement => exact inStep_pushStatement (.empty (c.span 0))
  | formalParameter modifiers varargs => exact steady_formalParameter modifiers varargs
  | initializerBlock => exact steady_initializerBlock
  | block => exact steady_blockStatement
  | localVariables modifiers => exact steady_localVariables hL modifiers
  | localVariablesStatement => exact steady_localVariablesStatement
  | expressionStatement => exact steady_expressionStatement
  | labeledStatement => exact steady_labeledStatement
  | ifStatement hasElse => exact steady_ifStatement hasElse
  | whileStatement => exact steady_whileStatement
  | doStatement => exact steady_doStatement
  | forStatement => exact steady_forStatement
  | forInitExpressions => exact steady_forInitExpressions
  | forEachStatement modifiers => exact steady_forEachStatement modifiers
  | returnStatement => exact steady_returnStatement
  | throwStatement => exact steady_throwStatement
  | breakStatement label => exact steady_breakStatement label
  | continueStatement label => exact steady_continueStatement label
  | tryStatement final => exact steady_tryStatement final
  | catchClause => exact steady_catchClause
  | assertStatement message => exact steady_assertStatement message
  | constructorCall isSuper => exact steady_constructorCall isSuper
  | thisExpr => exact inStep_pushExpr (.this (c.span 0))
  | parenthesized => exact steady_parenthesized
  | allocation => exact steady_allocation
  | fieldAccess isSuper => exact steady_fieldAccess isSuper
  | callByName => exact inStep_callByName
  | callOnPrimary => exact steady_callOn false
  | callOnSuper => exact steady_callOn true
  | nameExpr => exact steady_nameExpr
  | unary operator => exact steady_unary operator
  | binary operator => exact steady_binary operator
  | instanceOf => exact steady_instanceOf
  | conditional => exact steady_conditional
  | assignmentOperator operator => exact inStep_pushInt _
  | assignment => exact steady_assignment

end AspectLang.Work
