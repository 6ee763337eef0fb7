import AspectLang.Proofs.Parse.Profiles

/-! # What the actions of the base language do to the value stacks

One lemma per action: it turns the values of its right side, on top of the stacks, into the value
of its left side (`Turns`).  Each proof follows the action from one value to the next.  The
actions for the topmost declaration also take that declaration, and give it back. -/

namespace AspectLang.Work

open Profile

variable {plain : Prop} {c : Handle}

/-! ### Lists -/

theorem turns_concatNodes {k : NodeRole} {below top : Count} :
    Turns plain (onStacks (.onNodes SegmentStack.concat)) [node k below, node k top]
      (node k (top.plus below)) := by
  intro w frame h
  obtain ⟨s, hconcat, hs⟩ := h.nodes.concat
  exact (ensures_onNodes (P := fun _ => True) h ⟨(), s, hconcat, trivial, hs⟩).mono
    fun _ _ => And.right

theorem turns_concatExprs {k : ExprRole} {below top : Count} :
    Turns plain (onStacks (.onExprs SegmentStack.concat)) [expr k below, expr k top]
      (expr k (top.plus below)) := by
  intro w frame h
  obtain ⟨s, hconcat, hs⟩ := h.exprs.concat
  exact (ensures_onExprs (P := fun _ => True) h ⟨(), s, hconcat, trivial, hs⟩).mono
    fun _ _ => And.right

theorem turns_concatTypes {k : TypeRole} {below top : Count} :
    Turns plain (onStacks (.onTypes SegmentStack.concat)) [type k below, type k top]
      (type k (top.plus below)) := by
  intro w frame h
  obtain ⟨s, hconcat, hs⟩ := h.types.concat
  exact (ensures_onTypes (P := fun _ => True) h ⟨(), s, hconcat, trivial, hs⟩).mono
    fun _ _ => And.right

theorem turns_concatIdentifiers {below top : Count} :
    Turns plain (onStacks (.onIdentifiers SegmentStack.concat)) [word below, word top]
      (word (top.plus below)) := by
  intro w frame h
  obtain ⟨s, hconcat, hs⟩ := h.identifiers.concat
  exact (ensures_onIdentifiers (P := fun _ => True) h ⟨(), s, hconcat, trivial, hs⟩).mono
    fun _ _ => And.right

/-! ### Compilation units -/

theorem turns_compilationUnit :
    Turns plain (compilationUnit c)
      [node .package .optional, node .importDecl .many, node .type .many] { unit := true } := by
  intro w frame h
  refine .chain (ensures_popNodesAs (fun _ => NodeRole.exists_type) h) fun types _ h => ?_
  refine .chain (ensures_popNodesAs (fun _ => NodeRole.exists_importDecl) h.2) fun imports _ h => ?_
  refine .bind (ensures_popOptionalNode h.2) fun package _ hpackage => ?_
  have hfinish : ∀ (found : Option PackageDecl) w', w'.Fits plain frame →
      Ensures plain w' (modify fun w => { w with unit := some ⟨found, imports, types, c.whole⟩ })
        fun _ w' => w'.Fits plain (Profile.atop { unit := true } frame) := fun found w' h =>
    ⟨h.nodes, h.exprs, h.identifiers, h.types, h.ints, fun _ => rfl⟩
  cases package with
  | none => exact .pure_bind (hfinish none _ hpackage.2)
  | some n =>
      obtain ⟨found, hfound, _⟩ := NodeRole.exists_package (hpackage.1 n rfl)
      exact .bind (ensures_expected ⟨found, hfound⟩ hpackage.2).map hfinish

theorem turns_packageDecl : Turns plain (packageDecl c) [word .some] (node .package) := by
  intro w frame h
  refine .bind (ensures_popName h) fun _ _ h => ?_
  exact ensures_pushNode h trivial

theorem turns_importDecl {isStatic onDemand : Bool} :
    Turns plain (importDecl isStatic onDemand c) [word .some] (node .importDecl) := by
  intro w frame h
  refine .bind (ensures_popName h) fun _ _ h => ?_
  exact ensures_pushNode h trivial

/-! ### Types -/

theorem turns_namedType : Turns plain namedType [word .some] type := by
  intro w frame h
  refine .bind (ensures_popName h) fun _ _ h => ?_
  exact ensures_pushType h

theorem turns_qualifiedGenericType :
    Turns plain (qualifiedGenericType c) [type, word .some] type := by
  intro w frame h
  refine .bind (ensures_popName h) fun _ _ h => ?_
  refine .bind (ensures_popType h) fun _ _ h => ?_
  exact ensures_pushType h

theorem turns_genericType : Turns plain (genericType c) [type, type .argument .many] type := by
  intro w frame h
  refine .bind (ensures_popTypeArguments h) fun _ _ h => ?_
  refine .bind (ensures_popType h) fun _ _ h => ?_
  exact ensures_pushType h

theorem turns_arrayType : Turns plain (arrayType c) [type, int] type := by
  intro w frame h
  refine .bind (ensures_popInt h) fun _ _ h => ?_
  refine .bind (ensures_popType h) fun _ _ h => ?_
  exact ensures_pushType h

theorem turns_dimsMore : Turns plain (discard (onStacks (StackM.addInt 1))) [int] int := by
  intro w frame h
  obtain ⟨n, ints, hints⟩ := List.exists_cons_of_length_eq_add_one h.ints
  have hok : (discard (onStacks (StackM.addInt 1)) : Work Unit) w =
      .ok () { w with values := { w.values with ints := (n + 1) :: ints } } := by
    unfold onStacks StackM.addInt
    simp only [discard, Functor.discard, Functor.mapConst, EStateM.map, hints, Function.comp,
      Function.const]
  have hlength := h.ints
  rw [hints] at hlength
  exact .ok hok ⟨h.nodes, h.exprs, h.identifiers, h.types, hlength, h.unit⟩

theorem turns_wildcard {kind : WildcardKind} :
    Turns plain (wildcard kind c) [provided (kind ≠ .unbound) type] (type .argument) := by
  intro w frame h
  cases kind with
  | unbound => exact .pure_bind (ensures_pushTypeNode h trivial)
  | upper | lower =>
      refine .bind (ensures_popType h).map fun _ _ h => ?_
      exact ensures_pushTypeNode h trivial

theorem turns_typeParameter {bounded additional : Bool} :
    Turns plain (typeParameter bounded additional c)
      [word, provided bounded type, provided additional (type .type .many)]
      (type .parameter) := by
  intro w frame h
  have hname : ∀ (bounds : List TypeRef) w', w'.Fits plain (word.atop frame) →
      Ensures plain w' (do
        let name ← popIdentifier
        pushTypeNode (.parameter ⟨name.name, bounds, c.whole⟩))
        fun _ w' => w'.Fits plain ((type .parameter).atop frame) := by
    intro bounds w' h
    refine .bind (ensures_popIdentifier h) fun _ _ h => ?_
    exact ensures_pushTypeNode h trivial
  have hbound : ∀ (more : List TypeRef) w',
      w'.Fits plain ((provided bounded type).atop (word.atop frame)) →
      Ensures plain w' (do
        let bounds ← if bounded then (· :: more) <$> popType else pure more
        let name ← popIdentifier
        pushTypeNode (.parameter ⟨name.name, bounds, c.whole⟩))
        fun _ w' => w'.Fits plain ((type .parameter).atop frame) := by
    intro more w' h
    cases bounded with
    | false => exact .pure_bind (hname more w' h)
    | true => exact .bind (ensures_popType h).map hname
  cases additional with
  | false => exact .pure_bind (hbound [] w h)
  | true => exact .bind (ensures_popTypes h) hbound

/-! ### Modifiers and annotations -/

theorem ensures_startModifiers {w : Workspace} {p : Profile} {flag start : Nat}
    (h : w.Fits plain p) :
    Ensures plain w (startModifiers flag start) fun _ w' => w'.Fits plain (int.atop (int.atop p)) :=
  .bind (ensures_pushInt h) fun _ _ h => ensures_pushInt h

theorem turns_noAnnotations {flag start : Nat} :
    Turns plain (do startModifiers flag start; pushNoExprs) []
      { exprs := [⟨.expr, .none⟩], ints := [(), ()] } := by
  intro w frame h
  refine .bind (ensures_startModifiers h) fun _ _ h => ?_
  exact ensures_pushNoExprs h

theorem turns_annotationModifier {start : Nat} :
    Turns plain (startModifiers 0 start) [expr .annotationUse]
      { exprs := [⟨.annotationUse, .one⟩], ints := [(), ()] } :=
  fun _ _ h => ensures_startModifiers h

theorem turns_concatModifiers :
    Turns plain (concatModifiers c) [modifiers, modifiers] modifiers := by
  intro w frame h
  have hints : w.Fits plain (int.atop (int.atop (int.atop (int.atop
      ((expr .expr .many).atop ((expr .expr .many).atop frame)))))) :=
    ⟨h.nodes, h.exprs, h.identifiers, h.types, h.ints, h.unit⟩
  refine .bind (ensures_popInt hints) fun _ _ h => ?_
  refine .bind (ensures_popInt h) fun flags _ h => ?_
  refine .bind (ensures_popInt h) fun start _ h => ?_
  refine .bind (ensures_popInt h) fun earlier _ h => ?_
  have hfinish : ∀ w', w'.Fits plain ((expr .expr .many).atop ((expr .expr .many).atop frame)) →
      Ensures plain w' (do
        pushInt (earlier ||| flags)
        pushInt start
        onStacks (.onExprs SegmentStack.concat))
        fun _ w' => w'.Fits plain (modifiers.atop frame) := by
    intro w' h
    refine .bind (ensures_pushInt h) fun _ _ h => ?_
    refine .bind (ensures_pushInt h) fun _ _ h => ?_
    exact turns_concatExprs _ { frame with ints := () :: () :: frame.ints } h
  split
  · exact .bind (ensures_report h) fun _ _ h => hfinish _ h
  · exact .pure_bind (hfinish _ h)

theorem turns_annotationMarker :
    Turns plain (annotationMarker c) [word .some] (expr .annotationUse) := by
  intro w frame h
  refine .bind (ensures_popName h) fun _ _ h => ?_
  exact ensures_pushExpr h trivial

theorem turns_annotationSingleMember :
    Turns plain (annotationSingleMember c) [word .some, expr] (expr .annotationUse) := by
  intro w frame h
  refine .bind (ensures_popExpr h) fun _ _ h => ?_
  refine .bind (ensures_popName h) fun _ _ h => ?_
  exact ensures_pushExpr h trivial

/-! ### Declarations -/

theorem turns_typeHeaderName {kind : TypeKind} {typeParameters : Bool} :
    Turns plain (typeHeaderName kind typeParameters)
      [modifiers, word, provided typeParameters (type .parameter .many)] (node .type) := by
  intro w frame h
  refine .bind (ensures_popTypeParameters h) fun _ _ h => ?_
  refine .bind (ensures_popIdentifier h) fun _ _ h => ?_
  refine .bind (ensures_popModifiers h) fun _ _ h => ?_
  exact ensures_pushNode h trivial

theorem turns_superclass : Turns plain superclass [node .type, type] (node .type) := by
  intro w frame h
  refine .bind (ensures_popType h) fun _ _ h => ?_
  exact ensures_updateType h

theorem turns_interfaces :
    Turns plain interfaces [node .type, type .type .many] (node .type) := by
  intro w frame h
  refine .bind (ensures_popTypes h) fun _ _ h => ?_
  exact ensures_updateType h

theorem turns_classBody :
    Turns plain (classBody c) [node .type, node .member .many] (node .type) := by
  intro w frame h
  refine .chain (ensures_popNodesAs (fun _ => NodeRole.exists_member) h) fun _ _ h => ?_
  exact ensures_updateType h.2

theorem ensures_reportVoid {w : Workspace} {p : Profile} {t : TypeRef}
    {declarators : List Declarator} (h : w.Fits plain p) :
    Ensures plain w (reportVoid t declarators) fun _ w' => w'.Fits plain p := by
  unfold reportVoid
  split
  · induction declarators generalizing w with
    | nil => exact .pure h
    | cons d declarators ih => exact .bind (ensures_report h) fun _ _ h => ih h
  · exact .pure h

theorem turns_fieldDecl :
    Turns plain (fieldDecl c) [modifiers, type, node .declarator .many] (node .member .many) := by
  intro w frame h
  refine .bind (ensures_popDeclarators h) fun declarators _ h => ?_
  refine .bind (ensures_popType h) fun _ _ h => ?_
  refine .bind (ensures_popModifiers h) fun _ _ h => ?_
  refine .bind (ensures_reportVoid h) fun _ _ h => ensures_pushNodes h fun n hn => ?_
  obtain ⟨d, _, rfl⟩ := List.mem_map.mp hn
  exact trivial

theorem turns_declaratorId : Turns plain (declaratorId c) [word, int] (node .declarator) := by
  intro w frame h
  refine .bind (ensures_popInt h) fun _ _ h => ?_
  refine .bind (ensures_popIdentifier h) fun _ _ h => ?_
  exact ensures_pushNode h trivial

theorem turns_declaratorInitializer :
    Turns plain declaratorInitializer [node .declarator, expr] (node .declarator) := by
  intro w frame h
  refine .bind (ensures_popExpr h) fun _ _ h => ?_
  refine .chain (ensures_peekAs (fun _ => NodeRole.exists_declarator) h) fun _ _ h => ?_
  exact ensures_replaceTop h trivial

theorem turns_methodHeaderName {typeParameters : Bool} :
    Turns plain (methodHeaderName typeParameters)
      [modifiers, provided typeParameters (type .parameter .many), type, word] (node .method) := by
  intro w frame h
  refine .bind (ensures_popIdentifier h) fun _ _ h => ?_
  refine .bind (ensures_popType h) fun _ _ h => ?_
  refine .bind (ensures_popTypeParameters h) fun _ _ h => ?_
  refine .bind (ensures_popModifiers h) fun _ _ h => ?_
  exact ensures_pushNode h trivial

theorem turns_constructorHeaderName :
    Turns plain constructorHeaderName [modifiers, word] (node .method) := by
  intro w frame h
  refine .bind (ensures_popIdentifier h) fun _ _ h => ?_
  refine .bind (ensures_popModifiers h) fun _ _ h => ?_
  exact ensures_pushNode h trivial

theorem turns_methodHeader :
    Turns plain (methodHeader c) [node .method, node .parameter .many, type .type .many]
      (node .method) := by
  intro w frame h
  refine .bind (ensures_popTypes h) fun _ _ h => ?_
  refine .bind (ensures_popParameters h) fun _ _ h => ?_
  exact ensures_updateMethod h

theorem turns_methodDecl : Turns plain methodDecl [node .method, node .statement] (node .method) := by
  intro w frame h
  refine .bind (ensures_popStatement h) fun _ _ h => ?_
  exact ensures_updateMethod h

theorem turns_formalParameter {hasModifiers varargs : Bool} :
    Turns plain (formalParameter hasModifiers varargs c)
      [provided hasModifiers modifiers, type, node .declarator] (node .parameter) := by
  intro w frame h
  refine .bind (ensures_popDeclarator h) fun _ _ h => ?_
  refine .bind (ensures_popType h) fun _ _ h => ?_
  refine .bind (ensures_popModifiersIf h) fun _ _ h => ?_
  exact ensures_pushNode h trivial

theorem turns_initializerBlock :
    Turns plain initializerBlock [modifiers, node .block] (node .member) := by
  intro w frame h
  refine .bind (ensures_popBlock h) fun _ _ h => ?_
  refine .bind (ensures_popModifiers h) fun _ _ h => ?_
  exact ensures_pushNode h trivial

/-! ### Statements -/

theorem turns_blockStatement :
    Turns plain (blockStatement c) [node .statement .many] (node .block) := by
  intro w frame h
  refine .bind (ensures_popStatements h) fun _ _ h => ?_
  exact ensures_pushNode h trivial

theorem turns_localVariables {hasModifiers : Bool} :
    Turns plain (localVariables hasModifiers c)
      [provided hasModifiers modifiers, type, node .declarator .many] (node .statement .many) := by
  intro w frame h
  refine .bind (ensures_popDeclarators h) fun _ _ h => ?_
  refine .bind (ensures_popType h) fun _ _ h => ?_
  refine .bind (ensures_popModifiersIf h) fun _ _ h => ?_
  refine .bind (ensures_reportVoid h) fun _ _ h => ensures_pushNodes h fun n hn => ?_
  obtain ⟨d, _, rfl⟩ := List.mem_map.mp hn
  exact trivial

theorem turns_localVariablesStatement :
    Turns plain (localVariablesStatement c) [node .statement .many] (node .statement .many) := by
  intro w frame h
  refine .bind (ensures_popNodes h) fun ns _ h => ensures_pushNodes h.2 fun n hn => ?_
  obtain ⟨m, hm, rfl⟩ := List.mem_map.mp hn
  have hrole := h.1 m hm
  cases m <;> first | exact trivial | exact absurd hrole id

theorem turns_expressionStatement :
    Turns plain (expressionStatement c) [expr] (node .statement) := by
  intro w frame h
  refine .bind (ensures_popExpr h) fun _ _ h => ?_
  exact ensures_pushStatement h

theorem turns_labeledStatement :
    Turns plain (labeledStatement c) [word, node .statement] (node .statement) := by
  intro w frame h
  refine .bind (ensures_popStatement h) fun _ _ h => ?_
  refine .bind (ensures_popIdentifier h) fun _ _ h => ?_
  exact ensures_pushStatement h

theorem turns_ifStatement {hasElse : Bool} :
    Turns plain (ifStatement hasElse c)
      [expr, node .statement, provided hasElse (node .statement)] (node .statement) := by
  intro w frame h
  have hfinish : ∀ (elseBranch : Option Statement) w',
      w'.Fits plain ((node .statement).atop (expr.atop frame)) →
      Ensures plain w' (do
        let thenBranch ← popStatement
        let condition ← popExpr
        pushStatement (.ifThen condition thenBranch elseBranch c.whole))
        fun _ w' => w'.Fits plain ((node .statement).atop frame) := by
    intro elseBranch w' h
    refine .bind (ensures_popStatement h) fun _ _ h => ?_
    refine .bind (ensures_popExpr h) fun _ _ h => ?_
    exact ensures_pushStatement h
  cases hasElse with
  | false => exact .pure_bind (hfinish none w h)
  | true => exact .bind (ensures_popStatement h).map hfinish

theorem turns_whileStatement :
    Turns plain (whileStatement c) [expr, node .statement] (node .statement) := by
  intro w frame h
  refine .bind (ensures_popStatement h) fun _ _ h => ?_
  refine .bind (ensures_popExpr h) fun _ _ h => ?_
  exact ensures_pushStatement h

theorem turns_doStatement :
    Turns plain (doStatement c) [node .statement, expr] (node .statement) := by
  intro w frame h
  refine .bind (ensures_popExpr h) fun _ _ h => ?_
  refine .bind (ensures_popStatement h) fun _ _ h => ?_
  exact ensures_pushStatement h

theorem turns_forStatement :
    Turns plain (forStatement c)
      [node .statement .many, expr .expr .optional, expr .expr .many, node .statement]
      (node .statement) := by
  intro w frame h
  refine .bind (ensures_popStatement h) fun _ _ h => ?_
  refine .bind (ensures_popExprs h) fun _ _ h => ?_
  refine .bind (ensures_popOptionalExpr h) fun _ _ h => ?_
  refine .bind (ensures_popStatements h) fun _ _ h => ?_
  exact ensures_pushStatement h

theorem turns_forInitExpressions :
    Turns plain forInitExpressions [expr .expr .many] (node .statement .many) := by
  intro w frame h
  refine .bind (ensures_popExprs h) fun _ _ h => ensures_pushNodes h fun n hn => ?_
  obtain ⟨e, _, rfl⟩ := List.mem_map.mp hn
  exact trivial

theorem turns_forEachStatement {hasModifiers : Bool} :
    Turns plain (forEachStatement hasModifiers c)
      [provided hasModifiers modifiers, type, word, expr, node .statement] (node .statement) := by
  intro w frame h
  refine .bind (ensures_popStatement h) fun _ _ h => ?_
  refine .bind (ensures_popExpr h) fun _ _ h => ?_
  refine .bind (ensures_popIdentifier h) fun _ _ h => ?_
  refine .bind (ensures_popType h) fun _ _ h => ?_
  refine .bind (ensures_popModifiersIf h) fun _ _ h => ?_
  exact ensures_pushStatement h

theorem ensures_popLabel {w : Workspace} {p : Profile} {present : Bool}
    (h : w.Fits plain ((provided present word).atop p)) :
    Ensures plain w (popLabel present) fun _ w' => w'.Fits plain p := by
  cases present with
  | false => exact .pure h
  | true => exact .bind (ensures_popIdentifier h) fun _ _ h => .pure h

theorem turns_tryStatement {hasFinal : Bool} :
    Turns plain (tryStatement hasFinal c)
      [node .block, node .catchClause .many, provided hasFinal (node .block)]
      (node .statement) := by
  intro w frame h
  have hfinish : ∀ (final : Option Block) w',
      w'.Fits plain ((node .catchClause .many).atop ((node .block).atop frame)) →
      Ensures plain w' (do
        let catches ← expectNode .ast .catchClause ((← popNodes).mapM asCatchClause?)
        let block ← popBlock
        pushStatement (.trying block catches final c.whole))
        fun _ w' => w'.Fits plain ((node .statement).atop frame) := by
    intro final w' h
    refine .chain (ensures_popNodesAs (fun _ => NodeRole.exists_catchClause) h) fun _ _ h => ?_
    refine .bind (ensures_popBlock h.2) fun _ _ h => ?_
    exact ensures_pushStatement h
  cases hasFinal with
  | false => exact .pure_bind (hfinish none w h)
  | true => exact .bind (ensures_popBlock h).map hfinish

theorem turns_catchClause :
    Turns plain (catchClause c) [node .parameter, node .block] (node .catchClause) := by
  intro w frame h
  refine .bind (ensures_popBlock h) fun _ _ h => ?_
  refine .bind (ensures_popParameter h) fun _ _ h => ?_
  exact ensures_pushNode h trivial

theorem turns_assertStatement {hasMessage : Bool} :
    Turns plain (assertStatement hasMessage c) [expr, provided hasMessage expr]
      (node .statement) := by
  intro w frame h
  have hfinish : ∀ (message : Option Expr) w', w'.Fits plain (expr.atop frame) →
      Ensures plain w' (do
        let condition ← popExpr
        pushStatement (.assertion condition message c.whole))
        fun _ w' => w'.Fits plain ((node .statement).atop frame) := by
    intro message w' h
    refine .bind (ensures_popExpr h) fun _ _ h => ?_
    exact ensures_pushStatement h
  cases hasMessage with
  | false => exact .pure_bind (hfinish none w h)
  | true => exact .bind (ensures_popExpr h).map hfinish

/-! ### Expressions -/

theorem turns_parenthesized : Turns plain (parenthesized c) [expr] expr := by
  intro w frame h
  refine .bind (ensures_popExpr h) fun _ _ h => ?_
  exact ensures_pushExpr h trivial

theorem turns_allocation : Turns plain (allocation c) [type, expr .expr .many] expr := by
  intro w frame h
  refine .bind (ensures_popExprs h) fun _ _ h => ?_
  refine .bind (ensures_popType h) fun _ _ h => ?_
  exact ensures_pushExpr h trivial

theorem ensures_popReceiver {w : Workspace} {p : Profile} {isSuper : Bool}
    (h : w.Fits plain ((provided (!isSuper) expr).atop p)) :
    Ensures plain w (popReceiver isSuper c) fun _ w' => w'.Fits plain p := by
  cases isSuper with
  | false => exact ensures_popExpr h
  | true => exact .pure h

theorem turns_fieldAccess {isSuper : Bool} :
    Turns plain (fieldAccess isSuper c) [provided (!isSuper) expr, word] expr := by
  intro w frame h
  refine .bind (ensures_popIdentifier h) fun _ _ h => ?_
  refine .bind (ensures_popReceiver h) fun _ _ h => ?_
  exact ensures_pushExpr h trivial

theorem turns_callByName {dialect : Dialect} :
    Turns plain (callByName dialect c) [word .some, expr .expr .many] expr := by
  intro w frame h
  refine .bind (ensures_popExprs h) fun _ _ h => ?_
  refine .bind (ensures_popIdentifiers h) fun segments _ h => ?_
  split
  · rename_i hnone
    exact absurd (List.getLast?_eq_none_iff.mp hnone) h.1
  · exact ensures_pushExpr h.2 trivial

theorem turns_callOn {isSuper : Bool} :
    Turns plain (callOn isSuper c) [provided (!isSuper) expr, word, expr .expr .many] expr := by
  intro w frame h
  refine .bind (ensures_popExprs h) fun _ _ h => ?_
  refine .bind (ensures_popIdentifier h) fun _ _ h => ?_
  refine .bind (ensures_popReceiver h) fun _ _ h => ?_
  exact ensures_pushExpr h trivial

theorem turns_nameExpr : Turns plain nameExpr [word .some] expr := by
  intro w frame h
  refine .bind (ensures_popName h) fun _ _ h => ?_
  exact ensures_pushExpr h trivial

theorem turns_unary {operator : UnaryOperator} : Turns plain (unary operator c) [expr] expr := by
  intro w frame h
  refine .bind (ensures_popExpr h) fun _ _ h => ?_
  exact ensures_pushExpr h trivial

theorem turns_binary {operator : BinaryOperator} :
    Turns plain (binary operator c) [expr, expr] expr := by
  intro w frame h
  refine .bind (ensures_popExpr h) fun _ _ h => ?_
  refine .bind (ensures_popExpr h) fun _ _ h => ?_
  exact ensures_pushExpr h trivial

theorem turns_instanceOf : Turns plain (instanceOf c) [expr, type] expr := by
  intro w frame h
  refine .bind (ensures_popType h) fun _ _ h => ?_
  refine .bind (ensures_popExpr h) fun _ _ h => ?_
  exact ensures_pushExpr h trivial

theorem turns_conditional : Turns plain (conditional c) [expr, expr, expr] expr := by
  intro w frame h
  refine .bind (ensures_popExpr h) fun _ _ h => ?_
  refine .bind (ensures_popExpr h) fun _ _ h => ?_
  refine .bind (ensures_popExpr h) fun _ _ h => ?_
  exact ensures_pushExpr h trivial

theorem turns_assignment : Turns plain (assignment c) [expr, int, expr] expr := by
  intro w frame h
  refine .bind (ensures_popExpr h) fun _ _ h => ?_
  refine .bind (ensures_popInt h) fun _ _ h => ?_
  refine .bind (ensures_popExpr h) fun _ _ h => ?_
  exact ensures_pushExpr h trivial

end AspectLang.Work
