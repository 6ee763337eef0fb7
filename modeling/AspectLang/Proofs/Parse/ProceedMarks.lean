import AspectLang.Parse.AspectConstructs

/-! # Marking the calls of `proceed`

A factory may mark every call of `proceed` without a receiver.  `markProceeds` does so
throughout a finished tree: in expressions, statements, declarations and whole units, and in the
nodes of an unfinished one.  Marking moves nothing, so ranges and sorts of nodes stay
(`Expr.span_markProceeds`, `Node.member?_markProceeds` and the like), and the placeholder factory
marks nothing (`Node.markProceeds_placeholder`). -/

namespace AspectLang

variable {f : Factory}

/-! ### Expressions -/

mutual

/-- The expression with its calls of `proceed` marked. -/
def Expr.markProceeds (f : Factory) : Expr → Expr
  | .literal kind text span => .literal kind text span
  | .name name => .name name
  | .this span => .this span
  | .super span => .super span
  | .fieldAccess receiver name span => .fieldAccess (receiver.markProceeds f) name span
  | .send none selector arguments span proceed =>
    .send none selector (markExprs f arguments) span
      (proceed || selector.name == "proceed" && f.marksProceed)
  | .send (some receiver) selector arguments span proceed =>
    .send (some (receiver.markProceeds f)) selector (markExprs f arguments) span proceed
  | .new type arguments span => .new type (markExprs f arguments) span
  | .assign target operator value span =>
    .assign (target.markProceeds f) operator (value.markProceeds f) span
  | .binary left operator right span =>
    .binary (left.markProceeds f) operator (right.markProceeds f) span
  | .unary operator operand span => .unary operator (operand.markProceeds f) span
  | .conditional condition whenTrue whenFalse span =>
    .conditional (condition.markProceeds f) (whenTrue.markProceeds f)
      (whenFalse.markProceeds f) span
  | .instanceOf value type span => .instanceOf (value.markProceeds f) type span
  | .paren inner span => .paren (inner.markProceeds f) span
  | .annotationUse a => .annotationUse (a.markProceeds f)

/-- Expressions with their calls marked. -/
def markExprs (f : Factory) : List Expr → List Expr
  | [] => []
  | e :: rest => e.markProceeds f :: markExprs f rest

/-- The annotation with the calls in its members marked. -/
def AnnotationUse.markProceeds (f : Factory) : AnnotationUse → AnnotationUse
  | ⟨typeName, values, span⟩ => ⟨typeName, markValues f values, span⟩

/-- Annotation members with their calls marked. -/
def markValues (f : Factory) : List MemberValue → List MemberValue
  | [] => []
  | ⟨name, value, span⟩ :: rest => ⟨name, value.markProceeds f, span⟩ :: markValues f rest

end

theorem markExprs_eq (es : List Expr) : markExprs f es = es.map (Expr.markProceeds f) := by
  induction es with
  | nil => rfl
  | cons e es ih => rw [markExprs, ih, List.map_cons]

@[simp] theorem Expr.span_markProceeds (e : Expr) : (e.markProceeds f).span = e.span := by
  cases e with
  | send receiver => cases receiver <;> rfl
  | annotationUse a => cases a; rfl
  | _ => rfl

theorem Expr.annotationUse?_markProceeds (e : Expr) :
    (e.markProceeds f).annotationUse? = e.annotationUse?.map (AnnotationUse.markProceeds f) := by
  cases e with
  | send receiver => cases receiver <;> rfl
  | _ => rfl

mutual

theorem Expr.markProceeds_placeholder : ∀ e : Expr, e.markProceeds .placeholder = e
  | .literal .. | .name _ | .this _ | .super _ => rfl
  | .fieldAccess receiver name span =>
    congrArg (Expr.fieldAccess · name span) receiver.markProceeds_placeholder
  | .send none selector arguments span proceed => by
    rw [Expr.markProceeds, markExprs_placeholder arguments]
    simp [Factory.marksProceed]
  | .send (some receiver) selector arguments span proceed => by
    rw [Expr.markProceeds, markExprs_placeholder arguments, receiver.markProceeds_placeholder]
  | .new type arguments span => by rw [Expr.markProceeds, markExprs_placeholder arguments]
  | .assign target operator value span => by
    rw [Expr.markProceeds, target.markProceeds_placeholder, value.markProceeds_placeholder]
  | .binary left operator right span => by
    rw [Expr.markProceeds, left.markProceeds_placeholder, right.markProceeds_placeholder]
  | .unary operator operand span => by rw [Expr.markProceeds, operand.markProceeds_placeholder]
  | .conditional condition whenTrue whenFalse span => by
    rw [Expr.markProceeds, condition.markProceeds_placeholder,
      whenTrue.markProceeds_placeholder, whenFalse.markProceeds_placeholder]
  | .instanceOf value type span => by rw [Expr.markProceeds, value.markProceeds_placeholder]
  | .paren inner span => by rw [Expr.markProceeds, inner.markProceeds_placeholder]
  | .annotationUse a => congrArg Expr.annotationUse a.markProceeds_placeholder

theorem markExprs_placeholder : ∀ es : List Expr, markExprs .placeholder es = es
  | [] => rfl
  | e :: rest => by rw [markExprs, e.markProceeds_placeholder, markExprs_placeholder rest]

theorem AnnotationUse.markProceeds_placeholder :
    ∀ a : AnnotationUse, a.markProceeds .placeholder = a
  | ⟨typeName, values, span⟩ => by
    rw [AnnotationUse.markProceeds, markValues_placeholder values]

theorem markValues_placeholder : ∀ vs : List MemberValue, markValues .placeholder vs = vs
  | [] => rfl
  | ⟨name, value, span⟩ :: rest => by
    rw [markValues, value.markProceeds_placeholder, markValues_placeholder rest]

end

theorem filterMap_annotationUse?_markProceeds (es : List Expr) :
    (es.map (Expr.markProceeds f)).filterMap Expr.annotationUse? =
      (es.filterMap Expr.annotationUse?).map (AnnotationUse.markProceeds f) := by
  rw [List.filterMap_map, List.map_filterMap]
  exact congrArg (List.filterMap · es) (funext Expr.annotationUse?_markProceeds)

/-- Changing nothing in the items of a list changes nothing. -/
theorem map_eq_self {α : Type} {g : α → α} (hg : ∀ a, g a = a) (xs : List α) : xs.map g = xs := by
  rw [funext hg, List.map_id']

/-- Changing nothing in an optional item changes nothing. -/
theorem option_map_eq_self {α : Type} {g : α → α} (hg : ∀ a, g a = a) (x : Option α) :
    x.map g = x := by
  rw [funext hg, Option.map_id']

/-! ### Statements -/

/-- The parameter with the calls in its annotations marked. -/
def Parameter.markProceeds (f : Factory) (p : Parameter) : Parameter :=
  { p with annotations := p.annotations.map (AnnotationUse.markProceeds f) }

/-- The variable with the calls in its initial value and its annotations marked. -/
def LocalVariable.markProceeds (f : Factory) (v : LocalVariable) : LocalVariable :=
  { v with
    annotations := v.annotations.map (AnnotationUse.markProceeds f)
    initializer := v.initializer.map (Expr.markProceeds f) }

mutual

/-- The statement with its calls of `proceed` marked. -/
def Statement.markProceeds (f : Factory) : Statement → Statement
  | .block b => .block (b.markProceeds f)
  | .localVariable v => .localVariable (v.markProceeds f)
  | .expression value span => .expression (value.markProceeds f) span
  | .ifThen condition thenBranch none span =>
    .ifThen (condition.markProceeds f) (thenBranch.markProceeds f) none span
  | .ifThen condition thenBranch (some elseBranch) span =>
    .ifThen (condition.markProceeds f) (thenBranch.markProceeds f)
      (some (elseBranch.markProceeds f)) span
  | .whileLoop condition body span =>
    .whileLoop (condition.markProceeds f) (body.markProceeds f) span
  | .doLoop body condition span => .doLoop (body.markProceeds f) (condition.markProceeds f) span
  | .forLoop init condition update body span =>
    .forLoop (markStatements f init) (condition.map (Expr.markProceeds f))
      (update.map (Expr.markProceeds f)) (body.markProceeds f) span
  | .forEach element collection body span =>
    .forEach (element.markProceeds f) (collection.markProceeds f) (body.markProceeds f) span
  | .returning value span => .returning (value.map (Expr.markProceeds f)) span
  | .throwing value span => .throwing (value.markProceeds f) span
  | .breaking label span => .breaking label span
  | .continuing label span => .continuing label span
  | .labeled label body span => .labeled label (body.markProceeds f) span
  | .trying block catches none span =>
    .trying (block.markProceeds f) (markCatches f catches) none span
  | .trying block catches (some final) span =>
    .trying (block.markProceeds f) (markCatches f catches) (some (final.markProceeds f)) span
  | .assertion condition message span =>
    .assertion (condition.markProceeds f) (message.map (Expr.markProceeds f)) span
  | .constructorCall isSuper arguments span =>
    .constructorCall isSuper (arguments.map (Expr.markProceeds f)) span
  | .empty span => .empty span

/-- Statements with their calls marked. -/
def markStatements (f : Factory) : List Statement → List Statement
  | [] => []
  | s :: rest => s.markProceeds f :: markStatements f rest

/-- The block with its calls marked. -/
def Block.markProceeds (f : Factory) : Block → Block
  | ⟨statements, span⟩ => ⟨markStatements f statements, span⟩

/-- Handlers with their calls marked. -/
def markCatches (f : Factory) : List CatchClause → List CatchClause
  | [] => []
  | ⟨parameter, block, span⟩ :: rest =>
    ⟨parameter.markProceeds f, block.markProceeds f, span⟩ :: markCatches f rest

end

/-- The handler with its calls marked. -/
def CatchClause.markProceeds (f : Factory) (c : CatchClause) : CatchClause :=
  ⟨c.parameter.markProceeds f, c.block.markProceeds f, c.span⟩

theorem markStatements_eq (ss : List Statement) :
    markStatements f ss = ss.map (Statement.markProceeds f) := by
  induction ss with
  | nil => rfl
  | cons s ss ih => rw [markStatements, ih, List.map_cons]

theorem markCatches_eq (cs : List CatchClause) :
    markCatches f cs = cs.map (CatchClause.markProceeds f) := by
  induction cs with
  | nil => rfl
  | cons c cs ih =>
      cases c
      rw [markCatches, ih, List.map_cons]
      rfl

theorem Block.markProceeds_eq (b : Block) :
    b.markProceeds f = ⟨b.statements.map (Statement.markProceeds f), b.span⟩ := by
  cases b
  rw [Block.markProceeds, markStatements_eq]

@[simp] theorem Statement.span_markProceeds (s : Statement) : (s.markProceeds f).span = s.span := by
  cases s with
  | block b => cases b; rfl
  | ifThen _ _ elseBranch => cases elseBranch <;> rfl
  | trying _ _ final => cases final <;> rfl
  | _ => rfl

theorem Statement.markProceeds_setSpan (s : Statement) (span : Span) :
    (s.setSpan span).markProceeds f = (s.markProceeds f).setSpan span := by
  cases s with
  | block b => cases b; rfl
  | ifThen _ _ elseBranch => cases elseBranch <;> rfl
  | trying _ _ final => cases final <;> rfl
  | _ => rfl

theorem Parameter.markProceeds_placeholder (p : Parameter) : p.markProceeds .placeholder = p := by
  unfold markProceeds
  rw [map_eq_self AnnotationUse.markProceeds_placeholder]

theorem LocalVariable.markProceeds_placeholder (v : LocalVariable) :
    v.markProceeds .placeholder = v := by
  unfold markProceeds
  rw [map_eq_self AnnotationUse.markProceeds_placeholder,
    option_map_eq_self Expr.markProceeds_placeholder]

mutual

theorem Statement.markProceeds_placeholder : ∀ s : Statement, s.markProceeds .placeholder = s
  | .breaking .. | .continuing .. | .empty _ => rfl
  | .block b => congrArg Statement.block b.markProceeds_placeholder
  | .localVariable v => congrArg Statement.localVariable v.markProceeds_placeholder
  | .expression value span => by rw [Statement.markProceeds, value.markProceeds_placeholder]
  | .ifThen condition thenBranch none span => by
    rw [Statement.markProceeds, condition.markProceeds_placeholder,
      thenBranch.markProceeds_placeholder]
  | .ifThen condition thenBranch (some elseBranch) span => by
    rw [Statement.markProceeds, condition.markProceeds_placeholder,
      thenBranch.markProceeds_placeholder, elseBranch.markProceeds_placeholder]
  | .whileLoop condition body span => by
    rw [Statement.markProceeds, condition.markProceeds_placeholder, body.markProceeds_placeholder]
  | .doLoop body condition span => by
    rw [Statement.markProceeds, condition.markProceeds_placeholder, body.markProceeds_placeholder]
  | .forLoop init condition update body span => by
    rw [Statement.markProceeds, markStatements_placeholder init,
      option_map_eq_self Expr.markProceeds_placeholder,
      map_eq_self Expr.markProceeds_placeholder, body.markProceeds_placeholder]
  | .forEach element collection body span => by
    rw [Statement.markProceeds, element.markProceeds_placeholder,
      collection.markProceeds_placeholder, body.markProceeds_placeholder]
  | .returning value span => by
    rw [Statement.markProceeds, option_map_eq_self Expr.markProceeds_placeholder]
  | .throwing value span => by rw [Statement.markProceeds, value.markProceeds_placeholder]
  | .labeled label body span => by rw [Statement.markProceeds, body.markProceeds_placeholder]
  | .trying block catches none span => by
    rw [Statement.markProceeds, block.markProceeds_placeholder, markCatches_placeholder catches]
  | .trying block catches (some final) span => by
    rw [Statement.markProceeds, block.markProceeds_placeholder, markCatches_placeholder catches,
      final.markProceeds_placeholder]
  | .assertion condition message span => by
    rw [Statement.markProceeds, condition.markProceeds_placeholder,
      option_map_eq_self Expr.markProceeds_placeholder]
  | .constructorCall isSuper arguments span => by
    rw [Statement.markProceeds, map_eq_self Expr.markProceeds_placeholder]

theorem markStatements_placeholder : ∀ ss : List Statement, markStatements .placeholder ss = ss
  | [] => rfl
  | s :: rest => by
    rw [markStatements, s.markProceeds_placeholder, markStatements_placeholder rest]

theorem Block.markProceeds_placeholder : ∀ b : Block, b.markProceeds .placeholder = b
  | ⟨statements, span⟩ => by rw [Block.markProceeds, markStatements_placeholder statements]

theorem markCatches_placeholder : ∀ cs : List CatchClause, markCatches .placeholder cs = cs
  | [] => rfl
  | ⟨parameter, block, span⟩ :: rest => by
    rw [markCatches, parameter.markProceeds_placeholder, block.markProceeds_placeholder,
      markCatches_placeholder rest]

end

theorem CatchClause.markProceeds_placeholder (c : CatchClause) :
    c.markProceeds .placeholder = c := by
  cases c
  unfold markProceeds
  rw [Parameter.markProceeds_placeholder, Block.markProceeds_placeholder]

/-! ### Declarations and units -/

/-- The field with its calls of `proceed` marked. -/
def FieldDecl.markProceeds (f : Factory) (d : FieldDecl) : FieldDecl :=
  { d with
    annotations := d.annotations.map (AnnotationUse.markProceeds f)
    initializer := d.initializer.map (Expr.markProceeds f) }

/-- The initializer block with its calls marked. -/
def InitializerDecl.markProceeds (f : Factory) (d : InitializerDecl) : InitializerDecl :=
  { d with block := d.block.markProceeds f }

/-- The method with its calls marked; what an aspect construct adds to it stays. -/
def MethodDecl.markProceeds (f : Factory) (m : MethodDecl) : MethodDecl :=
  { m with
    annotations := m.annotations.map (AnnotationUse.markProceeds f)
    parameters := m.parameters.map (Parameter.markProceeds f)
    statements := m.statements.map (List.map (Statement.markProceeds f)) }

mutual

/-- The type with its calls marked; what an aspect construct adds to it stays. -/
def TypeDecl.markProceeds (f : Factory) : TypeDecl → TypeDecl
  | ⟨kind, name, modifiers, annotations, typeParameters, superclass, interfaces, members, extent,
      bodyStart, bodyEnd, extension⟩ =>
    ⟨kind, name, modifiers, annotations.map (AnnotationUse.markProceeds f), typeParameters,
      superclass, interfaces, markMembers f members, extent, bodyStart, bodyEnd, extension⟩

/-- Members with their calls marked. -/
def markMembers (f : Factory) : List Member → List Member
  | [] => []
  | m :: rest => m.markProceeds f :: markMembers f rest

/-- The member with its calls marked. -/
def Member.markProceeds (f : Factory) : Member → Member
  | .field d => .field (d.markProceeds f)
  | .method m => .method (m.markProceeds f)
  | .type t => .type (t.markProceeds f)
  | .initializer d => .initializer (d.markProceeds f)

end

/-- The unit with its calls of `proceed` marked. -/
def CompilationUnit.markProceeds (f : Factory) (u : CompilationUnit) : CompilationUnit :=
  { u with types := u.types.map (TypeDecl.markProceeds f) }

theorem markMembers_eq (ms : List Member) : markMembers f ms = ms.map (Member.markProceeds f) := by
  induction ms with
  | nil => rfl
  | cons m ms ih => rw [markMembers, ih, List.map_cons]

theorem TypeDecl.markProceeds_eq (t : TypeDecl) :
    t.markProceeds f =
      { t with
        annotations := t.annotations.map (AnnotationUse.markProceeds f)
        members := t.members.map (Member.markProceeds f) } := by
  cases t
  rw [TypeDecl.markProceeds, markMembers_eq]

theorem FieldDecl.markProceeds_placeholder (d : FieldDecl) : d.markProceeds .placeholder = d := by
  unfold markProceeds
  rw [map_eq_self AnnotationUse.markProceeds_placeholder,
    option_map_eq_self Expr.markProceeds_placeholder]

theorem InitializerDecl.markProceeds_placeholder (d : InitializerDecl) :
    d.markProceeds .placeholder = d := by
  unfold markProceeds
  rw [d.block.markProceeds_placeholder]

theorem MethodDecl.markProceeds_placeholder (m : MethodDecl) : m.markProceeds .placeholder = m := by
  unfold markProceeds
  rw [map_eq_self AnnotationUse.markProceeds_placeholder,
    map_eq_self Parameter.markProceeds_placeholder,
    option_map_eq_self (map_eq_self Statement.markProceeds_placeholder)]

mutual

theorem TypeDecl.markProceeds_placeholder : ∀ t : TypeDecl, t.markProceeds .placeholder = t
  | ⟨_, _, _, _, _, _, _, members, _, _, _, _⟩ => by
    rw [TypeDecl.markProceeds, map_eq_self AnnotationUse.markProceeds_placeholder,
      markMembers_placeholder members]

theorem markMembers_placeholder : ∀ ms : List Member, markMembers .placeholder ms = ms
  | [] => rfl
  | m :: rest => by rw [markMembers, m.markProceeds_placeholder, markMembers_placeholder rest]

theorem Member.markProceeds_placeholder : ∀ m : Member, m.markProceeds .placeholder = m
  | .field d => congrArg Member.field d.markProceeds_placeholder
  | .method m => congrArg Member.method m.markProceeds_placeholder
  | .type t => congrArg Member.type t.markProceeds_placeholder
  | .initializer d => congrArg Member.initializer d.markProceeds_placeholder

end

theorem CompilationUnit.markProceeds_placeholder (u : CompilationUnit) :
    u.markProceeds .placeholder = u := by
  unfold markProceeds
  rw [map_eq_self TypeDecl.markProceeds_placeholder]

/-! ### Nodes -/

/-- The declarator with the calls in its initial value marked. -/
def Declarator.markProceeds (f : Factory) (d : Declarator) : Declarator :=
  { d with initializer := d.initializer.map (Expr.markProceeds f) }

namespace Node

/-- The node with its calls of `proceed` marked; parts of aspect constructs stay. -/
def markProceeds (f : Factory) : Node → Node
  | .package p => .package p
  | .importDecl i => .importDecl i
  | .type t => .type (t.markProceeds f)
  | .method m => .method (m.markProceeds f)
  | .field d => .field (d.markProceeds f)
  | .initializer d => .initializer (d.markProceeds f)
  | .parameter p => .parameter (p.markProceeds f)
  | .statement s => .statement (s.markProceeds f)
  | .catchClause c => .catchClause (c.markProceeds f)
  | .declarator d => .declarator (d.markProceeds f)
  | .extraParameter e => .extraParameter e
  | .fragment part => .fragment part

theorem markProceeds_placeholder (n : Node) : n.markProceeds .placeholder = n := by
  cases n with
  | type t => exact congrArg Node.type t.markProceeds_placeholder
  | method m => exact congrArg Node.method m.markProceeds_placeholder
  | field d => exact congrArg Node.field d.markProceeds_placeholder
  | initializer d => exact congrArg Node.initializer d.markProceeds_placeholder
  | parameter p => exact congrArg Node.parameter p.markProceeds_placeholder
  | statement s => exact congrArg Node.statement s.markProceeds_placeholder
  | catchClause c => exact congrArg Node.catchClause c.markProceeds_placeholder
  | declarator d =>
      simp only [markProceeds, Declarator.markProceeds,
        option_map_eq_self Expr.markProceeds_placeholder]
  | _ => rfl

theorem allowsRepair_markProceeds (n : Node) :
    f.allowsRepair (n.markProceeds f) = f.allowsRepair n := by
  cases f with
  | placeholder => rfl
  | aspects =>
      cases n with
      | type t => cases t; rfl
      | _ => rfl

theorem member?_markProceeds (n : Node) :
    (n.markProceeds f).member? = n.member?.map (Member.markProceeds f) := by
  cases n <;> rfl

theorem asTypeDecl?_markProceeds (n : Node) :
    Work.asTypeDecl? (n.markProceeds f) = (Work.asTypeDecl? n).map (TypeDecl.markProceeds f) := by
  cases n <;> rfl

theorem asMethod?_markProceeds (n : Node) :
    Work.asMethod? (n.markProceeds f) = (Work.asMethod? n).map (MethodDecl.markProceeds f) := by
  cases n <;> rfl

theorem asParameter?_markProceeds (n : Node) :
    Work.asParameter? (n.markProceeds f) =
      (Work.asParameter? n).map (Parameter.markProceeds f) := by
  cases n <;> rfl

theorem asDeclarator?_markProceeds (n : Node) :
    Work.asDeclarator? (n.markProceeds f) =
      (Work.asDeclarator? n).map (Declarator.markProceeds f) := by
  cases n <;> rfl

theorem asStatement?_markProceeds (n : Node) :
    Work.asStatement? (n.markProceeds f) =
      (Work.asStatement? n).map (Statement.markProceeds f) := by
  cases n <;> rfl

theorem asCatchClause?_markProceeds (n : Node) :
    Work.asCatchClause? (n.markProceeds f) =
      (Work.asCatchClause? n).map (CatchClause.markProceeds f) := by
  cases n <;> rfl

theorem asImport?_markProceeds (n : Node) :
    Work.asImport? (n.markProceeds f) = (Work.asImport? n).map id := by
  cases n <;> rfl

theorem asPackage?_markProceeds (n : Node) :
    Work.asPackage? (n.markProceeds f) = (Work.asPackage? n).map id := by
  cases n <;> rfl

end Node

theorem Statement.asBlock?_markProceeds (s : Statement) :
    Work.asBlock? (s.markProceeds f) = (Work.asBlock? s).map (Block.markProceeds f) := by
  cases s with
  | ifThen _ _ elseBranch => cases elseBranch <;> rfl
  | trying _ _ final => cases final <;> rfl
  | _ => rfl

end AspectLang
