import AspectLang.Proofs.Parse.BaseActions
import AspectLang.Proofs.Parse.Layouts

/-! # Where the actions of the base language put what they build

One lemma per action: where the values of its right side lie in a region, the value of its left
side lies there too (`Places`).  A header begins a declaration, and what follows draws it out; what
closes it leaves it `whole`.  Five actions compare the ends of their parts: for these the parts
have regions of their own, one behind the other. -/

namespace AspectLang

/-! ### Extents that grow -/

theorem Extent.nested_iff {e : Extent} : e.nested = true ↔
    e.name.start ≤ e.name.stop ∧ e.declaration.start ≤ e.name.start ∧
      e.name.stop ≤ e.declaration.stop := by
  simp [Extent.nested, and_assoc]

namespace Member

variable {r : Region}

theorem stands_of_extent {m : Member} (hextents : m.extents = [m.extent])
    (hnested : m.extent.nested = true) (hstart : r.lo ≤ m.extent.declaration.start)
    (hname : m.extent.name.stop ≤ r.hi) : m.Stands r :=
  ⟨nested_of_extents hextents hnested, hstart, hname⟩

/-- A method may be changed, and end elsewhere, as long as its name lies in it. -/
theorem Stands.method {m m' : MethodDecl} (h : Stands r (.method m))
    (hname : m'.extent.name = m.extent.name)
    (hstart : m'.extent.declaration.start = m.extent.declaration.start)
    (hstop : m.extent.name.stop ≤ m'.extent.declaration.stop) : Stands r (.method m') := by
  have hnested := Extent.nested_iff.mp h.nested.extent
  refine stands_of_extent rfl (Extent.nested_iff.mpr ?_) ?_ ?_
  · change m'.extent.name.start ≤ m'.extent.name.stop ∧
      m'.extent.declaration.start ≤ m'.extent.name.start ∧
      m'.extent.name.stop ≤ m'.extent.declaration.stop
    rw [hname, hstart]
    exact ⟨hnested.1, hnested.2.1, hstop⟩
  · change r.lo ≤ m'.extent.declaration.start
    rw [hstart]
    exact h.start
  · change m'.extent.name.stop ≤ r.hi
    rw [hname]
    exact h.name

theorem Stands.of_extent {m m' : MethodDecl} (h : Stands r (.method m))
    (hextent : m'.extent = m.extent) : Stands r (.method m') := by
  refine h.method (by rw [hextent]) (by rw [hextent]) ?_
  rw [hextent]
  exact (Extent.nested_iff.mp h.nested.extent).2.2

/-- A type may be changed, and end elsewhere, as long as its name lies in it. -/
theorem Stands.type {t t' : TypeDecl} (h : Stands r (.type t))
    (hmembers : ∀ m ∈ t'.members, m.Nested) (hname : t'.extent.name = t.extent.name)
    (hstart : t'.extent.declaration.start = t.extent.declaration.start)
    (hstop : t.extent.name.stop ≤ t'.extent.declaration.stop) : Stands r (.type t') := by
  have hnested := Extent.nested_iff.mp h.nested.extent
  refine ⟨nested_type (Extent.nested_iff.mpr ?_) hmembers, ?_, ?_⟩
  · rw [hname, hstart]
    exact ⟨hnested.1, hnested.2.1, hstop⟩
  · change r.lo ≤ t'.extent.declaration.start
    rw [hstart]
    exact h.start
  · change t'.extent.name.stop ≤ r.hi
    rw [hname]
    exact h.name

theorem Stands.of_type {t t' : TypeDecl} (h : Stands r (.type t)) (hmembers : t'.members = t.members)
    (hextent : t'.extent = t.extent) : Stands r (.type t') := by
  refine h.type (fun m hm => h.nested.of_mem ?_) (by rw [hextent]) (by rw [hextent]) ?_
  · rw [← hmembers]
    exact hm
  · rw [hextent]
    exact (Extent.nested_iff.mp h.nested.extent).2.2

theorem Stands.reachTo {t : TypeDecl} (h : Stands r (.type t)) (stop : Nat) :
    Stands r (.type (Work.reachTo stop t)) := by
  have hstop := (Extent.nested_iff.mp h.nested.extent).2.2
  exact h.type (fun m hm => h.nested.of_mem hm) rfl rfl (Nat.le_trans hstop (Nat.le_max_left ..))

end Member

namespace Work

open Profile

/-! ### Headers -/

section

variable {r : Region} {modifiers : WrittenModifiers}

theorem extent_nested_of_head {name : Span} (hname : r.Holds name) :
    Extent.nested ⟨name, ⟨min modifiers.start name.start, name.stop⟩⟩ = true :=
  Extent.nested_iff.mpr ⟨hname.2.1, Nat.min_le_right .., Nat.le_refl _⟩

theorem has_headType {name : Identifier} {t : TypeDecl} (hname : r.Holds name.span)
    (hmodifiers : r.lo ≤ modifiers.start) (ht : t.members = []) :
    NodePlace.Has ⟨r, false⟩ (.type (headType name modifiers t)) := by
  refine .of_lies ⟨Member.nested_type (extent_nested_of_head hname) fun m hm => ?_,
    Nat.le_min.mpr ⟨hmodifiers, hname.1⟩, hname.2.2⟩
  change m ∈ t.members at hm
  rw [ht] at hm
  cases hm

theorem has_headMethod {name : Span} {m : MethodDecl} (hname : r.Holds name)
    (hmodifiers : r.lo ≤ modifiers.start) :
    NodePlace.Has ⟨r, false⟩ (.method (headMethod name modifiers m)) :=
  .of_lies (Member.stands_of_extent rfl (extent_nested_of_head hname)
    (Nat.le_min.mpr ⟨hmodifiers, hname.1⟩) hname.2.2)

end

/-- A step turns the values of a row of symbols into others, and keeps them in a region. -/
def Places (r : Region) (whole : Bool) (a : Work Unit) (takes : List Profile) (gives : Profile)
    (leaves : Bool) : Prop :=
  ∀ w frame, w.Lies (Layout.followed r whole frame takes) →
    Yields w a fun _ w' => w'.Lies ((gives.placed r leaves).atop frame)

variable {c : Handle} {r : Region} {whole leaves : Bool}

/-! ### Lists -/

theorem places_concatNodes {k : NodeRole} {below top : Count} :
    Places r whole (onStacks (.onNodes SegmentStack.concat)) [node k below, node k top]
      (node k (top.plus below)) whole := by
  intro w frame h
  refine (yields_onNodes (P := fun _ => True) h fun _ s hok => ?_).mono fun _ _ => And.right
  exact ⟨trivial, h.nodes.of_concat hok⟩

theorem places_concatExprs {k : ExprRole} {below top : Count} :
    Places r whole (onStacks (.onExprs SegmentStack.concat)) [expr k below, expr k top]
      (expr k (top.plus below)) leaves := by
  intro w frame h
  refine (yields_onExprs (P := fun _ => True) h fun _ s hok => ?_).mono fun _ _ => And.right
  exact ⟨trivial, h.exprs.of_concat hok⟩

theorem places_concatTypes {k : TypeRole} {below top : Count} :
    Places r whole (onStacks (.onTypes SegmentStack.concat)) [type k below, type k top]
      (type k (top.plus below)) leaves := by
  intro w frame h
  refine (yields_onTypes (P := fun _ => True) h fun _ s hok => ?_).mono fun _ _ => And.right
  exact ⟨trivial, h.types.of_concat hok⟩

theorem places_concatIdentifiers {below top : Count} :
    Places r whole (onStacks (.onIdentifiers SegmentStack.concat)) [word below, word top]
      (word (top.plus below)) leaves := by
  intro w frame h
  refine (yields_onIdentifiers (P := fun _ => True) h fun _ s hok => ?_).mono fun _ _ => And.right
  exact ⟨trivial, h.identifiers.of_concat hok⟩

/-! ### Compilation units -/

theorem contained_of_asTypeDecl? {n : Node} {t : TypeDecl} (hn : NodePlace.Has ⟨r, true⟩ n)
    (h : asTypeDecl? n = some t) : Member.Nested (.type t) ∧ Member.Owns (.type t) := by
  cases n <;> cases h
  exact ⟨Member.Stands.nested hn.lies, Member.Ends.owns (hn.whole rfl)⟩

theorem places_compilationUnit :
    Places r true (compilationUnit c)
      [node .package .optional, node .importDecl .many, node .type .many] { unit := true }
      leaves := by
  intro w frame h
  refine .chain (yields_popNodesAs (fun _ _ => contained_of_asTypeDecl?) h) fun types _ h => ?_
  refine .chain (yields_popNodesAs (P := fun _ => True) (fun _ _ _ _ => trivial) h.2)
    fun imports _ himports => ?_
  refine .bind (yields_popOptionalNode himports.2) fun package _ hpackage => ?_
  have hfinish : ∀ (found : Option PackageDecl) w', w'.Lies frame →
      Yields w' (modify fun w => { w with unit := some ⟨found, imports, types, c.whole⟩ })
        fun _ w' => w'.Lies ((placed { unit := true } r leaves).atop frame) := by
    intro found w' hw' _ w'' hok
    cases hok
    refine ⟨hw'.nodes, hw'.exprs, hw'.identifiers, hw'.types, hw'.ints, fun u hu => ?_⟩
    obtain rfl := Option.some.inj hu
    exact h.1
  cases package with
  | none => exact .pure_bind (hfinish none _ hpackage)
  | some n => exact .bind (.map (yields_expectNode fun _ _ => hpackage)) hfinish

theorem places_packageDecl : Places r whole (packageDecl c) [word .some] (node .package) leaves := by
  intro w frame h
  refine .bind (yields_popName h) fun _ _ h => ?_
  exact yields_pushNode h.2 ⟨trivial, fun _ => trivial⟩

theorem places_importDecl {isStatic onDemand : Bool} :
    Places r whole (importDecl isStatic onDemand c) [word .some] (node .importDecl) leaves := by
  intro w frame h
  refine .bind (yields_popName h) fun _ _ h => ?_
  exact yields_pushNode h.2 ⟨trivial, fun _ => trivial⟩

/-! ### Types -/

theorem places_namedType : Places r whole namedType [word .some] type leaves := by
  intro w frame h
  refine .bind (yields_popName h) fun _ _ h => ?_
  exact yields_pushType h.2 h.1

theorem places_qualifiedGenericType (hwhole : r.Holds c.whole) :
    Places r whole (qualifiedGenericType c) [type, word .some] type leaves := by
  intro w frame h
  refine .bind (yields_popName h) fun _ _ h => ?_
  refine .bind (yields_popType h.2) fun _ _ h => ?_
  exact yields_pushType h.2 hwhole

theorem places_genericType (hwhole : r.Holds c.whole) :
    Places r whole (genericType c) [type, type .argument .many] type leaves := by
  intro w frame h
  refine .bind (yields_popTypeArguments h) fun _ _ h => ?_
  refine .bind (yields_popType h) fun _ _ h => ?_
  exact yields_pushType h.2 hwhole

theorem places_arrayType (hwhole : r.Holds c.whole) :
    Places r whole (arrayType c) [type, int] type leaves := by
  intro w frame h
  refine .bind (yields_popAnyInt h) fun _ _ h => ?_
  refine .bind (yields_popType h) fun _ _ h => ?_
  exact yields_pushType h.2 hwhole

theorem places_dimsMore :
    Places r whole (discard (onStacks (StackM.addInt 1))) [int] int leaves := by
  intro w frame h b w' hok
  have hints := h.ints
  unfold onStacks StackM.addInt at hok
  cases hvalues : w.values.ints with
  | nil =>
      rw [hvalues] at hints
      cases hints
  | cons n ints =>
      simp only [discard, Functor.discard, Functor.mapConst, EStateM.map, hvalues, Function.comp,
        Function.const] at hok
      rw [hvalues] at hints
      cases hok
      cases hints with
      | cons _ hrest =>
          exact ⟨h.nodes, h.exprs, h.identifiers, h.types, .cons trivial hrest, h.unit⟩

theorem places_wildcard {kind : WildcardKind} :
    Places r whole (wildcard kind c) [provided (kind ≠ .unbound) type] (type .argument) leaves := by
  intro w frame h
  cases kind with
  | unbound => exact .pure_bind (yields_pushTypeNode h trivial)
  | upper | lower =>
      have hbound : Yields w (some <$> popType) fun _ w' => w'.Lies frame :=
        .map ((yields_popType h).mono fun _ _ => And.right)
      exact .bind hbound fun _ _ h => yields_pushTypeNode h trivial

theorem places_typeParameter {bounded additional : Bool} :
    Places r whole (typeParameter bounded additional c)
      [word, provided bounded type, provided additional (type .type .many)]
      (type .parameter) leaves := by
  intro w frame h
  have hname : ∀ (bounds : List TypeRef) w', w'.Lies ((word.placed r whole).atop frame) →
      Yields w' (do
        let name ← popIdentifier
        pushTypeNode (.parameter ⟨name.name, bounds, c.whole⟩))
        fun _ w' => w'.Lies (((type .parameter).placed r leaves).atop frame) := by
    intro bounds w' h
    refine .bind (yields_popIdentifier h) fun _ _ h => ?_
    exact yields_pushTypeNode h.2 trivial
  have hbound : ∀ (more : List TypeRef) w',
      w'.Lies (((provided bounded type).placed r whole).atop ((word.placed r whole).atop frame)) →
      Yields w' (do
        let bounds ← if bounded then (· :: more) <$> popType else pure more
        let name ← popIdentifier
        pushTypeNode (.parameter ⟨name.name, bounds, c.whole⟩))
        fun _ w' => w'.Lies (((type .parameter).placed r leaves).atop frame) := by
    intro more w' h
    cases bounded with
    | false => exact .pure_bind (hname more w' h)
    | true => exact .bind (.map ((yields_popType h).mono fun _ _ => And.right)) hname
  cases additional with
  | false => exact .pure_bind (hbound [] w h)
  | true => exact .bind ((yields_popTypes h).mono fun _ _ => And.right) hbound

/-! ### Annotations -/

theorem places_annotationMarker :
    Places r whole (annotationMarker c) [word .some] (expr .annotationUse) leaves := by
  intro w frame h
  refine .bind (yields_popName h) fun _ _ h => ?_
  exact yields_pushExpr h.2 trivial

theorem places_annotationSingleMember :
    Places r whole (annotationSingleMember c) [word .some, expr] (expr .annotationUse) leaves := by
  intro w frame h
  refine .bind (yields_popExpr h) fun _ _ h => ?_
  refine .bind (yields_popName h.2) fun _ _ h => ?_
  exact yields_pushExpr h.2 trivial

/-! ### Declarations -/

theorem places_typeHeaderName {kind : TypeKind} {typeParameters : Bool} :
    Places r whole (typeHeaderName kind typeParameters)
      [modifiers, word, provided typeParameters (type .parameter .many)] (node .type) false := by
  intro w frame h
  refine .bind (yields_popTypeParameters h) fun _ _ h => ?_
  refine .bind (yields_popIdentifier h) fun _ _ hname => ?_
  refine .bind (yields_popModifiers hname.2) fun _ _ h => ?_
  exact yields_pushNode h.2 (has_headType hname.1 h.1 rfl)

theorem places_superclass : Places r whole superclass [node .type, type] (node .type) false := by
  intro w frame h
  refine .bind (yields_popType h) fun type _ h => ?_
  refine yields_updateType h.2 fun t ht => .of_lies ?_
  exact (Member.Stands.reachTo ht.lies type.span.stop).of_type rfl rfl

theorem places_interfaces :
    Places r whole interfaces [node .type, type .type .many] (node .type) false := by
  intro w frame h
  refine .bind (yields_popTypes h) fun types _ h => ?_
  refine yields_updateType h.2 fun t ht => .of_lies ?_
  dsimp only
  split
  · rename_i last _
    exact (Member.Stands.reachTo ht.lies last.span.stop).of_type rfl rfl
  · exact Member.Stands.of_type ht.lies rfl rfl

theorem yields_reportVoid {w : Workspace} {l : Layout} {t : TypeRef}
    {declarators : List Declarator} (h : w.Lies l) :
    Yields w (reportVoid t declarators) fun _ w' => w'.Lies l := by
  unfold reportVoid
  split
  · induction declarators generalizing w with
    | nil => exact .pure h
    | cons d declarators ih => exact .bind (yields_report h) fun _ _ h => ih h
  · exact .pure h

theorem places_declaratorId :
    Places r whole (declaratorId c) [word, int] (node .declarator) leaves := by
  intro w frame h
  refine .bind (yields_popAnyInt h) fun _ _ h => ?_
  refine .bind (yields_popIdentifier h) fun _ _ h => ?_
  exact yields_pushNode h.2 ⟨h.1, fun _ => trivial⟩

theorem places_declaratorInitializer :
    Places r whole declaratorInitializer [node .declarator, expr] (node .declarator) leaves := by
  intro w frame h
  refine .bind (yields_popExpr h) fun _ _ h => ?_
  refine .chain (yields_peekAs (fun _ _ => holds_of_asDeclarator?) h.2) fun d _ h => ?_
  exact yields_replaceTop h.2 ⟨h.1, fun _ => trivial⟩

theorem places_methodHeaderName {typeParameters : Bool} :
    Places r whole (methodHeaderName typeParameters)
      [modifiers, provided typeParameters (type .parameter .many), type, word] (node .method)
      false := by
  intro w frame h
  refine .bind (yields_popIdentifier h) fun _ _ hname => ?_
  refine .bind (yields_popType hname.2) fun _ _ h => ?_
  refine .bind (yields_popTypeParameters h.2) fun _ _ h => ?_
  refine .bind (yields_popModifiers h) fun _ _ h => ?_
  exact yields_pushNode h.2 (has_headMethod hname.1 h.1)

theorem places_constructorHeaderName :
    Places r whole constructorHeaderName [modifiers, word] (node .method) false := by
  intro w frame h
  refine .bind (yields_popIdentifier h) fun _ _ hname => ?_
  refine .bind (yields_popModifiers hname.2) fun _ _ h => ?_
  exact yields_pushNode h.2 (has_headMethod hname.1 h.1)

theorem places_methodHeader (hstop : c.whole.stop = r.hi) :
    Places r whole (methodHeader c) [node .method, node .parameter .many, type .type .many]
      (node .method) false := by
  intro w frame h
  refine .bind (yields_popTypes h) fun _ _ h => ?_
  refine .bind (yields_popParameters h.2) fun _ _ h => ?_
  refine yields_updateMethod h fun m hm => .of_lies (Member.Stands.method hm.lies rfl rfl ?_)
  exact hstop ▸ hm.lies.name

theorem places_formalParameter {hasModifiers varargs : Bool} :
    Places r whole (formalParameter hasModifiers varargs c)
      [provided hasModifiers modifiers, type, node .declarator] (node .parameter) leaves := by
  intro w frame h
  refine .bind (yields_popDeclarator h) fun _ _ h => ?_
  refine .bind (yields_popType h.2) fun _ _ h => ?_
  refine .bind (yields_popModifiersIf h.2) fun _ _ h => ?_
  exact yields_pushNode h ⟨trivial, fun _ => trivial⟩

/-! ### Statements -/

theorem places_emptyMethodBody (hspan : r.Holds (c.span 0)) :
    Places r whole (pushStatement (.empty (c.span 0))) [] (node .statement) true :=
  fun _ _ h => yields_pushNode h ⟨trivial, fun _ => hspan⟩

theorem places_blockStatement (hwhole : r.Holds c.whole) :
    Places r whole (blockStatement c) [node .statement .many] (node .block) true := by
  intro w frame h
  refine .bind (yields_popStatements h) fun _ _ h => ?_
  exact yields_pushNode h ⟨trivial, fun _ => hwhole⟩

theorem places_localVariables {hasModifiers : Bool} :
    Places r whole (localVariables hasModifiers c)
      [provided hasModifiers modifiers, type, node .declarator .many] (node .statement .many)
      false := by
  intro w frame h
  refine .bind (yields_popDeclarators h) fun _ _ h => ?_
  refine .bind (yields_popType h.2) fun _ _ h => ?_
  refine .bind (yields_popModifiersIf h.2) fun _ _ h => ?_
  refine .bind (yields_reportVoid h) fun _ _ h => yields_pushNodes h fun n hn => ?_
  obtain ⟨d, _, rfl⟩ := List.mem_map.mp hn
  exact .of_lies trivial

theorem at_endAt {n : Node} {stop : Nat} (h : n.At r) : (endAt stop n).At r := by
  cases n with
  | statement _ => trivial
  | _ => exact h

theorem places_localVariablesStatement :
    Places r whole (localVariablesStatement c) [node .statement .many] (node .statement .many)
      false := by
  intro w frame h
  refine .bind (yields_popNodes h) fun ns _ h => yields_pushNodes h.2 fun n hn => ?_
  obtain ⟨m, hm, rfl⟩ := List.mem_map.mp hn
  exact .of_lies (at_endAt (h.1 m hm).lies)

theorem places_expressionStatement :
    Places r whole (expressionStatement c) [expr] (node .statement) false := by
  intro w frame h
  refine .bind (yields_popExpr h) fun _ _ h => ?_
  exact yields_pushStatement h.2

theorem places_labeledStatement :
    Places r whole (labeledStatement c) [word, node .statement] (node .statement) false := by
  intro w frame h
  refine .bind (yields_popStatement h) fun _ _ h => ?_
  refine .bind (yields_popIdentifier h.2) fun _ _ h => ?_
  exact yields_pushStatement h.2

theorem places_ifStatement {hasElse : Bool} :
    Places r whole (ifStatement hasElse c)
      [expr, node .statement, provided hasElse (node .statement)] (node .statement) false := by
  intro w frame h
  have hfinish : ∀ (elseBranch : Option Statement) w',
      w'.Lies (((node .statement).placed r whole).atop ((expr.placed r whole).atop frame)) →
      Yields w' (do
        let thenBranch ← popStatement
        let condition ← popExpr
        pushStatement (.ifThen condition thenBranch elseBranch c.whole))
        fun _ w' => w'.Lies (((node .statement).placed r false).atop frame) := by
    intro elseBranch w' h
    refine .bind (yields_popStatement h) fun _ _ h => ?_
    refine .bind (yields_popExpr h.2) fun _ _ h => ?_
    exact yields_pushStatement h.2
  cases hasElse with
  | false => exact .pure_bind (hfinish none w h)
  | true => exact .bind (.map ((yields_popStatement h).mono fun _ _ => And.right)) hfinish

theorem places_whileStatement :
    Places r whole (whileStatement c) [expr, node .statement] (node .statement) false := by
  intro w frame h
  refine .bind (yields_popStatement h) fun _ _ h => ?_
  refine .bind (yields_popExpr h.2) fun _ _ h => ?_
  exact yields_pushStatement h.2

theorem places_doStatement :
    Places r whole (doStatement c) [node .statement, expr] (node .statement) false := by
  intro w frame h
  refine .bind (yields_popExpr h) fun _ _ h => ?_
  refine .bind (yields_popStatement h.2) fun _ _ h => ?_
  exact yields_pushStatement h.2

theorem places_forStatement :
    Places r whole (forStatement c)
      [node .statement .many, expr .expr .optional, expr .expr .many, node .statement]
      (node .statement) false := by
  intro w frame h
  refine .bind (yields_popStatement h) fun _ _ h => ?_
  refine .bind (yields_popExprs h.2) fun _ _ h => ?_
  refine .bind (yields_popOptionalExpr h) fun _ _ h => ?_
  refine .bind (yields_popStatements h) fun _ _ h => ?_
  exact yields_pushStatement h

theorem places_forInitExpressions :
    Places r whole forInitExpressions [expr .expr .many] (node .statement .many) false := by
  intro w frame h
  refine .bind (yields_popExprs h) fun _ _ h => yields_pushNodes h fun n hn => ?_
  obtain ⟨e, _, rfl⟩ := List.mem_map.mp hn
  exact .of_lies trivial

theorem places_forEachStatement {hasModifiers : Bool} :
    Places r whole (forEachStatement hasModifiers c)
      [provided hasModifiers modifiers, type, word, expr, node .statement] (node .statement)
      false := by
  intro w frame h
  refine .bind (yields_popStatement h) fun _ _ h => ?_
  refine .bind (yields_popExpr h.2) fun _ _ h => ?_
  refine .bind (yields_popIdentifier h.2) fun _ _ h => ?_
  refine .bind (yields_popType h.2) fun _ _ h => ?_
  refine .bind (yields_popModifiersIf h.2) fun _ _ h => ?_
  exact yields_pushStatement h

theorem yields_popLabel {w : Workspace} {l : Layout} {present : Bool}
    (h : w.Lies (((provided present word).placed r whole).atop l)) :
    Yields w (popLabel present) fun _ w' => w'.Lies l := by
  cases present with
  | false => exact .pure h
  | true => exact .bind (yields_popIdentifier h) fun _ _ h => .pure h.2

theorem places_tryStatement {hasFinal : Bool} :
    Places r whole (tryStatement hasFinal c)
      [node .block, node .catchClause .many, provided hasFinal (node .block)]
      (node .statement) false := by
  intro w frame h
  have hfinish : ∀ (final : Option Block) w',
      w'.Lies (((node .catchClause .many).placed r whole).atop
        (((node .block).placed r whole).atop frame)) →
      Yields w' (do
        let catches ← expectNode .ast .catchClause ((← popNodes).mapM asCatchClause?)
        let block ← popBlock
        pushStatement (.trying block catches final c.whole))
        fun _ w' => w'.Lies (((node .statement).placed r false).atop frame) := by
    intro final w' h
    refine .chain (yields_popNodesAs (P := fun _ => True) (fun _ _ _ _ => trivial) h)
      fun _ _ h => ?_
    refine .bind (yields_popBlock h.2) fun _ _ h => ?_
    exact yields_pushStatement h.2
  cases hasFinal with
  | false => exact .pure_bind (hfinish none w h)
  | true => exact .bind (.map ((yields_popBlock h).mono fun _ _ => And.right)) hfinish

theorem places_catchClause :
    Places r whole (catchClause c) [node .parameter, node .block] (node .catchClause) leaves := by
  intro w frame h
  refine .bind (yields_popBlock h) fun _ _ h => ?_
  refine .bind (yields_popParameter h.2) fun _ _ h => ?_
  exact yields_pushNode h ⟨trivial, fun _ => trivial⟩

theorem places_assertStatement {hasMessage : Bool} :
    Places r whole (assertStatement hasMessage c) [expr, provided hasMessage expr]
      (node .statement) false := by
  intro w frame h
  have hfinish : ∀ (message : Option Expr) w', w'.Lies ((expr.placed r whole).atop frame) →
      Yields w' (do
        let condition ← popExpr
        pushStatement (.assertion condition message c.whole))
        fun _ w' => w'.Lies (((node .statement).placed r false).atop frame) := by
    intro message w' h
    refine .bind (yields_popExpr h) fun _ _ h => ?_
    exact yields_pushStatement h.2
  cases hasMessage with
  | false => exact .pure_bind (hfinish none w h)
  | true => exact .bind (.map ((yields_popExpr h).mono fun _ _ => And.right)) hfinish

/-! ### Expressions -/

theorem places_parenthesized : Places r whole (parenthesized c) [expr] expr leaves := by
  intro w frame h
  refine .bind (yields_popExpr h) fun _ _ h => ?_
  exact yields_pushExpr h.2 trivial

theorem places_allocation :
    Places r whole (allocation c) [type, expr .expr .many] expr leaves := by
  intro w frame h
  refine .bind (yields_popExprs h) fun _ _ h => ?_
  refine .bind (yields_popType h) fun _ _ h => ?_
  exact yields_pushExpr h.2 trivial

theorem yields_popReceiver {w : Workspace} {l : Layout} {isSuper : Bool}
    (h : w.Lies (((provided (!isSuper) expr).placed r whole).atop l)) :
    Yields w (popReceiver isSuper c) fun _ w' => w'.Lies l := by
  cases isSuper with
  | false => exact (yields_popExpr h).mono fun _ _ => And.right
  | true => exact .pure h

theorem places_fieldAccess {isSuper : Bool} :
    Places r whole (fieldAccess isSuper c) [provided (!isSuper) expr, word] expr leaves := by
  intro w frame h
  refine .bind (yields_popIdentifier h) fun _ _ h => ?_
  refine .bind (yields_popReceiver h.2) fun _ _ h => ?_
  exact yields_pushExpr h trivial

theorem places_callByName {dialect : Dialect} :
    Places r whole (callByName dialect c) [word .some, expr .expr .many] expr leaves := by
  intro w frame h
  refine .bind (yields_popExprs h) fun _ _ h => ?_
  refine .bind (yields_popIdentifiers h) fun segments _ h => ?_
  split
  · intro _ _ hok
    cases hok
  · exact yields_pushExpr h.2 trivial

theorem places_callOn {isSuper : Bool} :
    Places r whole (callOn isSuper c) [provided (!isSuper) expr, word, expr .expr .many] expr
      leaves := by
  intro w frame h
  refine .bind (yields_popExprs h) fun _ _ h => ?_
  refine .bind (yields_popIdentifier h) fun _ _ h => ?_
  refine .bind (yields_popReceiver h.2) fun _ _ h => ?_
  exact yields_pushExpr h trivial

theorem places_nameExpr : Places r whole nameExpr [word .some] expr leaves := by
  intro w frame h
  refine .bind (yields_popName h) fun _ _ h => ?_
  exact yields_pushExpr h.2 trivial

theorem places_unary {operator : UnaryOperator} :
    Places r whole (unary operator c) [expr] expr leaves := by
  intro w frame h
  refine .bind (yields_popExpr h) fun _ _ h => ?_
  exact yields_pushExpr h.2 trivial

theorem places_binary {operator : BinaryOperator} :
    Places r whole (binary operator c) [expr, expr] expr leaves := by
  intro w frame h
  refine .bind (yields_popExpr h) fun _ _ h => ?_
  refine .bind (yields_popExpr h.2) fun _ _ h => ?_
  exact yields_pushExpr h.2 trivial

theorem places_instanceOf : Places r whole (instanceOf c) [expr, type] expr leaves := by
  intro w frame h
  refine .bind (yields_popType h) fun _ _ h => ?_
  refine .bind (yields_popExpr h.2) fun _ _ h => ?_
  exact yields_pushExpr h.2 trivial

theorem places_conditional : Places r whole (conditional c) [expr, expr, expr] expr leaves := by
  intro w frame h
  refine .bind (yields_popExpr h) fun _ _ h => ?_
  refine .bind (yields_popExpr h.2) fun _ _ h => ?_
  refine .bind (yields_popExpr h.2) fun _ _ h => ?_
  exact yields_pushExpr h.2 trivial

theorem places_assignment : Places r whole (assignment c) [expr, int, expr] expr leaves := by
  intro w frame h
  refine .bind (yields_popExpr h) fun _ _ h => ?_
  refine .bind (yields_popAnyInt h.2) fun _ _ h => ?_
  refine .bind (yields_popExpr h) fun _ _ h => ?_
  exact yields_pushExpr h.2 trivial

/-! ### Declarations made of several parts -/

section

variable {w : Workspace} {l : Layout} {r₁ r₂ r₃ : Region} {covers : Bool}

/-- A declaration without modifiers starts with what follows them. -/
theorem start_bounds {m : WrittenModifiers} {start : Nat} (hlo : r.lo ≤ m.start)
    (hhi : m.isEmpty = false → m.start ≤ r.hi) (hr : r.lo ≤ r.hi) (hstart : r.hi ≤ start) :
    r.lo ≤ (if m.isEmpty then start else m.start) ∧
      (if m.isEmpty then start else m.start) ≤ start := by
  cases hempty : m.isEmpty with
  | true => exact ⟨Nat.le_trans hr hstart, Nat.le_refl _⟩
  | false => exact ⟨hlo, Nat.le_trans (hhi hempty) hstart⟩

theorem yields_fieldDecl (h : w.Lies (((node .declarator .many).placed r₃ whole).atop
      ((type.placed r₂ whole).atop ((Layout.modifiers r₁ covers).atop l))))
    (hr : r₁.lo ≤ r₁.hi) (hr₁₂ : r₁.hi ≤ r₂.lo) (hr₂₃ : r₂.hi ≤ r₃.lo)
    (hstop : r₃.hi ≤ (c.span 3).stop) :
    Yields w (fieldDecl c) fun _ w' =>
      w'.Lies (((node .member .many).placed ⟨r₁.lo, (c.span 3).stop⟩ true).atop l) := by
  refine .bind (yields_popDeclarators h) fun declarators _ hdeclarators => ?_
  refine .bind (yields_popType hdeclarators.2) fun type _ htype => ?_
  refine .bind (yields_popModifiersIn htype.2) fun modifiers _ hmodifiers => ?_
  refine .bind (yields_reportVoid hmodifiers.2) fun _ _ h => yields_pushNodes h fun n hn => ?_
  obtain ⟨d, hd, rfl⟩ := List.mem_map.mp hn
  have hname := hdeclarators.1 d hd
  obtain ⟨hlo, hstart⟩ := start_bounds hmodifiers.1.1 hmodifiers.1.2 hr
    (Nat.le_trans hr₁₂ htype.1.1)
  have hbefore : type.span.start ≤ d.name.span.start :=
    Nat.le_trans htype.1.start_le_hi (Nat.le_trans hr₂₃ hname.1)
  have hafter : d.name.span.stop ≤ (c.span 3).stop := Nat.le_trans hname.2.2 hstop
  refine ⟨Member.stands_of_extent rfl (Extent.nested_iff.mpr ?_) hlo hafter, fun _ => ?_⟩
  · exact ⟨hname.2.1, Nat.le_trans hstart hbefore, hafter⟩
  · exact ⟨Nat.le_refl _, nofun⟩

theorem yields_initializerBlock (h : w.Lies (((node .block).placed r₂ true).atop
      ((Layout.modifiers r₁ covers).atop l))) (hr : r₁.lo ≤ r₁.hi) (hr₁₂ : r₁.hi ≤ r₂.lo) :
    Yields w initializerBlock fun _ w' =>
      w'.Lies (((node .member).placed ⟨r₁.lo, r₂.hi⟩ true).atop l) := by
  refine .bind (yields_popBlock h) fun block _ hblock => ?_
  refine .bind (yields_popModifiersIn hblock.2) fun modifiers _ hmodifiers => ?_
  have hspan := hblock.1 rfl
  obtain ⟨hlo, hstart⟩ := start_bounds hmodifiers.1.1 hmodifiers.1.2 hr
    (Nat.le_trans hr₁₂ hspan.1)
  refine yields_pushNode hmodifiers.2 ⟨Member.stands_of_extent rfl (Extent.nested_iff.mpr ?_) hlo
    hspan.2.2, fun _ => ⟨hspan.2.2, nofun⟩⟩
  exact ⟨hspan.2.1, hstart, Nat.le_refl _⟩

theorem yields_methodDecl (h : w.Lies (((node .statement).placed r₂ true).atop
      (((node .method).placed r₁ whole).atop l))) (hr₁₂ : r₁.hi ≤ r₂.lo) :
    Yields w methodDecl fun _ w' =>
      w'.Lies (((node .method).placed ⟨r₁.lo, r₂.hi⟩ true).atop l) := by
  refine .bind (yields_popStatement h) fun body _ hbody => ?_
  have hspan := hbody.1 rfl
  refine yields_updateMethod hbody.2 fun m hm => ?_
  have hstop : m.extent.name.stop ≤ body.span.stop :=
    Nat.le_trans hm.lies.name (Nat.le_trans hr₁₂ hspan.lo_le_stop)
  have hstands : Member.Stands ⟨r₁.lo, r₂.hi⟩ (.method m) := Member.Stands.mono hm.lies
    ⟨Nat.le_refl _, Nat.le_trans hr₁₂ (Nat.le_trans hspan.lo_le_stop hspan.2.2)⟩
  exact ⟨hstands.method rfl rfl hstop, fun _ => ⟨hspan.2.2, nofun⟩⟩

/-- A body ends its type behind all members, and these lie behind the name. -/
theorem yields_classBody (h : w.Lies (((node .member .many).placed r₂ true).atop
      (((node .type).placed r₁ whole).atop l))) (hr₁₂ : r₁.hi ≤ r₂.lo) (hr : r₂.lo ≤ r₂.hi)
    (hstop : (c.span 2).stop = r₂.hi) :
    Yields w (classBody c) fun _ w' =>
      w'.Lies (((node .type).placed ⟨r₁.lo, r₂.hi⟩ true).atop l) := by
  have hmember : ∀ n m, NodePlace.Has ⟨r₂, true⟩ n → n.member? = some m →
      m.Stands r₂ ∧ m.Ends r₂ :=
    fun n m hn hm => ⟨hn.lies.stands hm, (hn.whole rfl).ends hm⟩
  refine .chain (yields_popNodesAs hmember h) fun members _ hmembers => ?_
  refine yields_updateType hmembers.2 fun t ht => ?_
  have hname : t.extent.name.stop ≤ r₂.lo := Nat.le_trans ht.lies.name hr₁₂
  have hnested := Extent.nested_iff.mp (Member.Stands.nested ht.lies).extent
  have hstands : Member.Stands ⟨r₁.lo, r₂.hi⟩ (.type t) := Member.Stands.mono ht.lies
    ⟨Nat.le_refl _, Nat.le_trans hr₁₂ hr⟩
  refine ⟨hstands.type (fun m hm => (hmembers.1 m hm).1.nested) rfl rfl ?_, fun _ => ?_⟩
  · exact hstop ▸ Nat.le_trans hname hr
  · refine ⟨Nat.le_of_eq hstop, fun pair hpair => ?_⟩
    rw [Member.ownerships, TypeDecl.ownerships_eq] at hpair
    obtain ⟨m, hm, rfl | hpair⟩ := mem_memberOwnerships hpair
    · -- the type starts before its name, which lies before the members
      have hstart := (hmembers.1 m hm).1.start
      have hend := (hmembers.1 m hm).2.stop
      simp only [Extent.contains, Bool.and_eq_true, decide_eq_true_eq]
      exact ⟨Nat.le_trans hnested.2.1 (Nat.le_trans hnested.1 (Nat.le_trans hname hstart)),
        hstop ▸ hend⟩
    · exact (hmembers.1 m hm).2.owns pair hpair

/-! ### Runs of modifiers -/

theorem yields_startModifiers {flag start : Nat} {f p : IntPlace} (h : w.Lies l)
    (hflag : f.Has flag) (hstart : p.Has start) :
    Yields w (startModifiers flag start) fun _ w' =>
      w'.Lies { l with ints := p :: f :: l.ints } :=
  .bind (yields_pushInt h hflag) fun _ _ h => yields_pushInt h hstart

theorem yields_emptyModifiers {start : Nat} (h : w.Lies l) (hstart : r.lo ≤ start) :
    Yields w (do startModifiers 0 start; pushNoExprs) fun _ w' =>
      w'.Lies ((Layout.modifiers r false).atop l) := by
  refine .bind (yields_startModifiers (f := .zero) (p := .offset r.lo none) h rfl
    ⟨hstart, nofun⟩) fun _ w' h => ?_
  intro _ _ hok
  cases hok
  exact ⟨h.nodes, h.exprs.pushEmpty, h.identifiers, h.types, h.ints, h.unit⟩

/-- The number of a run that covers text lies in its region. -/
theorem offset_has {start : Nat} (hlo : r.lo ≤ start) (hhi : start ≤ r.hi) :
    IntPlace.Has (.offset r.lo (some r.hi)) start := by
  refine ⟨hlo, fun bound hbound => ?_⟩
  obtain rfl := Option.some.inj hbound
  exact hhi

theorem yields_modifierKeyword {flag : Nat} {span : Span} (h : w.Lies l) (hspan : r.Holds span) :
    Yields w (do startModifiers flag span.start; pushNoExprs) fun _ w' =>
      w'.Lies ((Layout.modifiers r true).atop l) := by
  refine .bind (yields_startModifiers (f := .any) h trivial (offset_has hspan.1 hspan.start_le_hi))
    fun _ w' h => ?_
  intro _ _ hok
  cases hok
  have hnone : Shape.Fits Expr.At ⟨r, .many⟩ [] := .of_forall (by simp)
  exact ⟨h.nodes, .segment h.exprs hnone, h.identifiers, h.types, h.ints, h.unit⟩

theorem yields_annotationModifier {k : ExprRole} {span : Span}
    (h : w.Lies (((expr k).placed r whole).atop l)) (hspan : r.Holds span) :
    Yields w (startModifiers 0 span.start) fun _ w' =>
      w'.Lies ((Layout.modifiers r true).atop l) := by
  have hmany : w.Lies (((expr k .many).placed r whole).atop l) :=
    h.widen (.atop ⟨.nil, .cons ⟨rfl, .refl r⟩ .nil, .nil, .nil, .nil⟩ (.refl l))
  exact yields_startModifiers (f := .any) hmany trivial (offset_has hspan.1 hspan.start_le_hi)

theorem yields_concatModifiers (h : w.Lies ((Layout.modifiers r₂ true).atop
      ((Layout.modifiers r₁ true).atop l)))
    (hr : r₁.lo ≤ r₁.hi) (hr₁₂ : r₁.hi ≤ r₂.lo) (hr₂ : r₂.lo ≤ r₂.hi) :
    Yields w (concatModifiers c) fun _ w' =>
      w'.Lies ((Layout.modifiers ⟨r₁.lo, r₂.hi⟩ true).atop l) := by
  obtain ⟨l', hl'⟩ : ∃ l' : Layout, l' = { l with
    exprs := ⟨⟨r₁.lo, r₂.hi⟩, .many⟩ :: ⟨⟨r₁.lo, r₂.hi⟩, .many⟩ :: l.exprs } := ⟨_, rfl⟩
  have hall : w.Lies { l' with
      ints := .any :: .any :: .offset r₁.lo (some r₁.hi) :: .any :: l'.ints } := by
    subst hl'
    refine h.widen ⟨(Layout.Widens.refl _).nodes, ?_, (Layout.Widens.refl _).identifiers,
      (Layout.Widens.refl _).types, ?_⟩
    · exact .cons ⟨rfl, Nat.le_trans hr hr₁₂, Nat.le_refl _⟩
        (.cons ⟨rfl, Nat.le_refl _, Nat.le_trans hr₁₂ hr₂⟩ (Layout.Widens.refl l).exprs)
    · exact .cons (IntPlace.widens_any _) (Layout.Widens.refl
        { l with ints := .any :: .offset r₁.lo (some r₁.hi) :: .any :: l.ints }).ints
  refine .bind (yields_popInt (l := { l' with
    ints := .any :: .offset r₁.lo (some r₁.hi) :: .any :: l'.ints }) hall) fun _ _ h => ?_
  refine .bind (yields_popInt (l := { l' with
    ints := .offset r₁.lo (some r₁.hi) :: .any :: l'.ints }) h.2) fun flags _ h => ?_
  refine .bind (yields_popInt (l := { l' with ints := .any :: l'.ints }) h.2)
    fun start _ hstart => ?_
  refine .bind (yields_popInt (l := l') hstart.2) fun earlier _ h => ?_
  have hfinish : ∀ w', w'.Lies l' → Yields w' (do
      pushInt (earlier ||| flags)
      pushInt start
      onStacks (.onExprs SegmentStack.concat))
      fun _ w' => w'.Lies ((Layout.modifiers ⟨r₁.lo, r₂.hi⟩ true).atop l) := by
    subst hl'
    intro w' h
    refine .bind (yields_pushInt (k := .any) h trivial) fun _ _ h => ?_
    refine .bind (yields_pushInt (k := .offset r₁.lo (some r₂.hi)) h
      (offset_has (r := ⟨r₁.lo, r₂.hi⟩) hstart.1.1 ?_)) fun _ _ h => ?_
    · exact Nat.le_trans (hstart.1.2 r₁.hi rfl) (Nat.le_trans hr₁₂ hr₂)
    · refine (yields_onExprs (P := fun _ => True) h fun _ s hok => ?_).mono fun _ _ => And.right
      exact ⟨trivial, h.exprs.of_concat hok⟩
  split
  · exact .bind (yields_report h.2) fun _ _ h => hfinish _ h
  · exact .pure_bind (hfinish _ h.2)

end

end Work

end AspectLang
