import AspectLang.Tree.Declaration

/-! # Ranges that nest

The parts of an expression, a statement or a handler are the expressions, statements and handlers
directly in it.  A part is `Nested` when its range holds the ranges of its parts, these are nested
themselves, and the parts of an expression stand one behind the other, `gap` bytes apart or more:
ranges include both ends, so with a gap of one they are disjoint.  The `outermost` statements of a
unit are those of its methods and the blocks of its initializers; every other statement or
expression in a body is in one of them. -/

namespace AspectLang

/-- A range lies in another one, and is not turned around. -/
def Span.Holds (s t : Span) : Prop := s.start ≤ t.start ∧ t.start ≤ t.stop ∧ t.stop ≤ s.stop

/-- A range is not turned around, and ends before or at an offset. -/
def Span.EndsBy (limit : Nat) (s : Span) : Prop := s.start ≤ s.stop ∧ s.stop ≤ limit

/-- A range begins at least `gap` bytes behind the last byte of another one. -/
def Span.Precedes (gap : Nat) (s t : Span) : Prop := s.stop + gap ≤ t.start

/-- An expression, a statement or a handler of exceptions. -/
inductive Part where
  | expr (value : Expr)
  | statement (statement : Statement)
  | handler (handler : CatchClause)

/-! ### Parts -/

/-- The expressions directly in an expression, in the order of the text. -/
def Expr.parts : Expr → List Expr
  | .literal _ _ _ | .name _ | .this _ | .super _ => []
  | .fieldAccess receiver _ _ => [receiver]
  | .send receiver _ arguments _ _ => receiver.toList ++ arguments
  | .new _ arguments _ => arguments
  | .assign target _ value _ => [target, value]
  | .binary left _ right _ => [left, right]
  | .unary _ operand _ => [operand]
  | .conditional condition whenTrue whenFalse _ => [condition, whenTrue, whenFalse]
  | .instanceOf value _ _ => [value]
  | .paren inner _ => [inner]
  | .annotationUse a => a.values.map (·.value)

/-- The words of an expression that is a name. -/
def Expr.words : Expr → List Identifier
  | .name n => n.segments
  | _ => []

/-- Annotations as parts. -/
def annotationParts (annotations : List AnnotationUse) : List Part :=
  annotations.map fun a => .expr (.annotationUse a)

/-- An expression as a part, if there is one. -/
def optionalPart (e : Option Expr) : List Part := e.toList.map .expr

/-- The annotations and the initial value of a local variable. -/
def LocalVariable.parts (v : LocalVariable) : List Part :=
  annotationParts v.annotations ++ optionalPart v.initializer

/-- What is directly in a statement; a block that belongs to a statement is one itself. -/
def Statement.parts : Statement → List Part
  | .block b => b.statements.map .statement
  | .localVariable v => v.parts
  | .expression value _ | .throwing value _ => [.expr value]
  | .ifThen condition thenBranch elseBranch _ =>
    .expr condition :: .statement thenBranch :: elseBranch.toList.map .statement
  | .whileLoop condition body _ => [.expr condition, .statement body]
  | .doLoop body condition _ => [.statement body, .expr condition]
  | .forLoop init condition update body _ =>
    init.map .statement ++ optionalPart condition ++ update.map .expr ++ [.statement body]
  | .forEach element collection body _ =>
    element.parts ++ [.expr collection, .statement body]
  | .returning value _ => optionalPart value
  | .labeled _ body _ => [.statement body]
  | .trying body catches final _ =>
    .statement (.block body) :: catches.map .handler ++
      final.toList.map fun b => .statement (.block b)
  | .assertion condition message _ => .expr condition :: optionalPart message
  | .constructorCall _ arguments _ => arguments.map .expr
  | .breaking _ _ | .continuing _ _ | .empty _ => []

namespace Part

/-- The range of a part. -/
def span : Part → Span
  | .expr e => e.span
  | .statement s => s.span
  | .handler c => c.span

/-- What is directly in a part. -/
def parts : Part → List Part
  | .expr e => e.parts.map .expr
  | .statement s => s.parts
  | .handler c => annotationParts c.parameter.annotations ++ [.statement (.block c.block)]

/-- The words directly in a part. -/
def words : Part → List Identifier
  | .expr e => e.words
  | _ => []

/-- Whether a part is an expression. -/
def isExpr : Part → Bool
  | .expr _ => true
  | _ => false

/-- The ranges in a part nest: it holds its words and its parts, which nest, and the parts of an
expression are in the order of the text, `gap` bytes apart. -/
inductive Nested (gap : Nat) : Part → Prop
  | intro {p : Part} (words : ∀ w ∈ p.words, p.span.Holds w.span)
      (holds : ∀ q ∈ p.parts, p.span.Holds q.span)
      (apart : p.isExpr = true → p.parts.Pairwise fun a b => a.span.Precedes gap b.span)
      (parts : ∀ q ∈ p.parts, q.Nested gap) : p.Nested gap

namespace Nested

variable {gap : Nat} {p q : Part}

theorem holds_word (h : p.Nested gap) {w : Identifier} (hw : w ∈ p.words) :
    p.span.Holds w.span := by
  cases h with
  | intro words _ _ _ => exact words w hw

theorem holds_part (h : p.Nested gap) (hq : q ∈ p.parts) : p.span.Holds q.span := by
  cases h with
  | intro _ holds _ _ => exact holds q hq

theorem part (h : p.Nested gap) (hq : q ∈ p.parts) : q.Nested gap := by
  cases h with
  | intro _ _ _ parts => exact parts q hq

end Nested

end Part

/-! ### Ranges in a text -/

namespace Span

variable {s t u : Span} {gap limit : Nat}

theorem Holds.trans (h : s.Holds t) (h' : t.Holds u) : s.Holds u :=
  ⟨Nat.le_trans h.1 h'.1, h'.2.1, Nat.le_trans h'.2.2 h.2.2⟩

theorem holds_self (h : s.start ≤ s.stop) : s.Holds s := ⟨Nat.le_refl _, h, Nat.le_refl _⟩

theorem Holds.merge (h : s.Holds t) (h' : s.Holds u) : s.Holds (t.merge u) := by
  unfold Holds Span.merge at *
  dsimp only
  omega

theorem Holds.endsBy (h : s.Holds t) (hs : s.EndsBy limit) : t.EndsBy limit :=
  ⟨h.2.1, Nat.le_trans h.2.2 hs.2⟩

theorem endsBy_point {offset : Nat} (h : offset ≤ limit) : (point offset).EndsBy limit :=
  ⟨Nat.le_refl _, h⟩

theorem EndsBy.merge (h : s.EndsBy limit) (h' : t.EndsBy limit) : (s.merge t).EndsBy limit := by
  unfold EndsBy Span.merge at *
  dsimp only
  omega

/-- The hull of ranges is the range of the first and the last of them. -/
theorem exists_of_hull {spans : List Span} (h : hull spans = some s) :
    ∃ first ∈ spans, ∃ last ∈ spans, s = first.merge last := by
  cases spans with
  | nil => cases h
  | cons first rest =>
      refine ⟨first, List.mem_cons_self, _, ?_, (Option.some.inj h).symm⟩
      rw [List.getLastD_eq_getLast?, List.getLast?_eq_some_getLast (List.cons_ne_nil first rest)]
      exact List.getLast_mem _

theorem endsBy_hull {spans : List Span} (h : ∀ s ∈ spans, s.EndsBy limit)
    (hull : hull spans = some s) : s.EndsBy limit := by
  obtain ⟨first, hfirst, last, hlast, rfl⟩ := exists_of_hull hull
  exact (h first hfirst).merge (h last hlast)

end Span

/-- What nests in a text that ends at `limit` has its ranges there. -/
theorem Part.Nested.endsBy {gap limit : Nat} {p q : Part} (h : p.Nested gap)
    (hp : p.span.EndsBy limit) (hq : q ∈ p.parts) : q.span.EndsBy limit :=
  (h.holds_part hq).endsBy hp

/-! ### Statements of a unit -/

mutual

/-- The outermost statements in a type. -/
def TypeDecl.outermost : TypeDecl → List Statement
  | ⟨_, _, _, _, _, _, _, members, _, _, _, _⟩ => outermostOf members

/-- The outermost statements in members. -/
def outermostOf : List Member → List Statement
  | [] => []
  | m :: rest => m.outermost ++ outermostOf rest

/-- The outermost statements in a member: those of a method, and the block of an initializer. -/
def Member.outermost : Member → List Statement
  | .field _ => []
  | .method m => m.statements.getD []
  | .type t => t.outermost
  | .initializer i => [.block i.block]

end

/-- The outermost statements in a unit. -/
def CompilationUnit.outermost (u : CompilationUnit) : List Statement :=
  u.types.flatMap TypeDecl.outermost

namespace Member

theorem outermost_field (f : FieldDecl) : (Member.field f).outermost = [] := rfl

theorem outermost_method (m : MethodDecl) :
    (Member.method m).outermost = m.statements.getD [] := rfl

theorem outermost_type (t : TypeDecl) : (Member.type t).outermost = t.outermost := rfl

theorem outermost_initializer (i : InitializerDecl) :
    (Member.initializer i).outermost = [.block i.block] := rfl

end Member

theorem TypeDecl.outermost_eq (t : TypeDecl) : t.outermost = outermostOf t.members := by
  cases t
  rw [outermost]

theorem mem_outermostOf {members : List Member} {s : Statement} :
    s ∈ outermostOf members ↔ ∃ m ∈ members, s ∈ m.outermost := by
  induction members with
  | nil => simp [outermostOf]
  | cons m rest ih => simp [outermostOf, ih]

end AspectLang
