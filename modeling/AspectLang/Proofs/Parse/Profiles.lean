import AspectLang.Proofs.Parse.PlainTexts
import AspectLang.Proofs.Parse.Segments

/-! # Profiles of the value stacks

A `Profile` lists what a run of symbols leaves on the value stacks: the shapes of the segments on
each of them, the topmost first, and the number of plain numbers.  `Work.Ensures` states that a
step of building a tree succeeds from a workspace, and what holds then; the only fault it leaves
open is a text that cannot be cut, and that one only when not all texts are plain.  Each way of
adding and taking values changes the profile as its name says. -/

namespace AspectLang

/-! ### Roles -/

/-- The parts that nodes play. -/
inductive NodeRole where
  | package | importDecl | type | method | member | parameter | statement | block | catchClause
  | declarator | extraParameter | fragment
deriving DecidableEq

/-- The parts that expressions play. -/
inductive ExprRole where
  | expr | literal | annotationUse
deriving DecidableEq

/-- The parts that the entries of the stack of types play. -/
inductive TypeRole where
  | type | argument | parameter
deriving DecidableEq

/-- A node plays a part; the literals of a fragment can be unquoted if all texts are `plain`. -/
def NodeRole.Has (plain : Prop) : NodeRole → Node → Prop
  | .package, .package _ | .importDecl, .importDecl _ | .type, .type _ | .method, .method _
  | .member, .type _ | .member, .method _ | .member, .field _ | .member, .initializer _
  | .parameter, .parameter _ | .statement, .statement _ | .block, .statement (.block _)
  | .catchClause, .catchClause _ | .declarator, .declarator _
  | .extraParameter, .extraParameter _ => True
  | .fragment, .fragment f => plain → f.Plain
  | _, _ => False

/-- An expression plays a part. -/
def ExprRole.Has (plain : Prop) : ExprRole → Expr → Prop
  | .expr, _ => True
  | .literal, .literal kind text _ => plain → kind = .string → Strippable text
  | .annotationUse, .annotationUse _ => True
  | _, _ => False

/-- An entry of the stack of types plays a part. -/
def TypeRole.Has : TypeRole → TypeNode → Prop
  | .type, .type _ | .argument, .type _ | .argument, .wildcard .. | .parameter, .parameter _ =>
    True
  | _, _ => False

/-- Identifiers play but one part. -/
def identifierHas (_ : Unit) (_ : Identifier) : Prop := True

/-- Whether every node that plays one part plays the other. -/
def NodeRole.below (k k' : NodeRole) : Bool :=
  k = k' || match k, k' with
    | .block, .statement | .type, .member | .method, .member => true
    | _, _ => false

/-- Whether every expression that plays one part plays the other. -/
def ExprRole.below (k k' : ExprRole) : Bool := k = k' || k' = .expr

/-- Whether every entry that plays one part plays the other. -/
def TypeRole.below (k k' : TypeRole) : Bool := k = k' || (k = .type && k' = .argument)

theorem NodeRole.has_of_below {plain : Prop} (k k' : NodeRole) (n : Node)
    (hbelow : k.below k' = true) (h : k.Has plain n) : k'.Has plain n := by
  unfold below at hbelow
  rcases Bool.or_eq_true_iff.mp hbelow with heq | hbelow
  · obtain rfl := of_decide_eq_true heq
    exact h
  · split at hbelow
    · cases n <;> first | exact trivial | cases h
    · cases n <;> first | exact trivial | cases h
    · cases n <;> first | exact trivial | cases h
    · cases hbelow

theorem ExprRole.has_of_below {plain : Prop} (k k' : ExprRole) (e : Expr)
    (hbelow : k.below k' = true) (h : k.Has plain e) : k'.Has plain e := by
  unfold below at hbelow
  rcases Bool.or_eq_true_iff.mp hbelow with heq | heq
  · obtain rfl := of_decide_eq_true heq
    exact h
  · obtain rfl := of_decide_eq_true heq
    exact trivial

theorem TypeRole.has_of_below (k k' : TypeRole) (n : TypeNode) (hbelow : k.below k' = true)
    (h : k.Has n) : k'.Has n := by
  unfold below at hbelow
  rcases Bool.or_eq_true_iff.mp hbelow with heq | hbelow
  · obtain rfl := of_decide_eq_true heq
    exact h
  · obtain ⟨hk, hk'⟩ := Bool.and_eq_true_iff.mp hbelow
    obtain rfl := of_decide_eq_true hk
    obtain rfl := of_decide_eq_true hk'
    cases n <;> simp_all [TypeRole.Has]

/-! ### What nodes are by their roles -/

variable {plain : Prop} {n : Node}

theorem NodeRole.exists_package (h : NodeRole.Has plain .package n) :
    ∃ x, Work.asPackage? n = some x ∧ True := by
  cases n <;> first | exact ⟨_, rfl, trivial⟩ | cases h

theorem NodeRole.exists_importDecl (h : NodeRole.Has plain .importDecl n) :
    ∃ x, Work.asImport? n = some x ∧ True := by
  cases n <;> first | exact ⟨_, rfl, trivial⟩ | cases h

theorem NodeRole.exists_type (h : NodeRole.Has plain .type n) :
    ∃ x, Work.asTypeDecl? n = some x ∧ True := by
  cases n <;> first | exact ⟨_, rfl, trivial⟩ | cases h

theorem NodeRole.exists_method (h : NodeRole.Has plain .method n) :
    ∃ x, Work.asMethod? n = some x ∧ True := by
  cases n <;> first | exact ⟨_, rfl, trivial⟩ | cases h

theorem NodeRole.exists_parameter (h : NodeRole.Has plain .parameter n) :
    ∃ x, Work.asParameter? n = some x ∧ True := by
  cases n <;> first | exact ⟨_, rfl, trivial⟩ | cases h

theorem NodeRole.exists_statement (h : NodeRole.Has plain .statement n) :
    ∃ x, Work.asStatement? n = some x ∧ True := by
  cases n <;> first | exact ⟨_, rfl, trivial⟩ | cases h

theorem NodeRole.exists_catchClause (h : NodeRole.Has plain .catchClause n) :
    ∃ x, Work.asCatchClause? n = some x ∧ True := by
  cases n <;> first | exact ⟨_, rfl, trivial⟩ | cases h

theorem NodeRole.exists_declarator (h : NodeRole.Has plain .declarator n) :
    ∃ x, Work.asDeclarator? n = some x ∧ True := by
  cases n <;> first | exact ⟨_, rfl, trivial⟩ | cases h

theorem NodeRole.exists_extraParameter (h : NodeRole.Has plain .extraParameter n) :
    ∃ x, Work.asExtraParameter? n = some x ∧ True := by
  cases n <;> first | exact ⟨_, rfl, trivial⟩ | cases h

theorem NodeRole.exists_member (h : NodeRole.Has plain .member n) :
    ∃ x, n.member? = some x ∧ True := by
  cases n <;> first | exact ⟨_, rfl, trivial⟩ | cases h

theorem NodeRole.exists_fragment (h : NodeRole.Has plain .fragment n) :
    ∃ x, Work.asFragment? n = some x ∧ (plain → x.Plain) := by
  cases n <;> first | exact ⟨_, rfl, h⟩ | cases h

/-! ### Profiles -/

/-- What a run of symbols leaves on the value stacks, the topmost first, and whether it leaves a
finished unit. -/
structure Profile where
  nodes : List (Shape NodeRole) := []
  exprs : List (Shape ExprRole) := []
  identifiers : List (Shape Unit) := []
  types : List (Shape TypeRole) := []
  ints : List Unit := []
  unit : Bool := false

namespace Profile

/-- The profile of a run on top of another one. -/
def atop (top frame : Profile) : Profile where
  nodes := top.nodes ++ frame.nodes
  exprs := top.exprs ++ frame.exprs
  identifiers := top.identifiers ++ frame.identifiers
  types := top.types ++ frame.types
  ints := top.ints ++ frame.ints
  unit := top.unit || frame.unit

/-- The profile when symbols follow, the last one on top. -/
def followed (frame : Profile) : List Profile → Profile
  | [] => frame
  | p :: ps => followed (p.atop frame) ps

/-- Nodes of a role. -/
def node (k : NodeRole) (c : Count := .one) : Profile := { nodes := [⟨k, c⟩] }

/-- Expressions. -/
def expr (k : ExprRole := .expr) (c : Count := .one) : Profile := { exprs := [⟨k, c⟩] }

/-- Types. -/
def type (k : TypeRole := .type) (c : Count := .one) : Profile := { types := [⟨k, c⟩] }

/-- An identifier, or a name of several ones. -/
def word (c : Count := .one) : Profile := { identifiers := [⟨(), c⟩] }

/-- A number. -/
def int : Profile := { ints := [()] }

/-- A run of modifiers: its annotations, its flags and where it starts. -/
def modifiers : Profile := { exprs := [⟨.expr, .many⟩], ints := [(), ()] }

/-- A part of a right side that may be absent. -/
def provided (present : Bool) (p : Profile) : Profile := cond present p {}

/-- Whether one profile may be taken for another. -/
def within (a b : Profile) : Bool :=
  Shape.allWithin NodeRole.below a.nodes b.nodes &&
    Shape.allWithin ExprRole.below a.exprs b.exprs &&
    Shape.allWithin (fun _ _ => true) a.identifiers b.identifiers &&
    Shape.allWithin TypeRole.below a.types b.types && a.ints == b.ints &&
    (a.unit || !b.unit)

end Profile

/-- The value stacks of a workspace have a profile. -/
structure Workspace.Fits (plain : Prop) (w : Workspace) (a : Profile) : Prop where
  nodes : w.values.nodes.Fits (NodeRole.Has plain) a.nodes
  exprs : w.values.exprs.Fits (ExprRole.Has plain) a.exprs
  identifiers : w.values.identifiers.Fits identifierHas a.identifiers
  types : w.values.types.Fits TypeRole.Has a.types
  ints : w.values.ints.length = a.ints.length
  unit : a.unit = true → w.unit.isSome = true

variable {w w' : Workspace}

theorem Workspace.Fits.widen {a b frame : Profile} (h : w.Fits plain (a.atop frame))
    (hab : a.within b = true) : w.Fits plain (b.atop frame) := by
  simp only [Profile.within, Bool.and_eq_true, beq_iff_eq] at hab
  obtain ⟨⟨⟨⟨⟨hnodes, hexprs⟩, hidentifiers⟩, htypes⟩, hints⟩, hunit⟩ := hab
  refine ⟨h.nodes.widen NodeRole.has_of_below hnodes, h.exprs.widen ExprRole.has_of_below hexprs,
    h.identifiers.widen (fun _ _ _ _ _ => trivial) hidentifiers,
    h.types.widen TypeRole.has_of_below htypes, ?_, ?_⟩
  · rw [h.ints]
    simp only [Profile.atop, hints]
  · intro hb
    refine h.unit ?_
    revert hb hunit
    simp only [Profile.atop]
    cases a.unit <;> cases b.unit <;> simp

/-- Only the values and the unit matter. -/
theorem Workspace.Fits.of_values {a : Profile} (h : w.Fits plain a) (hvalues : w'.values = w.values)
    (hunit : w'.unit = w.unit) : w'.Fits plain a := by
  obtain ⟨hnodes, hexprs, hidentifiers, htypes, hints, hdone⟩ := h
  rw [← hvalues] at hnodes hexprs hidentifiers htypes hints
  rw [← hunit] at hdone
  exact ⟨hnodes, hexprs, hidentifiers, htypes, hints, hdone⟩

/-! ### Steps that succeed -/

namespace Work

open Profile

variable {β γ : Type} {a : Work β} {f : β → Work γ} {Q : β → Workspace → Prop}
  {Q' : γ → Workspace → Prop}

/-- From `w`, a step succeeds as `Q` says; but a text may have to be cut inside a character, if
not all texts are `plain`. -/
def Ensures (plain : Prop) (w : Workspace) (a : Work β) (Q : β → Workspace → Prop) : Prop :=
  match a w with
  | .ok b w' => Q b w'
  | .error e _ => ¬ plain ∧ ∃ text, e = .crash (.brokenText text)

theorem Ensures.ok {b : β} (h : a w = .ok b w') (hQ : Q b w') : Ensures plain w a Q := by
  unfold Ensures
  rw [h]
  exact hQ

theorem Ensures.pure {b : β} (hQ : Q b w) : Ensures plain w (Pure.pure b) Q := hQ

theorem Ensures.bind (ha : Ensures plain w a Q)
    (hf : ∀ b w', Q b w' → Ensures plain w' (f b) Q') : Ensures plain w (a >>= f) Q' := by
  unfold Ensures at ha ⊢
  change match EStateM.bind a f w with
    | .ok b w' => Q' b w'
    | .error e _ => ¬ plain ∧ ∃ text, e = .crash (.brokenText text)
  unfold EStateM.bind
  cases hw : a w with
  | ok b w' =>
      rw [hw] at ha
      exact hf b w' ha
  | error e w' =>
      rw [hw] at ha
      exact ha

theorem Ensures.pure_bind {b : β} (h : Ensures plain w (f b) Q') :
    Ensures plain w (Pure.pure b >>= f) Q' := by
  have hbind : (Pure.pure b >>= f) = f b := by simp
  rw [hbind]
  exact h

/-- Two steps in a row, of which the first one hands its result only to the second. -/
theorem Ensures.chain {δ : Type} {g : γ → Work δ} {R : δ → Workspace → Prop}
    (haf : Ensures plain w (a >>= f) Q') (hg : ∀ b w', Q' b w' → Ensures plain w' (g b) R) :
    Ensures plain w (a >>= fun b => f b >>= g) R := by
  rw [← bind_assoc]
  exact haf.bind hg

theorem Ensures.map {g : β → γ} {p : Profile}
    (ha : Ensures plain w a fun _ w' => w'.Fits plain p) :
    Ensures plain w (g <$> a) fun _ w' => w'.Fits plain p := by
  rw [map_eq_pure_bind]
  exact ha.bind fun b w' hb => .pure hb

theorem Ensures.mono {R : β → Workspace → Prop} (ha : Ensures plain w a Q)
    (hQ : ∀ b w', Q b w' → R b w') : Ensures plain w a R := by
  unfold Ensures at ha ⊢
  cases hw : a w with
  | ok b w' =>
      rw [hw] at ha
      exact hQ b w' ha
  | error e w' =>
      rw [hw] at ha
      exact ha

/-- A step turns the values of a row of symbols, on top of the stacks, into others. -/
def Turns (plain : Prop) (a : Work Unit) (takes : List Profile) (gives : Profile) : Prop :=
  ∀ w frame, w.Fits plain (frame.followed takes) →
    Ensures plain w a fun _ w' => w'.Fits plain (gives.atop frame)

theorem ensures_expectNode {stack : StackName} {expected : NodeSort} {value : Option β} {b : β}
    (hvalue : value = some b) (hQ : Q b w) :
    Ensures plain w (expectNode stack expected value) Q := by
  rw [hvalue]
  exact hQ

theorem ensures_expected {stack : StackName} {expected : NodeSort} {value : Option β}
    {p : Profile} (hvalue : ∃ b, value = some b) (h : w.Fits plain p) :
    Ensures plain w (expectNode stack expected value) fun _ w' => w'.Fits plain p := by
  obtain ⟨b, hb⟩ := hvalue
  exact ensures_expectNode hb h

section

variable {p : Profile} {P : β → Prop} (h : w.Fits plain p)

include h

/-! ### One stack at a time -/

theorem ensures_onNodes {op : SegmentStack.Op Node β} {shapes : List (Shape NodeRole)}
    (hop : ∃ b s, op w.values.nodes = .ok b s ∧ P b ∧ s.Fits (NodeRole.Has plain) shapes) :
    Ensures plain w (onStacks (.onNodes op)) fun b w' =>
      P b ∧ w'.Fits plain { p with nodes := shapes } := by
  obtain ⟨b, s, hop, hb, hs⟩ := hop
  have hok : onStacks (.onNodes op) w =
      .ok b { w with values := { w.values with nodes := s } } := by
    unfold onStacks StackM.onNodes
    rw [hop]
  exact .ok hok ⟨hb, hs, h.exprs, h.identifiers, h.types, h.ints, h.unit⟩

theorem ensures_onExprs {op : SegmentStack.Op Expr β} {shapes : List (Shape ExprRole)}
    (hop : ∃ b s, op w.values.exprs = .ok b s ∧ P b ∧ s.Fits (ExprRole.Has plain) shapes) :
    Ensures plain w (onStacks (.onExprs op)) fun b w' =>
      P b ∧ w'.Fits plain { p with exprs := shapes } := by
  obtain ⟨b, s, hop, hb, hs⟩ := hop
  have hok : onStacks (.onExprs op) w =
      .ok b { w with values := { w.values with exprs := s } } := by
    unfold onStacks StackM.onExprs
    rw [hop]
  exact .ok hok ⟨hb, h.nodes, hs, h.identifiers, h.types, h.ints, h.unit⟩

theorem ensures_onIdentifiers {op : SegmentStack.Op Identifier β} {shapes : List (Shape Unit)}
    (hop : ∃ b s, op w.values.identifiers = .ok b s ∧ P b ∧ s.Fits identifierHas shapes) :
    Ensures plain w (onStacks (.onIdentifiers op)) fun b w' =>
      P b ∧ w'.Fits plain { p with identifiers := shapes } := by
  obtain ⟨b, s, hop, hb, hs⟩ := hop
  have hok : onStacks (.onIdentifiers op) w =
      .ok b { w with values := { w.values with identifiers := s } } := by
    unfold onStacks StackM.onIdentifiers
    rw [hop]
  exact .ok hok ⟨hb, h.nodes, h.exprs, hs, h.types, h.ints, h.unit⟩

theorem ensures_onTypes {op : SegmentStack.Op TypeNode β} {shapes : List (Shape TypeRole)}
    (hop : ∃ b s, op w.values.types = .ok b s ∧ P b ∧ s.Fits TypeRole.Has shapes) :
    Ensures plain w (onStacks (.onTypes op)) fun b w' =>
      P b ∧ w'.Fits plain { p with types := shapes } := by
  obtain ⟨b, s, hop, hb, hs⟩ := hop
  have hok : onStacks (.onTypes op) w =
      .ok b { w with values := { w.values with types := s } } := by
    unfold onStacks StackM.onTypes
    rw [hop]
  exact .ok hok ⟨hb, h.nodes, h.exprs, h.identifiers, hs, h.ints, h.unit⟩

/-! ### Adding -/

theorem ensures_pushNode {n : Node} {k : NodeRole} (hn : k.Has plain n) :
    Ensures plain w (pushNode n) fun _ w' => w'.Fits plain ((node k).atop p) :=
  ⟨h.nodes.push hn, h.exprs, h.identifiers, h.types, h.ints, h.unit⟩

theorem ensures_pushNodes {ns : List Node} {k : NodeRole} (hns : ∀ n ∈ ns, k.Has plain n) :
    Ensures plain w (pushNodes ns) fun _ w' => w'.Fits plain ((node k .many).atop p) :=
  ⟨h.nodes.pushSegment (.of_forall hns), h.exprs, h.identifiers, h.types, h.ints, h.unit⟩

theorem ensures_pushNoNodes {k : NodeRole} :
    Ensures plain w pushNoNodes fun _ w' => w'.Fits plain ((node k .none).atop p) :=
  ⟨h.nodes.pushEmpty, h.exprs, h.identifiers, h.types, h.ints, h.unit⟩

theorem ensures_pushExpr {e : Expr} {k : ExprRole} (he : k.Has plain e) :
    Ensures plain w (pushExpr e) fun _ w' => w'.Fits plain ((expr k).atop p) :=
  ⟨h.nodes, h.exprs.push he, h.identifiers, h.types, h.ints, h.unit⟩

theorem ensures_pushNoExprs {k : ExprRole} :
    Ensures plain w pushNoExprs fun _ w' => w'.Fits plain ((expr k .none).atop p) :=
  ⟨h.nodes, h.exprs.pushEmpty, h.identifiers, h.types, h.ints, h.unit⟩

theorem ensures_pushTypeNode {n : TypeNode} {k : TypeRole} (hn : k.Has n) :
    Ensures plain w (pushTypeNode n) fun _ w' => w'.Fits plain ((type k).atop p) :=
  ⟨h.nodes, h.exprs, h.identifiers, h.types.push hn, h.ints, h.unit⟩

theorem ensures_pushType {t : TypeRef} :
    Ensures plain w (pushType t) fun _ w' => w'.Fits plain (type.atop p) :=
  ensures_pushTypeNode h trivial

theorem ensures_pushNoTypes {k : TypeRole} :
    Ensures plain w pushNoTypes fun _ w' => w'.Fits plain ((type k .none).atop p) :=
  ⟨h.nodes, h.exprs, h.identifiers, h.types.pushEmpty, h.ints, h.unit⟩

theorem ensures_pushInt {n : Nat} :
    Ensures plain w (pushInt n) fun _ w' => w'.Fits plain (int.atop p) :=
  ⟨h.nodes, h.exprs, h.identifiers, h.types, congrArg (· + 1) h.ints, h.unit⟩

theorem ensures_pushStatement {s : Statement} :
    Ensures plain w (pushStatement s) fun _ w' => w'.Fits plain ((node .statement).atop p) :=
  ensures_pushNode h trivial

end

/-! ### Taking -/

section

variable {p : Profile} {c : Count}

theorem ensures_popNode {k : NodeRole} (h : w.Fits plain ((node k).atop p)) :
    Ensures plain w popNode fun n w' => k.Has plain n ∧ w'.Fits plain p :=
  ensures_onNodes h h.nodes.pop

theorem ensures_popNodes {k : NodeRole} (h : w.Fits plain ((node k c).atop p)) :
    Ensures plain w popNodes fun ns w' => (∀ n ∈ ns, k.Has plain n) ∧ w'.Fits plain p := by
  obtain ⟨ns, s, hpop, hns, hs⟩ := h.nodes.popSegment
  exact ensures_onNodes h ⟨ns, s, hpop, hns.role, hs⟩

theorem ensures_popOptionalNode {k : NodeRole} (h : w.Fits plain ((node k .optional).atop p)) :
    Ensures plain w popOptionalNode fun n w' => (∀ x ∈ n, k.Has plain x) ∧ w'.Fits plain p :=
  ensures_onNodes h h.nodes.popOptional

theorem ensures_popExprAs {k : ExprRole} (h : w.Fits plain ((expr k).atop p)) :
    Ensures plain w popExpr fun e w' => k.Has plain e ∧ w'.Fits plain p :=
  ensures_onExprs h h.exprs.pop

theorem ensures_popExpr {k : ExprRole} (h : w.Fits plain ((expr k).atop p)) :
    Ensures plain w popExpr fun _ w' => w'.Fits plain p :=
  (ensures_popExprAs h).mono fun _ _ => And.right

theorem ensures_popExprs {k : ExprRole} (h : w.Fits plain ((expr k c).atop p)) :
    Ensures plain w popExprs fun _ w' => w'.Fits plain p := by
  obtain ⟨es, s, hpop, _, hs⟩ := h.exprs.popSegment
  exact (ensures_onExprs (P := fun _ => True) h ⟨es, s, hpop, trivial, hs⟩).mono
    fun _ _ => And.right

theorem ensures_popOptionalExpr {k : ExprRole} (h : w.Fits plain ((expr k .optional).atop p)) :
    Ensures plain w popOptionalExpr fun _ w' => w'.Fits plain p :=
  (ensures_onExprs h h.exprs.popOptional).mono fun _ _ => And.right

theorem ensures_popIdentifier (h : w.Fits plain (word.atop p)) :
    Ensures plain w popIdentifier fun _ w' => w'.Fits plain p :=
  (ensures_onIdentifiers h h.identifiers.pop).mono fun _ _ => And.right

theorem ensures_popIdentifiers (h : w.Fits plain ((word .some).atop p)) :
    Ensures plain w (onStacks (.onIdentifiers SegmentStack.popSegment)) fun segments w' =>
      segments ≠ [] ∧ w'.Fits plain p := by
  obtain ⟨segments, s, hpop, hsegments, hs⟩ := h.identifiers.popSegment
  have hne : segments ≠ [] := by
    rintro rfl
    exact absurd hsegments.count (by simp [Count.Allows])
  exact ensures_onIdentifiers h ⟨segments, s, hpop, hne, hs⟩

theorem ensures_popName (h : w.Fits plain ((word .some).atop p)) :
    Ensures plain w popName fun _ w' => w'.Fits plain p := by
  refine .bind (ensures_popIdentifiers h) fun segments w' hsegments => ?_
  split
  · exact absurd rfl hsegments.1
  · exact .pure hsegments.2

theorem ensures_popInt (h : w.Fits plain (int.atop p)) :
    Ensures plain w popInt fun _ w' => w'.Fits plain p := by
  obtain ⟨n, ints, hints⟩ := List.exists_cons_of_length_eq_add_one h.ints
  have hok : popInt w = .ok n { w with values := { w.values with ints } } := by
    unfold popInt onStacks StackM.popInt
    rw [hints]
  have hlength := h.ints
  rw [hints] at hlength
  exact .ok hok ⟨h.nodes, h.exprs, h.identifiers, h.types, Nat.succ.inj hlength, h.unit⟩

/-! ### Taking what a role promises -/

/-- Items that can each be read as something can be read as a list of such. -/
theorem exists_mapM {as? : β → Option γ} {P : γ → Prop} {xs : List β}
    (hxs : ∀ x ∈ xs, ∃ y, as? x = some y ∧ P y) :
    ∃ ys, xs.mapM as? = some ys ∧ ∀ y ∈ ys, P y := by
  induction xs with
  | nil => exact ⟨[], rfl, by simp⟩
  | cons x xs ih =>
      obtain ⟨y, hy, hP⟩ := hxs x (by simp)
      obtain ⟨ys, hys, hPs⟩ := ih fun z hz => hxs z (List.mem_cons_of_mem x hz)
      exact ⟨y :: ys, by simp [List.mapM_cons, hy, hys], by simpa using ⟨hP, hPs⟩⟩

section

variable {k : NodeRole} {as? : Node → Option β} {P : β → Prop} {stack : StackName}
  {expected : NodeSort} (has : ∀ n, k.Has plain n → ∃ b, as? n = some b ∧ P b)

include has

theorem ensures_popNodeAs (h : w.Fits plain ((node k).atop p)) :
    Ensures plain w (do expectNode stack expected (as? (← popNode))) fun b w' =>
      P b ∧ w'.Fits plain p := by
  refine .bind (ensures_popNode h) fun n w' hn => ?_
  obtain ⟨b, hb, hP⟩ := has n hn.1
  exact ensures_expectNode hb ⟨hP, hn.2⟩

theorem ensures_popNodesAs (h : w.Fits plain ((node k c).atop p)) :
    Ensures plain w (do expectNode stack expected ((← popNodes).mapM as?)) fun bs w' =>
      (∀ b ∈ bs, P b) ∧ w'.Fits plain p := by
  refine .bind (ensures_popNodes h) fun ns w' hns => ?_
  obtain ⟨bs, hbs, hP⟩ := exists_mapM fun n hn => has n (hns.1 n hn)
  exact ensures_expectNode hbs ⟨hP, hns.2⟩

theorem ensures_peekAs (h : w.Fits plain ((node k).atop p)) :
    Ensures plain w (do
      expectNode stack expected (as? (← onStacks (.onNodes SegmentStack.peek))))
      fun _ w' => w'.Fits plain ((node k).atop p) := by
  obtain ⟨n, hpeek, hn⟩ := h.nodes.peek
  refine .bind (ensures_onNodes (P := k.Has plain) h ⟨n, _, hpeek, hn, h.nodes⟩) fun n w' hn => ?_
  obtain ⟨b, hb, _⟩ := has n hn.1
  exact ensures_expectNode hb hn.2

end

theorem ensures_popTypesAs {k : TypeRole} {as? : TypeNode → Option β} {stack : StackName}
    {expected : NodeSort} (has : ∀ n, k.Has n → ∃ b, as? n = some b ∧ True)
    (h : w.Fits plain ((type k c).atop p)) :
    Ensures plain w (do
      expectNode stack expected ((← onStacks (.onTypes SegmentStack.popSegment)).mapM as?))
      fun _ w' => w'.Fits plain p := by
  obtain ⟨ns, s, hpop, hns, hs⟩ := h.types.popSegment
  refine .bind (ensures_onTypes (P := fun ns => ∀ n ∈ ns, k.Has n) h ⟨ns, s, hpop, hns.role, hs⟩)
    fun ns w' hns => ?_
  obtain ⟨bs, hbs, _⟩ := exists_mapM fun n hn => has n (hns.1 n hn)
  exact ensures_expectNode hbs hns.2

theorem ensures_popType (h : w.Fits plain (type.atop p)) :
    Ensures plain w popType fun _ w' => w'.Fits plain p := by
  refine .bind (ensures_onTypes h h.types.pop) fun n w' hn => ?_
  cases n with
  | type t => exact ensures_expectNode rfl hn.2
  | wildcard kind bound span => exact absurd hn.1 id
  | parameter p => exact absurd hn.1 id

theorem ensures_popTypes (h : w.Fits plain ((type .type c).atop p)) :
    Ensures plain w popTypes fun _ w' => w'.Fits plain p := by
  refine ensures_popTypesAs (fun n hn => ?_) h
  cases n <;> first | exact ⟨_, rfl, trivial⟩ | exact absurd hn id

theorem ensures_popTypeArguments (h : w.Fits plain ((type .argument c).atop p)) :
    Ensures plain w popTypeArguments fun _ w' => w'.Fits plain p := by
  refine ensures_popTypesAs (fun n hn => ?_) h
  cases n <;> first | exact ⟨_, rfl, trivial⟩ | exact absurd hn id

theorem ensures_popTypeParameters {present : Bool}
    (h : w.Fits plain ((provided present (type .parameter .many)).atop p)) :
    Ensures plain w (popTypeParameters present) fun _ w' => w'.Fits plain p := by
  cases present with
  | false => exact .pure h
  | true =>
      refine ensures_popTypesAs (fun n hn => ?_) h
      cases n <;> first | exact ⟨_, rfl, trivial⟩ | exact absurd hn id

theorem ensures_popModifiers (h : w.Fits plain (modifiers.atop p)) :
    Ensures plain w popModifiers fun _ w' => w'.Fits plain p := by
  have hints : w.Fits plain (int.atop (int.atop ((expr .expr .many).atop p))) :=
    ⟨h.nodes, h.exprs, h.identifiers, h.types, h.ints, h.unit⟩
  refine .bind (ensures_popInt hints) fun _ _ h => ?_
  refine .bind (ensures_popInt h) fun _ _ h => ?_
  exact .bind (ensures_popExprs h) fun _ _ h => .pure h

theorem ensures_popModifiersIf {present : Bool}
    (h : w.Fits plain ((provided present modifiers).atop p)) :
    Ensures plain w (popModifiersIf present) fun _ w' => w'.Fits plain p := by
  cases present with
  | false => exact .pure h
  | true => exact ensures_popModifiers h

theorem ensures_popParameter (h : w.Fits plain ((node .parameter).atop p)) :
    Ensures plain w popParameter fun _ w' => w'.Fits plain p :=
  (ensures_popNodeAs (fun _ => NodeRole.exists_parameter) h).mono fun _ _ => And.right

theorem ensures_popParameters (h : w.Fits plain ((node .parameter c).atop p)) :
    Ensures plain w popParameters fun _ w' => w'.Fits plain p :=
  (ensures_popNodesAs (fun _ => NodeRole.exists_parameter) h).mono fun _ _ => And.right

theorem ensures_popDeclarator (h : w.Fits plain ((node .declarator).atop p)) :
    Ensures plain w popDeclarator fun _ w' => w'.Fits plain p :=
  (ensures_popNodeAs (fun _ => NodeRole.exists_declarator) h).mono fun _ _ => And.right

theorem ensures_popDeclarators (h : w.Fits plain ((node .declarator c).atop p)) :
    Ensures plain w popDeclarators fun _ w' => w'.Fits plain p :=
  (ensures_popNodesAs (fun _ => NodeRole.exists_declarator) h).mono fun _ _ => And.right

theorem ensures_popStatement (h : w.Fits plain ((node .statement).atop p)) :
    Ensures plain w popStatement fun _ w' => w'.Fits plain p :=
  (ensures_popNodeAs (fun _ => NodeRole.exists_statement) h).mono fun _ _ => And.right

theorem ensures_popStatements (h : w.Fits plain ((node .statement c).atop p)) :
    Ensures plain w popStatements fun _ w' => w'.Fits plain p :=
  (ensures_popNodesAs (fun _ => NodeRole.exists_statement) h).mono fun _ _ => And.right

theorem ensures_popBlock (h : w.Fits plain ((node .block).atop p)) :
    Ensures plain w popBlock fun _ w' => w'.Fits plain p := by
  have hstatement : Ensures plain w popStatement fun s w' =>
      (∃ b, asBlock? s = some b) ∧ w'.Fits plain p := by
    refine ensures_popNodeAs (fun n hn => ?_) h
    cases n with
    | statement s =>
        refine ⟨s, rfl, ?_⟩
        cases s <;> first | exact ⟨_, rfl⟩ | exact absurd hn id
    | _ => exact absurd hn id
  exact .bind hstatement fun s w' hs => ensures_expected hs.1 hs.2

theorem ensures_popFragment (h : w.Fits plain ((node .fragment).atop p)) :
    Ensures plain w popFragment fun f w' => (plain → f.Plain) ∧ w'.Fits plain p :=
  ensures_popNodeAs (fun _ => NodeRole.exists_fragment) h

theorem ensures_popFragments (h : w.Fits plain ((node .fragment c).atop p)) :
    Ensures plain w popFragments fun fs w' =>
      (∀ f ∈ fs, plain → f.Plain) ∧ w'.Fits plain p :=
  ensures_popNodesAs (fun _ => NodeRole.exists_fragment) h

/-! ### Changing the topmost declaration -/

theorem ensures_replaceTop {k k' : NodeRole} {n : Node} (h : w.Fits plain ((node k).atop p))
    (hn : k'.Has plain n) :
    Ensures plain w (replaceTop n) fun _ w' => w'.Fits plain ((node k').atop p) := by
  obtain ⟨s, hmodify, hs⟩ := h.nodes.replaceTop hn
  exact (ensures_onNodes (P := fun _ => True) h ⟨(), s, hmodify, trivial, hs⟩).mono
    fun _ _ => And.right

theorem ensures_typeOnTop {expected : NodeSort} (h : w.Fits plain ((node .type).atop p)) :
    Ensures plain w (typeOnTop expected) fun _ w' => w'.Fits plain ((node .type).atop p) :=
  ensures_peekAs (fun _ => NodeRole.exists_type) h

theorem ensures_methodOnTop {expected : NodeSort} (h : w.Fits plain ((node .method).atop p)) :
    Ensures plain w (methodOnTop expected) fun _ w' => w'.Fits plain ((node .method).atop p) :=
  ensures_peekAs (fun _ => NodeRole.exists_method) h

theorem ensures_updateType {change : TypeDecl → TypeDecl}
    (h : w.Fits plain ((node .type).atop p)) :
    Ensures plain w (updateType change) fun _ w' => w'.Fits plain ((node .type).atop p) :=
  .bind (ensures_typeOnTop h) fun _ _ h => ensures_replaceTop h trivial

theorem ensures_updateMethod {change : MethodDecl → MethodDecl}
    (h : w.Fits plain ((node .method).atop p)) :
    Ensures plain w (updateMethod change) fun _ w' => w'.Fits plain ((node .method).atop p) :=
  .bind (ensures_methodOnTop h) fun _ _ h => ensures_replaceTop h trivial

/-! ### Reporting -/

theorem ensures_report {id : ProblemKind} {span : Span} {arguments : List String}
    (h : w.Fits plain p) :
    Ensures plain w (report id span arguments) fun _ w' => w'.Fits plain p :=
  h.of_values rfl rfl

theorem ensures_withReporter {f : Reporter → β × Reporter} (h : w.Fits plain p) :
    Ensures plain w (withReporter f) fun _ w' => w'.Fits plain p :=
  h.of_values rfl rfl

end

end Work

end AspectLang
