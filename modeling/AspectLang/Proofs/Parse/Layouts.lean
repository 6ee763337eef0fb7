import AspectLang.Proofs.Parse.Regions
import AspectLang.Proofs.Parse.Profiles
import Mathlib.Data.List.Forall2

/-! # Layouts of the value stacks

A `Layout` tells in which region of the text the values of each segment lie.  A declaration begins
in its region, and its name ends there; where the place asks for it, the `whole` declaration lies
there, with every owner in it around its members.  A profile in a region is a layout
(`Profile.placed`).  `Work.Yields` states what holds after a step of building a tree if it
succeeds; each way of adding and taking values changes the layout as its name says. -/

namespace AspectLang

/-! ### Values in a region -/

/-- A declaration begins in a region, its name ends there, and its extents are nested. -/
structure Member.Stands (r : Region) (m : Member) : Prop where
  nested : m.Nested
  start : r.lo ≤ m.extent.declaration.start
  name : m.extent.name.stop ≤ r.hi

/-- A declaration ends in a region, and every owner in it contains its members. -/
structure Member.Ends (r : Region) (m : Member) : Prop where
  stop : m.extent.declaration.stop ≤ r.hi
  owns : m.Owns

/-- A node begins in a region; a declaration may go on after it. -/
def Node.At (r : Region) : Node → Prop
  | .type t => Member.Stands r (.type t)
  | .method m => Member.Stands r (.method m)
  | .field f => Member.Stands r (.field f)
  | .initializer i => Member.Stands r (.initializer i)
  | .declarator d => r.Holds d.name.span
  | .fragment f => r.Holds f.span
  | .package _ | .importDecl _ | .parameter _ | .statement _ | .catchClause _
  | .extraParameter _ => True

/-- A declaration or a statement lies in a region as a whole. -/
def Node.Whole (r : Region) : Node → Prop
  | .type t => Member.Ends r (.type t)
  | .method m => Member.Ends r (.method m)
  | .field f => Member.Ends r (.field f)
  | .initializer i => Member.Ends r (.initializer i)
  | .statement s => r.Holds s.span
  | .package _ | .importDecl _ | .parameter _ | .catchClause _ | .declarator _
  | .extraParameter _ | .fragment _ => True

/-- A literal lies in a region. -/
def Expr.At (r : Region) : Expr → Prop
  | .literal _ _ span => r.Holds span
  | _ => True

/-- The range of an identifier lies in a region. -/
def Identifier.At (r : Region) (i : Identifier) : Prop := r.Holds i.span

/-- The range of a type lies in a region. -/
def TypeNode.At (r : Region) : TypeNode → Prop
  | .type t => r.Holds t.span
  | .wildcard .. | .parameter _ => True

/-- Where nodes begin, and whether they lie there as a whole. -/
structure NodePlace where
  region : Region
  whole : Bool

/-- A node lies where it should. -/
structure NodePlace.Has (p : NodePlace) (n : Node) : Prop where
  lies : n.At p.region
  whole : p.whole = true → n.Whole p.region

/-- What is known of a number: nothing, that it is zero, or that it is an offset in bounds. -/
inductive IntPlace where
  | any
  | zero
  | offset (lo : Nat) (hi : Option Nat)

/-- A number is as it should be. -/
def IntPlace.Has : IntPlace → Nat → Prop
  | .any, _ => True
  | .zero, n => n = 0
  | .offset lo hi, n => lo ≤ n ∧ ∀ bound ∈ hi, n ≤ bound

section

variable {r r' : Region} {m : Member} {n : Node}

theorem Member.Stands.mono (h : m.Stands r) (hr : r.Within r') : m.Stands r' :=
  ⟨h.nested, Nat.le_trans hr.1 h.start, Nat.le_trans h.name hr.2⟩

theorem Member.Ends.mono (h : m.Ends r) (hr : r.Within r') : m.Ends r' :=
  ⟨Nat.le_trans h.stop hr.2, h.owns⟩

theorem Node.At.mono (h : n.At r) (hr : r.Within r') : n.At r' := by
  cases n with
  | type _ | method _ | field _ | initializer _ => exact Member.Stands.mono h hr
  | declarator _ | fragment _ => exact Region.Holds.mono h hr
  | package _ | importDecl _ | parameter _ | statement _ | catchClause _ | extraParameter _ =>
      trivial

theorem Node.Whole.mono (h : n.Whole r) (hr : r.Within r') : n.Whole r' := by
  cases n with
  | type _ | method _ | field _ | initializer _ => exact Member.Ends.mono h hr
  | statement _ => exact Region.Holds.mono h hr
  | package _ | importDecl _ | parameter _ | catchClause _ | declarator _ | extraParameter _
  | fragment _ => trivial

theorem Node.At.stands (h : n.At r) (hm : n.member? = some m) : m.Stands r := by
  cases n <;> cases hm <;> exact h

theorem Node.Whole.ends (h : n.Whole r) (hm : n.member? = some m) : m.Ends r := by
  cases n <;> cases hm <;> exact h

theorem Node.At.nested (h : n.At r) : n.Nested := fun _ hm => (h.stands hm).nested

theorem Expr.At.mono {e : Expr} (h : e.At r) (hr : r.Within r') : e.At r' := by
  cases e with
  | literal _ _ _ => exact Region.Holds.mono h hr
  | _ => trivial

theorem TypeNode.At.mono {n : TypeNode} (h : n.At r) (hr : r.Within r') : n.At r' := by
  cases n with
  | type t => exact Region.Holds.mono h hr
  | wildcard | parameter _ => trivial

/-- One place may be taken for another: it lies there, and asks for no less. -/
structure NodePlace.Within (p p' : NodePlace) : Prop where
  region : p.region.Within p'.region
  whole : p'.whole = true → p.whole = true

theorem NodePlace.Has.widen {p p' : NodePlace} (h : p.Has n) (hp : p.Within p') : p'.Has n :=
  ⟨h.lies.mono hp.region, fun hwhole => (h.whole (hp.whole hwhole)).mono hp.region⟩

/-- A node of which no more is asked than where it begins. -/
theorem NodePlace.Has.of_lies (h : n.At r) : NodePlace.Has ⟨r, false⟩ n := ⟨h, nofun⟩

end

/-! ### Layouts -/

/-- Where the values on the stacks lie, the topmost first. -/
structure Layout where
  nodes : List (Shape NodePlace) := []
  exprs : List (Shape Region) := []
  identifiers : List (Shape Region) := []
  types : List (Shape Region) := []
  ints : List IntPlace := []

namespace Layout

/-- The layout of a run of values on top of others. -/
def atop (top frame : Layout) : Layout where
  nodes := top.nodes ++ frame.nodes
  exprs := top.exprs ++ frame.exprs
  identifiers := top.identifiers ++ frame.identifiers
  types := top.types ++ frame.types
  ints := top.ints ++ frame.ints

end Layout

namespace Profile

/-- Which numbers of a profile are offsets: of the two of a run of modifiers, where it starts. -/
def offsets (p : Profile) : List Bool :=
  match p.ints with
  | [_, _] => [true, false]
  | ints => ints.map fun _ => false

/-- The values of a profile in a region. -/
def placed (p : Profile) (r : Region) (whole : Bool) : Layout where
  nodes := p.nodes.map fun s => ⟨⟨r, whole⟩, s.count⟩
  exprs := p.exprs.map fun s => ⟨r, s.count⟩
  identifiers := p.identifiers.map fun s => ⟨r, s.count⟩
  types := p.types.map fun s => ⟨r, s.count⟩
  ints := p.offsets.map fun isOffset => cond isOffset (.offset r.lo none) .any

end Profile

/-- The layout when the values of symbols follow, all in one region, the last one on top. -/
def Layout.followed (r : Region) (whole : Bool) (frame : Layout) : List Profile → Layout
  | [] => frame
  | p :: ps => followed r whole ((p.placed r whole).atop frame) ps

/-- A run of modifiers: one that covers text starts in its region; another one holds nothing, and
starts at the token that was next. -/
def Layout.modifiers (r : Region) (covers : Bool) : Layout :=
  cond covers
    { exprs := [⟨r, .many⟩], ints := [.offset r.lo (some r.hi), .any] }
    { exprs := [⟨r, .none⟩], ints := [.offset r.lo none, .zero] }

/-- The declarations of a finished unit. -/
def CompilationUnit.Contained (u : CompilationUnit) : Prop :=
  ∀ t ∈ u.types, Member.Nested (.type t) ∧ Member.Owns (.type t)

/-- The values on the stacks of a workspace lie as a layout tells. -/
structure Workspace.Lies (w : Workspace) (l : Layout) : Prop where
  nodes : w.values.nodes.Fits NodePlace.Has l.nodes
  exprs : w.values.exprs.Fits Expr.At l.exprs
  identifiers : w.values.identifiers.Fits Identifier.At l.identifiers
  types : w.values.types.Fits TypeNode.At l.types
  ints : List.Forall₂ IntPlace.Has l.ints w.values.ints
  unit : ∀ u ∈ w.unit, u.Contained

variable {w w' : Workspace} {l : Layout}

/-- Only the values and the unit matter. -/
theorem Workspace.Lies.of_values (h : w.Lies l) (hvalues : w'.values = w.values)
    (hunit : w'.unit = w.unit) : w'.Lies l := by
  obtain ⟨hnodes, hexprs, hidentifiers, htypes, hints, hdone⟩ := h
  rw [← hvalues] at hnodes hexprs hidentifiers htypes hints
  rw [← hunit] at hdone
  exact ⟨hnodes, hexprs, hidentifiers, htypes, hints, hdone⟩

/-! ### Widening -/

/-- A shape of one place may be taken for a shape of another. -/
def Shape.Widens {κ : Type} (below : κ → κ → Prop) (s t : Shape κ) : Prop :=
  s.count.within t.count = true ∧ below s.role t.role

/-- Whatever is known of a number by one place is known by another. -/
def IntPlace.Widens (p p' : IntPlace) : Prop := ∀ n, p.Has n → p'.Has n

theorem IntPlace.widens_any (p : IntPlace) : p.Widens .any := fun _ _ => trivial

theorem IntPlace.widens_offset {lo lo' : Nat} {hi : Option Nat} (h : lo' ≤ lo) :
    IntPlace.Widens (.offset lo hi) (.offset lo' none) :=
  fun _ hn => ⟨Nat.le_trans h hn.1, nofun⟩

/-- One layout may be taken for another. -/
structure Layout.Widens (l l' : Layout) : Prop where
  nodes : List.Forall₂ (Shape.Widens NodePlace.Within) l.nodes l'.nodes
  exprs : List.Forall₂ (Shape.Widens Region.Within) l.exprs l'.exprs
  identifiers : List.Forall₂ (Shape.Widens Region.Within) l.identifiers l'.identifiers
  types : List.Forall₂ (Shape.Widens Region.Within) l.types l'.types
  ints : List.Forall₂ IntPlace.Widens l.ints l'.ints

theorem Count.within_refl (c : Count) : c.within c = true := by
  cases c <;> rfl

theorem Layout.Widens.refl (l : Layout) : l.Widens l where
  nodes := List.forall₂_same.mpr fun s _ => ⟨s.count.within_refl, .refl _, id⟩
  exprs := List.forall₂_same.mpr fun s _ => ⟨s.count.within_refl, .refl _⟩
  identifiers := List.forall₂_same.mpr fun s _ => ⟨s.count.within_refl, .refl _⟩
  types := List.forall₂_same.mpr fun s _ => ⟨s.count.within_refl, .refl _⟩
  ints := List.forall₂_same.mpr fun _ _ _ => id

theorem Layout.Widens.atop {top top' frame frame' : Layout} (htop : top.Widens top')
    (hframe : frame.Widens frame') : (top.atop frame).Widens (top'.atop frame') where
  nodes := List.rel_append htop.nodes hframe.nodes
  exprs := List.rel_append htop.exprs hframe.exprs
  identifiers := List.rel_append htop.identifiers hframe.identifiers
  types := List.rel_append htop.types hframe.types
  ints := List.rel_append htop.ints hframe.ints

theorem forall₂_map_map {α β : Type} {R : β → β → Prop} {f g : α → β} (l : List α)
    (h : ∀ a ∈ l, R (f a) (g a)) : List.Forall₂ R (l.map f) (l.map g) :=
  List.forall₂_map_left_iff.mpr (List.forall₂_map_right_iff.mpr (List.forall₂_same.mpr h))

/-- A profile may be placed in a wider region, and less may be asked of its nodes. -/
theorem Profile.widens_placed (p : Profile) {r r' : Region} {whole whole' : Bool}
    (hr : r.Within r') (hwhole : p.nodes ≠ [] → whole' = true → whole = true) :
    (p.placed r whole).Widens (p.placed r' whole') where
  nodes := forall₂_map_map _ fun s hs =>
    ⟨s.count.within_refl, hr, hwhole (List.ne_nil_of_mem hs)⟩
  exprs := forall₂_map_map _ fun s _ => ⟨s.count.within_refl, hr⟩
  identifiers := forall₂_map_map _ fun s _ => ⟨s.count.within_refl, hr⟩
  types := forall₂_map_map _ fun s _ => ⟨s.count.within_refl, hr⟩
  ints := forall₂_map_map _ fun isOffset _ => by
    cases isOffset with
    | true => exact IntPlace.widens_offset hr.1
    | false => exact IntPlace.widens_any _

theorem SegmentStack.Fits.widens {κ α : Type} {Has : κ → α → Prop} {below : κ → κ → Prop}
    {shapes shapes' : List (Shape κ)} {s : SegmentStack α} (h : s.Fits Has shapes)
    (hbelow : ∀ k k' a, below k k' → Has k a → Has k' a)
    (hshapes : List.Forall₂ (Shape.Widens below) shapes shapes') : s.Fits Has shapes' := by
  induction hshapes generalizing s with
  | nil => exact h
  | cons hshape _ ih =>
      cases h with
      | segment hrest hsegment =>
          have hroles := fun a ha => hbelow _ _ a hshape.2 (hsegment.role a ha)
          exact .segment (ih hrest) ⟨hsegment.count.within hshape.1, hroles⟩

theorem IntPlace.has_of_widens {ps ps' : List IntPlace} {ns : List Nat}
    (h : List.Forall₂ IntPlace.Has ps ns) (hps : List.Forall₂ IntPlace.Widens ps ps') :
    List.Forall₂ IntPlace.Has ps' ns := by
  induction hps generalizing ns with
  | nil => exact h
  | cons hplace _ ih =>
      cases h with
      | cons hn hrest => exact .cons (hplace _ hn) (ih hrest)

theorem Workspace.Lies.widen {l' : Layout} (h : w.Lies l) (hl : l.Widens l') : w.Lies l' where
  nodes := h.nodes.widens (fun _ _ _ hp hn => hn.widen hp) hl.nodes
  exprs := h.exprs.widens (fun _ _ _ hr he => he.mono hr) hl.exprs
  identifiers := h.identifiers.widens (fun _ _ _ hr hi => Region.Holds.mono hi hr) hl.identifiers
  types := h.types.widens (fun _ _ _ hr hn => hn.mono hr) hl.types
  ints := IntPlace.has_of_widens h.ints hl.ints
  unit := h.unit

/-! ### Segments that are taken -/

namespace SegmentStack.Fits

variable {κ α : Type} {Has : κ → α → Prop} {shape : Shape κ} {shapes : List (Shape κ)}
  {s rest : SegmentStack α}

theorem of_popSegment {segment : List α} (h : s.Fits Has (shape :: shapes))
    (hpop : SegmentStack.popSegment s = .ok segment rest) :
    (∀ a ∈ segment, Has shape.role a) ∧ rest.Fits Has shapes := by
  obtain ⟨segment', rest', hpop', hsegment, hrest⟩ := h.popSegment
  rw [hpop] at hpop'
  cases hpop'
  exact ⟨hsegment.role, hrest⟩

theorem of_pop {a : α} (h : s.Fits Has (shape :: shapes))
    (hpop : SegmentStack.pop s = .ok a rest) : Has shape.role a ∧ rest.Fits Has shapes := by
  cases h with
  | @segment _ _ items segment lengths hrest hsegment =>
      unfold SegmentStack.pop at hpop
      dsimp only at hpop
      split at hpop
      · rename_i hone
        obtain ⟨b, rfl⟩ := List.length_eq_one_iff.mp hone
        cases hpop
        exact ⟨hsegment.role _ (by simp), hrest⟩
      · cases hpop

theorem of_popOptional {a : Option α} (h : s.Fits Has (shape :: shapes))
    (hpop : SegmentStack.popOptional s = .ok a rest) :
    (∀ x ∈ a, Has shape.role x) ∧ rest.Fits Has shapes := by
  obtain ⟨segment, rest', hpop', hsegment, hrest⟩ := h.popSegment
  unfold SegmentStack.popOptional at hpop
  simp only [bind, EStateM.bind, hpop'] at hpop
  split at hpop
  · cases hpop
    refine ⟨fun x hx => ?_, hrest⟩
    cases hx
  · cases hpop
    refine ⟨fun x hx => ?_, hrest⟩
    cases hx
    exact hsegment.role _ (by simp)
  · cases hpop

theorem of_concat {k : κ} {c d : Count} (h : s.Fits Has (⟨k, c⟩ :: ⟨k, d⟩ :: shapes))
    (hconcat : SegmentStack.concat s = .ok () rest) : rest.Fits Has (⟨k, c.plus d⟩ :: shapes) := by
  obtain ⟨joined, hjoined, hfits⟩ := h.concat
  rw [hconcat] at hjoined
  cases hjoined
  exact hfits

end SegmentStack.Fits

/-! ### Steps that may succeed -/

namespace Work

open Profile

variable {β γ : Type} {a : Work β} {f : β → Work γ} {Q : β → Workspace → Prop}
  {Q' : γ → Workspace → Prop}

/-- From `w`, a step that succeeds does as `Q` says. -/
def Yields (w : Workspace) (a : Work β) (Q : β → Workspace → Prop) : Prop :=
  ∀ b w', a w = .ok b w' → Q b w'

namespace Yields

theorem pure {b : β} (hQ : Q b w) : Yields w (Pure.pure b) Q := by
  intro b' w' h
  cases h
  exact hQ

theorem bind (ha : Yields w a Q) (hf : ∀ b w', Q b w' → Yields w' (f b) Q') :
    Yields w (a >>= f) Q' := by
  intro c w' h
  change EStateM.bind a f w = .ok c w' at h
  unfold EStateM.bind at h
  split at h
  · rename_i b middle hmiddle
    exact hf b middle (ha b middle hmiddle) c w' h
  · cases h

theorem pure_bind {b : β} (h : Yields w (f b) Q') : Yields w (Pure.pure b >>= f) Q' := by
  have hbind : (Pure.pure b >>= f) = f b := by simp
  rw [hbind]
  exact h

/-- Two steps in a row, of which the first one hands its result only to the second. -/
theorem chain {δ : Type} {g : γ → Work δ} {R : δ → Workspace → Prop}
    (haf : Yields w (a >>= f) Q') (hg : ∀ b w', Q' b w' → Yields w' (g b) R) :
    Yields w (a >>= fun b => f b >>= g) R := by
  rw [← bind_assoc]
  exact haf.bind hg

theorem map {g : β → γ} (ha : Yields w a fun _ w' => w'.Lies l) :
    Yields w (g <$> a) fun _ w' => w'.Lies l := by
  rw [map_eq_pure_bind]
  exact ha.bind fun b w' hb => .pure hb

theorem mono {R : β → Workspace → Prop} (ha : Yields w a Q) (hQ : ∀ b w', Q b w' → R b w') :
    Yields w a R := fun b w' h => hQ b w' (ha b w' h)

end Yields

theorem yields_expectNode {stack : StackName} {expected : NodeSort} {value : Option β}
    (hvalue : ∀ b, value = some b → Q b w) : Yields w (expectNode stack expected value) Q := by
  unfold expectNode
  split
  · exact .pure (hvalue _ rfl)
  · intro b w' h
    cases h

section

variable {P : β → Prop} (h : w.Lies l)

include h

/-! ### One stack at a time -/

theorem yields_onNodes {op : SegmentStack.Op Node β} {shapes : List (Shape NodePlace)}
    (hop : ∀ b s, op w.values.nodes = .ok b s → P b ∧ s.Fits NodePlace.Has shapes) :
    Yields w (onStacks (.onNodes op)) fun b w' => P b ∧ w'.Lies { l with nodes := shapes } := by
  intro b w' hok
  unfold onStacks StackM.onNodes at hok
  cases hresult : op w.values.nodes with
  | error e s =>
      rw [hresult] at hok
      cases hok
  | ok b' s =>
      rw [hresult] at hok
      cases hok
      obtain ⟨hb, hs⟩ := hop b s hresult
      exact ⟨hb, hs, h.exprs, h.identifiers, h.types, h.ints, h.unit⟩

theorem yields_onExprs {op : SegmentStack.Op Expr β} {shapes : List (Shape Region)}
    (hop : ∀ b s, op w.values.exprs = .ok b s → P b ∧ s.Fits Expr.At shapes) :
    Yields w (onStacks (.onExprs op)) fun b w' => P b ∧ w'.Lies { l with exprs := shapes } := by
  intro b w' hok
  unfold onStacks StackM.onExprs at hok
  cases hresult : op w.values.exprs with
  | error e s =>
      rw [hresult] at hok
      cases hok
  | ok b' s =>
      rw [hresult] at hok
      cases hok
      obtain ⟨hb, hs⟩ := hop b s hresult
      exact ⟨hb, h.nodes, hs, h.identifiers, h.types, h.ints, h.unit⟩

theorem yields_onIdentifiers {op : SegmentStack.Op Identifier β} {shapes : List (Shape Region)}
    (hop : ∀ b s, op w.values.identifiers = .ok b s → P b ∧ s.Fits Identifier.At shapes) :
    Yields w (onStacks (.onIdentifiers op)) fun b w' =>
      P b ∧ w'.Lies { l with identifiers := shapes } := by
  intro b w' hok
  unfold onStacks StackM.onIdentifiers at hok
  cases hresult : op w.values.identifiers with
  | error e s =>
      rw [hresult] at hok
      cases hok
  | ok b' s =>
      rw [hresult] at hok
      cases hok
      obtain ⟨hb, hs⟩ := hop b s hresult
      exact ⟨hb, h.nodes, h.exprs, hs, h.types, h.ints, h.unit⟩

theorem yields_onTypes {op : SegmentStack.Op TypeNode β} {shapes : List (Shape Region)}
    (hop : ∀ b s, op w.values.types = .ok b s → P b ∧ s.Fits TypeNode.At shapes) :
    Yields w (onStacks (.onTypes op)) fun b w' => P b ∧ w'.Lies { l with types := shapes } := by
  intro b w' hok
  unfold onStacks StackM.onTypes at hok
  cases hresult : op w.values.types with
  | error e s =>
      rw [hresult] at hok
      cases hok
  | ok b' s =>
      rw [hresult] at hok
      cases hok
      obtain ⟨hb, hs⟩ := hop b s hresult
      exact ⟨hb, h.nodes, h.exprs, h.identifiers, hs, h.ints, h.unit⟩

/-! ### Adding -/

variable {r : Region} {whole : Bool}

theorem yields_pushNode {n : Node} {k : NodeRole} (hn : NodePlace.Has ⟨r, whole⟩ n) :
    Yields w (pushNode n) fun _ w' => w'.Lies (((node k).placed r whole).atop l) := by
  intro b w' hok
  cases hok
  exact ⟨h.nodes.push hn, h.exprs, h.identifiers, h.types, h.ints, h.unit⟩

theorem yields_pushNodes {ns : List Node} {k : NodeRole}
    (hns : ∀ n ∈ ns, NodePlace.Has ⟨r, whole⟩ n) :
    Yields w (pushNodes ns) fun _ w' => w'.Lies (((node k .many).placed r whole).atop l) := by
  intro b w' hok
  cases hok
  exact ⟨h.nodes.pushSegment (.of_forall hns), h.exprs, h.identifiers, h.types, h.ints, h.unit⟩

theorem yields_pushNoNodes {k : NodeRole} :
    Yields w pushNoNodes fun _ w' => w'.Lies (((node k .none).placed r whole).atop l) := by
  intro b w' hok
  cases hok
  exact ⟨h.nodes.pushEmpty, h.exprs, h.identifiers, h.types, h.ints, h.unit⟩

theorem yields_pushExpr {e : Expr} {k : ExprRole} (he : e.At r) :
    Yields w (pushExpr e) fun _ w' => w'.Lies (((expr k).placed r whole).atop l) := by
  intro b w' hok
  cases hok
  exact ⟨h.nodes, h.exprs.push he, h.identifiers, h.types, h.ints, h.unit⟩

theorem yields_pushNoExprs {k : ExprRole} :
    Yields w pushNoExprs fun _ w' => w'.Lies (((expr k .none).placed r whole).atop l) := by
  intro b w' hok
  cases hok
  exact ⟨h.nodes, h.exprs.pushEmpty, h.identifiers, h.types, h.ints, h.unit⟩

theorem yields_pushTypeNode {n : TypeNode} {k : TypeRole} (hn : n.At r) :
    Yields w (pushTypeNode n) fun _ w' => w'.Lies (((type k).placed r whole).atop l) := by
  intro b w' hok
  cases hok
  exact ⟨h.nodes, h.exprs, h.identifiers, h.types.push hn, h.ints, h.unit⟩

theorem yields_pushType {t : TypeRef} (ht : r.Holds t.span) :
    Yields w (pushType t) fun _ w' => w'.Lies ((type.placed r whole).atop l) :=
  yields_pushTypeNode h ht

theorem yields_pushNoTypes {k : TypeRole} :
    Yields w pushNoTypes fun _ w' => w'.Lies (((type k .none).placed r whole).atop l) := by
  intro b w' hok
  cases hok
  exact ⟨h.nodes, h.exprs, h.identifiers, h.types.pushEmpty, h.ints, h.unit⟩

theorem yields_pushInt {n : Nat} {k : IntPlace} (hn : k.Has n) :
    Yields w (pushInt n) fun _ w' => w'.Lies { l with ints := k :: l.ints } := by
  intro b w' hok
  cases hok
  exact ⟨h.nodes, h.exprs, h.identifiers, h.types, .cons hn h.ints, h.unit⟩

theorem yields_pushAnyInt {n : Nat} :
    Yields w (pushInt n) fun _ w' => w'.Lies ((int.placed r whole).atop l) :=
  yields_pushInt (k := .any) h trivial

theorem yields_pushStatement {s : Statement} :
    Yields w (pushStatement s) fun _ w' => w'.Lies (((node .statement).placed r false).atop l) :=
  yields_pushNode h (.of_lies trivial)

end

/-! ### Taking -/

section

variable {r : Region} {whole : Bool} {c : Count}

theorem yields_popNode {k : NodeRole} (h : w.Lies (((node k c).placed r whole).atop l)) :
    Yields w popNode fun n w' => NodePlace.Has ⟨r, whole⟩ n ∧ w'.Lies l :=
  yields_onNodes h fun _ _ => h.nodes.of_pop

theorem yields_popNodes {k : NodeRole} (h : w.Lies (((node k c).placed r whole).atop l)) :
    Yields w popNodes fun ns w' => (∀ n ∈ ns, NodePlace.Has ⟨r, whole⟩ n) ∧ w'.Lies l :=
  yields_onNodes h fun _ _ => h.nodes.of_popSegment

theorem yields_popOptionalNode {k : NodeRole} (h : w.Lies (((node k c).placed r whole).atop l)) :
    Yields w popOptionalNode fun _ w' => w'.Lies l :=
  (yields_onNodes h fun _ _ => h.nodes.of_popOptional).mono fun _ _ => And.right

theorem yields_popExpr {k : ExprRole} (h : w.Lies (((expr k c).placed r whole).atop l)) :
    Yields w popExpr fun e w' => e.At r ∧ w'.Lies l :=
  yields_onExprs h fun _ _ => h.exprs.of_pop

theorem yields_popExprs {k : ExprRole} (h : w.Lies (((expr k c).placed r whole).atop l)) :
    Yields w popExprs fun _ w' => w'.Lies l :=
  (yields_onExprs h fun _ _ => h.exprs.of_popSegment).mono fun _ _ => And.right

theorem yields_popNoExprs (h : w.Lies { l with exprs := ⟨r, .none⟩ :: l.exprs }) :
    Yields w popExprs fun es w' => es = [] ∧ w'.Lies l := by
  refine yields_onExprs h fun es s hok => ?_
  obtain ⟨segment, rest, hpop, hsegment, hrest⟩ := h.exprs.popSegment
  rw [hok] at hpop
  cases hpop
  exact ⟨List.eq_nil_of_length_eq_zero hsegment.count, hrest⟩

theorem yields_popOptionalExpr {k : ExprRole} (h : w.Lies (((expr k c).placed r whole).atop l)) :
    Yields w popOptionalExpr fun _ w' => w'.Lies l :=
  (yields_onExprs h fun _ _ => h.exprs.of_popOptional).mono fun _ _ => And.right

theorem yields_popIdentifier (h : w.Lies (((word c).placed r whole).atop l)) :
    Yields w popIdentifier fun i w' => r.Holds i.span ∧ w'.Lies l :=
  yields_onIdentifiers h fun _ _ => h.identifiers.of_pop

theorem yields_popIdentifiers (h : w.Lies (((word c).placed r whole).atop l)) :
    Yields w (onStacks (.onIdentifiers SegmentStack.popSegment)) fun is w' =>
      (∀ i ∈ is, r.Holds i.span) ∧ w'.Lies l :=
  yields_onIdentifiers h fun _ _ => h.identifiers.of_popSegment

/-- The range of a name lies where the words do. -/
theorem holds_name {segments : List Identifier} (hne : segments ≠ [])
    (h : ∀ i ∈ segments, r.Holds i.span) : r.Holds (QualifiedName.mk segments).span := by
  obtain ⟨first, rest, rfl⟩ := List.exists_cons_of_ne_nil hne
  obtain ⟨s, hull⟩ : ∃ s, Span.hull ((first :: rest).map (·.span)) = some s := ⟨_, rfl⟩
  have hspan : (QualifiedName.mk (first :: rest)).span = s := by
    unfold QualifiedName.span QualifiedName.positions
    rw [hull]
    rfl
  rw [hspan]
  refine .hull (fun t ht => ?_) hull
  obtain ⟨i, hi, rfl⟩ := List.mem_map.mp ht
  exact h i hi

theorem yields_popName (h : w.Lies (((word c).placed r whole).atop l)) :
    Yields w popName fun name w' => r.Holds name.span ∧ w'.Lies l := by
  refine .bind (yields_popIdentifiers h) fun segments w' hsegments => ?_
  split
  · intro b w'' hok
    cases hok
  · rename_i segments hne
    exact .pure ⟨holds_name hne hsegments.1, hsegments.2⟩

theorem yields_popInt {k : IntPlace} (h : w.Lies { l with ints := k :: l.ints }) :
    Yields w popInt fun n w' => k.Has n ∧ w'.Lies l := by
  intro n w' hok
  have hints := h.ints
  unfold popInt onStacks StackM.popInt at hok
  cases hvalues : w.values.ints with
  | nil =>
      rw [hvalues] at hok
      cases hok
  | cons n' ints =>
      rw [hvalues] at hok hints
      cases hok
      cases hints with
      | cons hn hrest => exact ⟨hn, h.nodes, h.exprs, h.identifiers, h.types, hrest, h.unit⟩

theorem yields_popAnyInt (h : w.Lies ((int.placed r whole).atop l)) :
    Yields w popInt fun _ w' => w'.Lies l :=
  (yields_popInt (k := .any) (l := l) h).mono fun _ _ => And.right

/-! ### Taking what a role promises -/

/-- Each item of a list that was read from another one was read from an item of that. -/
theorem forall_of_mapM {as? : β → Option γ} {P : γ → Prop} {xs : List β} {ys : List γ}
    (hxs : ∀ x ∈ xs, ∀ y, as? x = some y → P y) (h : xs.mapM as? = some ys) : ∀ y ∈ ys, P y := by
  induction xs generalizing ys with
  | nil =>
      cases h
      exact nofun
  | cons x xs ih =>
      rw [List.mapM_cons] at h
      obtain ⟨y, hy, h⟩ := Option.bind_eq_some_iff.mp h
      obtain ⟨rest, hrest, h⟩ := Option.bind_eq_some_iff.mp h
      cases h
      have htail := ih (fun z hz => hxs z (List.mem_cons_of_mem x hz)) hrest
      exact List.forall_mem_cons.mpr ⟨hxs x List.mem_cons_self y hy, htail⟩

section

variable {k : NodeRole} {as? : Node → Option β} {P : β → Prop} {stack : StackName}
  {expected : NodeSort} (has : ∀ n b, NodePlace.Has ⟨r, whole⟩ n → as? n = some b → P b)

include has

theorem yields_popNodeAs (h : w.Lies (((node k c).placed r whole).atop l)) :
    Yields w (do expectNode stack expected (as? (← popNode))) fun b w' => P b ∧ w'.Lies l :=
  .bind (yields_popNode h) fun n _ hn =>
    yields_expectNode fun b hb => ⟨has n b hn.1 hb, hn.2⟩

theorem yields_popNodesAs (h : w.Lies (((node k c).placed r whole).atop l)) :
    Yields w (do expectNode stack expected ((← popNodes).mapM as?)) fun bs w' =>
      (∀ b ∈ bs, P b) ∧ w'.Lies l :=
  .bind (yields_popNodes h) fun _ _ hns => yields_expectNode fun _ hbs =>
    ⟨forall_of_mapM (fun n hn b => has n b (hns.1 n hn)) hbs, hns.2⟩

theorem yields_peekAs (h : w.Lies (((node k).placed r whole).atop l)) :
    Yields w (do expectNode stack expected (as? (← onStacks (.onNodes SegmentStack.peek))))
      fun b w' => P b ∧ w'.Lies (((node k).placed r whole).atop l) := by
  obtain ⟨n, hpeek, hn⟩ := h.nodes.peek
  refine .bind (yields_onNodes (P := NodePlace.Has ⟨r, whole⟩) h fun b s hok => ?_)
    fun n _ hn => yields_expectNode fun b hb => ⟨has n b hn.1 hb, hn.2⟩
  rw [hpeek] at hok
  cases hok
  exact ⟨hn, h.nodes⟩

end

theorem yields_popTypesAs {k : TypeRole} {as? : TypeNode → Option β} {P : β → Prop}
    {stack : StackName} {expected : NodeSort} (has : ∀ n b, n.At r → as? n = some b → P b)
    (h : w.Lies (((type k c).placed r whole).atop l)) :
    Yields w (do
      expectNode stack expected ((← onStacks (.onTypes SegmentStack.popSegment)).mapM as?))
      fun bs w' => (∀ b ∈ bs, P b) ∧ w'.Lies l :=
  .bind (yields_onTypes h fun _ _ => h.types.of_popSegment) fun _ _ hns =>
    yields_expectNode fun _ hbs => ⟨forall_of_mapM (fun n hn b => has n b (hns.1 n hn)) hbs, hns.2⟩

theorem holds_of_asType? {n : TypeNode} {t : TypeRef} (hn : n.At r) (h : asType? n = some t) :
    r.Holds t.span := by
  cases n with
  | type t' =>
      cases h
      exact hn
  | wildcard | parameter _ => cases h

theorem yields_popType {k : TypeRole} (h : w.Lies (((type k c).placed r whole).atop l)) :
    Yields w popType fun t w' => r.Holds t.span ∧ w'.Lies l :=
  .bind (yields_onTypes h fun _ _ => h.types.of_pop) fun _ _ hn =>
    yields_expectNode fun _ ht => ⟨holds_of_asType? hn.1 ht, hn.2⟩

theorem yields_popTypes {k : TypeRole} (h : w.Lies (((type k c).placed r whole).atop l)) :
    Yields w popTypes fun ts w' => (∀ t ∈ ts, r.Holds t.span) ∧ w'.Lies l :=
  yields_popTypesAs (fun _ _ => holds_of_asType?) h

theorem yields_popTypeArguments {k : TypeRole}
    (h : w.Lies (((type k c).placed r whole).atop l)) :
    Yields w popTypeArguments fun _ w' => w'.Lies l :=
  (yields_popTypesAs (P := fun _ => True) (fun _ _ _ _ => trivial) h).mono fun _ _ => And.right

theorem yields_popTypeParameters {present : Bool}
    (h : w.Lies (((provided present (type .parameter .many)).placed r whole).atop l)) :
    Yields w (popTypeParameters present) fun _ w' => w'.Lies l := by
  cases present with
  | false => exact .pure h
  | true =>
      exact (yields_popTypesAs (P := fun _ => True) (fun _ _ _ _ => trivial) h).mono
        fun _ _ => And.right

/-- A run of modifiers starts not before its region. -/
theorem yields_popModifiers (h : w.Lies ((modifiers.placed r whole).atop l)) :
    Yields w popModifiers fun m w' => r.lo ≤ m.start ∧ w'.Lies l := by
  refine .bind (yields_popInt (k := .offset r.lo none)
    (l := ((expr .expr .many).placed r whole).atop { l with ints := .any :: l.ints }) h)
    fun start _ hstart => ?_
  refine .bind (yields_popInt (k := .any) (l := ((expr .expr .many).placed r whole).atop l)
    hstart.2) fun _ _ hflags => ?_
  exact .bind (yields_popExprs hflags.2) fun _ _ hexprs => .pure ⟨hstart.1.1, hexprs⟩

/-- A run of modifiers that holds something also starts in its region. -/
theorem yields_popModifiersIn {covers : Bool} (h : w.Lies ((Layout.modifiers r covers).atop l)) :
    Yields w popModifiers fun m w' =>
      (r.lo ≤ m.start ∧ (m.isEmpty = false → m.start ≤ r.hi)) ∧ w'.Lies l := by
  cases covers with
  | true =>
      refine .bind (yields_popInt (k := .offset r.lo (some r.hi))
        (l := ((expr .expr .many).placed r true).atop { l with ints := .any :: l.ints }) h)
        fun start _ hstart => ?_
      refine .bind (yields_popInt (k := .any) (l := ((expr .expr .many).placed r true).atop l)
        hstart.2) fun _ _ hflags => ?_
      refine .bind (yields_popExprs hflags.2) fun _ _ hexprs => .pure ⟨?_, hexprs⟩
      exact ⟨hstart.1.1, fun _ => hstart.1.2 r.hi rfl⟩
  | false =>
      refine .bind (yields_popInt (k := .offset r.lo none)
        (l := { l with exprs := ⟨r, .none⟩ :: l.exprs, ints := .zero :: l.ints }) h)
        fun start _ hstart => ?_
      refine .bind (yields_popInt (k := .zero) (l := { l with exprs := ⟨r, .none⟩ :: l.exprs })
        hstart.2) fun flags _ hflags => ?_
      refine .bind (yields_popNoExprs hflags.2) fun exprs _ hexprs => .pure ⟨⟨hstart.1.1, ?_⟩, hexprs.2⟩
      have hzero : flags = 0 := hflags.1
      intro hsome
      rw [hzero, hexprs.1] at hsome
      cases hsome

theorem yields_popModifiersIf {present : Bool}
    (h : w.Lies (((provided present modifiers).placed r whole).atop l)) :
    Yields w (popModifiersIf present) fun _ w' => w'.Lies l := by
  cases present with
  | false => exact .pure h
  | true => exact (yields_popModifiers h).mono fun _ _ => And.right

theorem yields_popParameter {k : NodeRole} (h : w.Lies (((node k c).placed r whole).atop l)) :
    Yields w popParameter fun _ w' => w'.Lies l :=
  (yields_popNodeAs (P := fun _ => True) (fun _ _ _ _ => trivial) h).mono fun _ _ => And.right

theorem yields_popParameters {k : NodeRole} (h : w.Lies (((node k c).placed r whole).atop l)) :
    Yields w popParameters fun _ w' => w'.Lies l :=
  (yields_popNodesAs (P := fun _ => True) (fun _ _ _ _ => trivial) h).mono fun _ _ => And.right

theorem holds_of_asDeclarator? {n : Node} {d : Declarator} (hn : NodePlace.Has ⟨r, whole⟩ n)
    (h : asDeclarator? n = some d) : r.Holds d.name.span := by
  cases n <;> cases h
  exact hn.lies

theorem yields_popDeclarator {k : NodeRole} (h : w.Lies (((node k c).placed r whole).atop l)) :
    Yields w popDeclarator fun d w' => r.Holds d.name.span ∧ w'.Lies l :=
  yields_popNodeAs (fun _ _ => holds_of_asDeclarator?) h

theorem yields_popDeclarators {k : NodeRole} (h : w.Lies (((node k c).placed r whole).atop l)) :
    Yields w popDeclarators fun ds w' =>
      (∀ d ∈ ds, r.Holds d.name.span) ∧ w'.Lies l :=
  yields_popNodesAs (fun _ _ => holds_of_asDeclarator?) h

theorem holds_of_asStatement? {n : Node} {s : Statement} (hn : NodePlace.Has ⟨r, whole⟩ n)
    (h : asStatement? n = some s) : whole = true → r.Holds s.span := by
  cases n <;> cases h
  exact hn.whole

theorem yields_popStatement {k : NodeRole} (h : w.Lies (((node k c).placed r whole).atop l)) :
    Yields w popStatement fun s w' => (whole = true → r.Holds s.span) ∧ w'.Lies l :=
  yields_popNodeAs (fun _ _ => holds_of_asStatement?) h

theorem yields_popStatements {k : NodeRole} (h : w.Lies (((node k c).placed r whole).atop l)) :
    Yields w popStatements fun _ w' => w'.Lies l :=
  (yields_popNodesAs (P := fun _ => True) (fun _ _ _ _ => trivial) h).mono fun _ _ => And.right

theorem yields_popBlock {k : NodeRole} (h : w.Lies (((node k c).placed r whole).atop l)) :
    Yields w popBlock fun b w' => (whole = true → r.Holds b.span) ∧ w'.Lies l := by
  refine .bind (yields_popStatement h) fun s _ hs => yields_expectNode fun b hb => ?_
  cases s <;> cases hb
  exact hs

theorem holds_of_asFragment? {n : Node} {f : Fragment} (hn : NodePlace.Has ⟨r, whole⟩ n)
    (h : asFragment? n = some f) : r.Holds f.span := by
  cases n <;> cases h
  exact hn.lies

theorem yields_popFragment {k : NodeRole} (h : w.Lies (((node k c).placed r whole).atop l)) :
    Yields w popFragment fun f w' => r.Holds f.span ∧ w'.Lies l :=
  yields_popNodeAs (fun _ _ => holds_of_asFragment?) h

theorem yields_popFragments {k : NodeRole} (h : w.Lies (((node k c).placed r whole).atop l)) :
    Yields w popFragments fun fs w' => (∀ f ∈ fs, r.Holds f.span) ∧ w'.Lies l :=
  yields_popNodesAs (fun _ _ => holds_of_asFragment?) h

/-! ### Changing the topmost declaration -/

section

variable {r' : Region} {whole' : Bool} {k k' : NodeRole}

theorem yields_replaceTop {n : Node} (h : w.Lies (((node k).placed r whole).atop l))
    (hn : NodePlace.Has ⟨r', whole'⟩ n) :
    Yields w (replaceTop n) fun _ w' => w'.Lies (((node k').placed r' whole').atop l) := by
  obtain ⟨s, hmodify, hs⟩ := h.nodes.replaceTop hn
  refine (yields_onNodes (P := fun _ => True) h fun b s' hok => ?_).mono fun _ _ => And.right
  rw [hmodify] at hok
  cases hok
  exact ⟨trivial, hs⟩

theorem has_of_asTypeDecl? {n : Node} {t : TypeDecl} (hn : NodePlace.Has ⟨r, whole⟩ n)
    (h : asTypeDecl? n = some t) : NodePlace.Has ⟨r, whole⟩ (.type t) := by
  cases n <;> cases h
  exact hn

theorem has_of_asMethod? {n : Node} {m : MethodDecl} (hn : NodePlace.Has ⟨r, whole⟩ n)
    (h : asMethod? n = some m) : NodePlace.Has ⟨r, whole⟩ (.method m) := by
  cases n <;> cases h
  exact hn

theorem yields_typeOnTop {expected : NodeSort}
    (h : w.Lies (((node k).placed r whole).atop l)) :
    Yields w (typeOnTop expected) fun t w' =>
      NodePlace.Has ⟨r, whole⟩ (.type t) ∧ w'.Lies (((node k).placed r whole).atop l) :=
  yields_peekAs (fun _ _ => has_of_asTypeDecl?) h

theorem yields_methodOnTop {expected : NodeSort}
    (h : w.Lies (((node k).placed r whole).atop l)) :
    Yields w (methodOnTop expected) fun m w' =>
      NodePlace.Has ⟨r, whole⟩ (.method m) ∧ w'.Lies (((node k).placed r whole).atop l) :=
  yields_peekAs (fun _ _ => has_of_asMethod?) h

theorem yields_updateType {change : TypeDecl → TypeDecl}
    (h : w.Lies (((node k).placed r whole).atop l))
    (hchange : ∀ t, NodePlace.Has ⟨r, whole⟩ (.type t) →
      NodePlace.Has ⟨r', whole'⟩ (.type (change t))) :
    Yields w (updateType change) fun _ w' => w'.Lies (((node k').placed r' whole').atop l) :=
  .bind (yields_typeOnTop h) fun t _ ht => yields_replaceTop ht.2 (hchange t ht.1)

theorem yields_updateMethod {change : MethodDecl → MethodDecl}
    (h : w.Lies (((node k).placed r whole).atop l))
    (hchange : ∀ m, NodePlace.Has ⟨r, whole⟩ (.method m) →
      NodePlace.Has ⟨r', whole'⟩ (.method (change m))) :
    Yields w (updateMethod change) fun _ w' => w'.Lies (((node k').placed r' whole').atop l) :=
  .bind (yields_methodOnTop h) fun m _ hm => yields_replaceTop hm.2 (hchange m hm.1)

end

/-! ### Reporting -/

theorem yields_get : Yields w get fun seen w' => seen = w ∧ w' = w := by
  intro _ _ hok
  cases hok
  exact ⟨rfl, rfl⟩

theorem yields_set (h : w'.Lies l) : Yields w (set w') fun _ w'' => w''.Lies l := by
  intro _ _ hok
  cases hok
  exact h

theorem yields_report {id : ProblemKind} {span : Span} {arguments : List String}
    (h : w.Lies l) : Yields w (report id span arguments) fun _ w' => w'.Lies l := by
  intro b w' hok
  cases hok
  exact h.of_values rfl rfl

theorem yields_withReporter {f : Reporter → β × Reporter} (h : w.Lies l) :
    Yields w (withReporter f) fun b w' => (∃ reporter, b = (f reporter).1) ∧ w'.Lies l := by
  intro b w' hok
  cases hok
  exact ⟨⟨w.reporter, rfl⟩, h.of_values rfl rfl⟩

end

end Work

end AspectLang
