import AspectLang.Proofs.Aspect.ProblemSpans
import AspectLang.Proofs.Parse.Layouts
import AspectLang.Proofs.Parse.Spacing

/-! # Seats of the values on the stacks

Every segment of nodes, expressions or words has a seat: the place in the text of the symbol that
left it.  The values of a segment lie in that place, with ranges that nest, and expressions and
words are in the order of the text.  `Workspace.Sits` says so of all segments, and that all that was
reported lies in the text.  Types and numbers have no seats.  Each way of adding and taking values
adds and takes seats. -/

namespace AspectLang

/-! ### Stacks whose segments are told apart -/

namespace SegmentStack

variable {κ α : Type} {Has : κ → List α → Prop} {k k' : κ} {ks ks' : List κ}
  {s rest : SegmentStack α}

/-- Each segment of a stack is as its key tells, the topmost first. -/
inductive Seated (Has : κ → List α → Prop) : List κ → SegmentStack α → Prop
  | empty : Seated Has [] ⟨[], []⟩
  | segment {ks : List κ} {k : κ} {items segment : List α} {lengths : List Nat} :
      Seated Has ks ⟨items, lengths⟩ → Has k segment →
        Seated Has (k :: ks) ⟨segment.reverse ++ items, segment.length :: lengths⟩

namespace Seated

theorem push {a : α} (h : Seated Has ks s) (ha : Has k [a]) : Seated Has (k :: ks) (s.push a) :=
  .segment h ha

theorem pushEmpty (h : Seated Has ks s) (hk : Has k []) :
    Seated Has (k :: ks) (s.pushLength 0) := by
  have hempty : Seated Has (k :: ks) ⟨[].reverse ++ s.items, 0 :: s.lengths⟩ := .segment h hk
  exact hempty

theorem of_popSegment {segment : List α} (h : Seated Has (k :: ks) s)
    (hpop : SegmentStack.popSegment s = .ok segment rest) :
    Has k segment ∧ Seated Has ks rest := by
  cases h with
  | @segment _ _ items taken lengths hrest htaken =>
      have htake : (taken.reverse ++ items).take taken.length = taken.reverse := by
        rw [← List.length_reverse, List.take_left]
      have hdrop : (taken.reverse ++ items).drop taken.length = items := by
        rw [← List.length_reverse, List.drop_left]
      simp only [SegmentStack.popSegment, htake, hdrop, List.length_reverse, Nat.lt_irrefl, if_false,
        List.reverse_reverse] at hpop
      cases hpop
      exact ⟨htaken, hrest⟩

theorem of_pop {a : α} (h : Seated Has (k :: ks) s) (hpop : SegmentStack.pop s = .ok a rest) :
    Has k [a] ∧ Seated Has ks rest := by
  cases h with
  | @segment _ _ items taken lengths hrest htaken =>
      unfold SegmentStack.pop at hpop
      dsimp only at hpop
      split at hpop
      · rename_i hone
        obtain ⟨b, rfl⟩ := List.length_eq_one_iff.mp hone
        cases hpop
        exact ⟨htaken, hrest⟩
      · cases hpop

theorem of_popOptional {a : Option α} (h : Seated Has (k :: ks) s)
    (hpop : SegmentStack.popOptional s = .ok a rest) : Has k a.toList ∧ Seated Has ks rest := by
  unfold SegmentStack.popOptional at hpop
  simp only [bind, EStateM.bind] at hpop
  cases htaken : SegmentStack.popSegment s with
  | error e s' =>
      rw [htaken] at hpop
      cases hpop
  | ok segment s' =>
      rw [htaken] at hpop
      have hsegment := h.of_popSegment htaken
      rcases segment with _ | ⟨b, _ | ⟨c, more⟩⟩
      · cases hpop
        exact hsegment
      · cases hpop
        exact hsegment
      · cases hpop

theorem of_concat {k'' : κ} (h : Seated Has (k :: k' :: ks) s)
    (hjoin : ∀ below top, Has k' below → Has k top → Has k'' (below ++ top))
    (hconcat : SegmentStack.concat s = .ok () rest) : Seated Has (k'' :: ks) rest := by
  cases h with
  | @segment _ _ _ top _ hbelow htop =>
      cases hbelow with
      | @segment _ _ items below lengths hrest hbelow =>
          have hjoined : Seated Has (k'' :: ks)
              ⟨(below ++ top).reverse ++ items, (below ++ top).length :: lengths⟩ :=
            .segment hrest (hjoin below top hbelow htop)
          have hresult : SegmentStack.concat
              ⟨top.reverse ++ (below.reverse ++ items), top.length :: below.length :: lengths⟩ =
              .ok () ⟨(below ++ top).reverse ++ items, (below ++ top).length :: lengths⟩ := by
            simp [SegmentStack.concat]
          rw [hresult] at hconcat
          cases hconcat
          exact hjoined

/-- Every value on a stack is in one of its segments. -/
theorem exists_segment (h : Seated Has ks s) {a : α} (ha : a ∈ s.items) :
    ∃ k ∈ ks, ∃ segment, Has k segment ∧ a ∈ segment := by
  induction h with
  | empty => cases ha
  | @segment ks k items segment lengths _ hsegment ih =>
      rcases List.mem_append.mp ha with ha | ha
      · exact ⟨k, List.mem_cons_self, segment, hsegment, List.mem_reverse.mp ha⟩
      · obtain ⟨k', hk', found⟩ := ih ha
        exact ⟨k', List.mem_cons_of_mem k hk', found⟩

/-- The topmost value is the last one of the topmost segment that has any. -/
theorem of_modifyTop {b : α} (h : Seated Has ks s)
    (hlast : ∀ k front a, Has k (front ++ [a]) → Has k (front ++ [b]))
    (hmodify : SegmentStack.modifyTop (fun _ => b) s = .ok () rest) : Seated Has ks rest := by
  induction h generalizing rest with
  | empty => cases hmodify
  | @segment ks k items segment lengths hrest hsegment ih =>
      rcases List.eq_nil_or_concat segment with rfl | ⟨front, a, rfl⟩
      · cases items with
        | nil => cases hmodify
        | cons a items =>
            cases hmodify
            have hbelow : Seated Has ks ⟨b :: items, lengths⟩ := ih rfl
            have hempty : Seated Has (k :: ks) ⟨[].reverse ++ b :: items, 0 :: lengths⟩ :=
              .segment hbelow hsegment
            exact hempty
      · rw [List.concat_eq_append] at hmodify hsegment
        have hchanged : Seated Has (k :: ks)
            ⟨(front ++ [b]).reverse ++ items, (front ++ [b]).length :: lengths⟩ :=
          .segment hrest (hlast k front a hsegment)
        simp only [SegmentStack.modifyTop, List.reverse_append, List.reverse_singleton,
          List.cons_append, List.nil_append] at hmodify
        cases hmodify
        simpa using hchanged

theorem widen {below : κ → κ → Prop} (h : Seated Has ks s)
    (hbelow : ∀ k k' segment, below k k' → Has k segment → Has k' segment)
    (hks : List.Forall₂ below ks ks') : Seated Has ks' s := by
  induction hks generalizing s with
  | nil => exact h
  | cons hk _ ih =>
      cases h with
      | segment hrest hsegment => exact .segment (ih hrest) (hbelow _ _ _ hk hsegment)

end Seated

end SegmentStack

/-! ### Values in their places -/

/-- A part lies in a place, and its ranges nest. -/
structure Part.LiesIn (g : Spacing) (σ : Place) (p : Part) : Prop where
  holds : σ.Holds p.span
  nested : p.Nested g.gap

/-- The ranges of a part lie in the text, and nest. -/
structure Part.Lies (g : Spacing) (p : Part) : Prop where
  ends : p.span.EndsBy g.limit
  nested : p.Nested g.gap

/-- The ranges of a statement lie in the text, and nest. -/
abbrev Statement.Lies (g : Spacing) (s : Statement) : Prop := (Part.statement s).Lies g

/-- The statements in a declaration lie in the text. -/
def Member.Lies (g : Spacing) (m : Member) : Prop := ∀ s ∈ m.outermost, s.Lies g

/-- Ranges lie in a place, one behind the other. -/
structure InRow (g : Spacing) (σ : Place) (spans : List Span) : Prop where
  holds : ∀ s ∈ spans, σ.Holds s
  apart : spans.Pairwise (Span.Precedes g.gap)

/-- Expressions lie in a place, one behind the other, and their ranges nest. -/
structure ExprRow (g : Spacing) (σ : Place) (es : List Expr) : Prop where
  row : InRow g σ (es.map Expr.span)
  nested : ∀ e ∈ es, (Part.expr e).Nested g.gap

/-- Words lie in a place, one behind the other. -/
def WordRow (g : Spacing) (σ : Place) (words : List Identifier) : Prop :=
  InRow g σ (words.map Identifier.span)

/-- Annotations lie in a place. -/
def AnnotationsIn (g : Spacing) (σ : Place) (annotations : List AnnotationUse) : Prop :=
  ∀ p ∈ annotationParts annotations, p.LiesIn g σ

/-- A declarator lies in a place, and around its initial value. -/
structure Declarator.LiesIn (g : Spacing) (σ : Place) (d : Declarator) : Prop where
  holds : σ.Holds d.span
  name : d.name.span.EndsBy g.limit
  initializer : ∀ p ∈ optionalPart d.initializer, p.LiesIn g (some d.span)

/-- A node lies in a place, where it is a statement or a part of one; what it tells of other places
lies in the text. -/
def Node.Sits (g : Spacing) (σ : Place) : Node → Prop
  | .package _ | .importDecl _ => True
  | .type t => Member.Lies g (.type t)
  | .method m => Member.Lies g (.method m)
  | .field f => Member.Lies g (.field f)
  | .initializer i => Member.Lies g (.initializer i)
  | .parameter p => AnnotationsIn g σ p.annotations
  | .statement s => (Part.statement s).LiesIn g σ
  | .catchClause c => (Part.handler c).LiesIn g σ
  | .declarator d => d.LiesIn g σ
  | .extraParameter e => e.name.span.EndsBy g.limit
  | .fragment f => f.EndsBy g.limit

/-- Nodes lie in a place; there is just one of them where that is told. -/
structure NodeRow (g : Spacing) (k : Bool × Place) (ns : List Node) : Prop where
  single : k.1 = true → ns.length = 1
  sits : ∀ n ∈ ns, n.Sits g k.2

section

variable {g : Spacing} {σ τ υ : Place}

theorem Part.LiesIn.within {p : Part} (h : p.LiesIn g σ) (hσ : σ.Within τ) : p.LiesIn g τ :=
  ⟨h.holds.within hσ, h.nested⟩

theorem AnnotationsIn.within {annotations : List AnnotationUse}
    (h : AnnotationsIn g σ annotations) (hσ : σ.Within τ) : AnnotationsIn g τ annotations :=
  fun p hp => (h p hp).within hσ

theorem InRow.within {spans : List Span} (h : InRow g σ spans) (hσ : σ.Within τ) :
    InRow g τ spans := ⟨fun s hs => (h.holds s hs).within hσ, h.apart⟩

theorem InRow.nil : InRow g σ [] := ⟨nofun, .nil⟩

theorem InRow.singleton {s : Span} (h : σ.Holds s) : InRow g σ [s] :=
  ⟨fun _ ht => List.mem_singleton.mp ht ▸ h, List.pairwise_singleton ..⟩

/-- Two rows one behind the other are a row. -/
theorem InRow.append {below top : List Span} (hbelow : InRow g σ below) (htop : InRow g τ top)
    (hσ : σ.Within υ) (hτ : τ.Within υ) (hστ : σ.Precedes g.gap τ) :
    InRow g υ (below ++ top) where
  holds s hs := (List.mem_append.mp hs).elim (fun hs => (hbelow.holds s hs).within hσ)
    fun hs => (htop.holds s hs).within hτ
  apart := List.pairwise_append.mpr ⟨hbelow.apart, htop.apart,
    fun s hs t ht => hστ.of_holds (hbelow.holds s hs) (htop.holds t ht)⟩

theorem ExprRow.within {es : List Expr} (h : ExprRow g σ es) (hσ : σ.Within τ) : ExprRow g τ es :=
  ⟨h.row.within hσ, h.nested⟩

theorem ExprRow.nil : ExprRow g σ [] := ⟨.nil, nofun⟩

theorem ExprRow.singleton {e : Expr} (h : (Part.expr e).LiesIn g σ) : ExprRow g σ [e] :=
  ⟨.singleton h.holds, fun _ he => List.mem_singleton.mp he ▸ h.nested⟩

theorem ExprRow.append {below top : List Expr} (hbelow : ExprRow g σ below)
    (htop : ExprRow g τ top) (hσ : σ.Within υ) (hτ : τ.Within υ) (hστ : σ.Precedes g.gap τ) :
    ExprRow g υ (below ++ top) where
  row := by
    rw [List.map_append]
    exact hbelow.row.append htop.row hσ hτ hστ
  nested e he := (List.mem_append.mp he).elim (hbelow.nested e) (htop.nested e)

theorem ExprRow.liesIn {es : List Expr} (h : ExprRow g σ es) {e : Expr} (he : e ∈ es) :
    (Part.expr e).LiesIn g σ :=
  ⟨h.row.holds e.span (List.mem_map_of_mem he), h.nested e he⟩

theorem ExprRow.parts_liesIn {es : List Expr} (h : ExprRow g σ es) :
    ∀ p ∈ es.map Part.expr, p.LiesIn g σ := by
  intro p hp
  obtain ⟨e, he, rfl⟩ := List.mem_map.mp hp
  exact h.liesIn he

theorem Node.Sits.within {n : Node} (h : n.Sits g σ) (hσ : σ.Within τ) : n.Sits g τ := by
  cases n with
  | package _ | importDecl _ | type _ | method _ | field _ | initializer _ | extraParameter _
  | fragment _ => exact h
  | parameter _ => exact AnnotationsIn.within h hσ
  | statement _ | catchClause _ => exact Part.LiesIn.within h hσ
  | declarator _ => exact ⟨(Declarator.LiesIn.holds h).within hσ, Declarator.LiesIn.name h,
      Declarator.LiesIn.initializer h⟩

theorem NodeRow.of_forall {ns : List Node} (h : ∀ n ∈ ns, n.Sits g σ) : NodeRow g (false, σ) ns :=
  ⟨nofun, h⟩

theorem NodeRow.nil : NodeRow g (false, σ) [] := .of_forall fun _ hn => absurd hn List.not_mem_nil

theorem NodeRow.singleton {n : Node} {single : Bool} (h : n.Sits g σ) :
    NodeRow g (single, σ) [n] := ⟨fun _ => rfl, fun _ hm => List.mem_singleton.mp hm ▸ h⟩

end

/-! ### Seats -/

/-- What a segment consists of: nodes, just one of them if it is single, expressions, or words. -/
inductive SegmentKind where
  | nodes (single : Bool)
  | exprs
  | words
deriving DecidableEq

/-- A segment may be taken for one of another kind. -/
def SegmentKind.within : SegmentKind → SegmentKind → Bool
  | .nodes single, .nodes single' => single || !single'
  | .exprs, .exprs | .words, .words => true
  | _, _ => false

/-- What a segment consists of, and where its values lie. -/
structure Seat where
  kind : SegmentKind
  place : Place

namespace Seat

/-- The place of a segment of nodes, and whether there is just one. -/
def node? : Seat → Option (Bool × Place)
  | ⟨.nodes single, σ⟩ => some (single, σ)
  | _ => none

/-- The place of a segment of expressions. -/
def expr? : Seat → Option Place
  | ⟨.exprs, σ⟩ => some σ
  | _ => none

/-- The place of a segment of words. -/
def word? : Seat → Option Place
  | ⟨.words, σ⟩ => some σ
  | _ => none

/-- The seats when segments follow, the last one on top, each at the place with its number. -/
def followed (place : Nat → Place) (frame : List Seat) : (number : Nat) → List SegmentKind → List Seat
  | _, [] => frame
  | i, k :: kinds => followed place (⟨k, place i⟩ :: frame) (i + 1) kinds

/-- A segment may be taken for one that lies in a wider place. -/
structure Widens (s t : Seat) : Prop where
  kind : s.kind.within t.kind = true
  place : s.place.Within t.place

end Seat

/-- The values on the stacks sit where their seats are, and what was built or reported lies in the
text. -/
structure Workspace.Sits (g : Spacing) (w : Workspace) (seats : List Seat) : Prop where
  nodes : w.values.nodes.Seated (NodeRow g) (seats.filterMap Seat.node?)
  exprs : w.values.exprs.Seated (ExprRow g) (seats.filterMap Seat.expr?)
  words : w.values.identifiers.Seated (WordRow g) (seats.filterMap Seat.word?)
  unit : ∀ u ∈ w.unit, ∀ s ∈ u.outermost, s.Lies g
  reporter : w.reporter.EndsBy g.limit

section

variable {g : Spacing} {w w' : Workspace} {seats seats' : List Seat}

/-- Values alone matter, with what was built and reported. -/
theorem Workspace.Sits.of_values (h : w.Sits g seats) (hnodes : w'.values.nodes = w.values.nodes)
    (hexprs : w'.values.exprs = w.values.exprs)
    (hwords : w'.values.identifiers = w.values.identifiers) (hunit : w'.unit = w.unit)
    (hreporter : w'.reporter.EndsBy g.limit) : w'.Sits g seats where
  nodes := hnodes ▸ h.nodes
  exprs := hexprs ▸ h.exprs
  words := hwords ▸ h.words
  unit := hunit ▸ h.unit
  reporter := hreporter

theorem Seat.Widens.refl (s : Seat) : s.Widens s := by
  refine ⟨?_, .refl s.place⟩
  cases s.kind with
  | nodes single => cases single <;> rfl
  | exprs | words => rfl

theorem Seat.Widens.node? {s t : Seat} (h : s.Widens t) :
    Option.Rel (fun a b : Bool × Place => (a.1 || !b.1) = true ∧ a.2.Within b.2) s.node? t.node? := by
  obtain ⟨_ | _ | _, σ⟩ := s <;> obtain ⟨_ | _ | _, τ⟩ := t <;>
    first | exact .none | exact .some ⟨h.kind, h.place⟩ | cases h.kind

theorem Seat.Widens.expr? {s t : Seat} (h : s.Widens t) :
    Option.Rel Place.Within s.expr? t.expr? := by
  obtain ⟨_ | _ | _, σ⟩ := s <;> obtain ⟨_ | _ | _, τ⟩ := t <;>
    first | exact .none | exact .some h.place | cases h.kind

theorem Seat.Widens.word? {s t : Seat} (h : s.Widens t) :
    Option.Rel Place.Within s.word? t.word? := by
  obtain ⟨_ | _ | _, σ⟩ := s <;> obtain ⟨_ | _ | _, τ⟩ := t <;>
    first | exact .none | exact .some h.place | cases h.kind

theorem Seat.forall₂_filterMap {κ : Type} {f : Seat → Option κ} {R : κ → κ → Prop}
    (hf : ∀ s t, s.Widens t → Option.Rel R (f s) (f t))
    (hseats : List.Forall₂ Seat.Widens seats seats') :
    List.Forall₂ R (seats.filterMap f) (seats'.filterMap f) :=
  List.rel_filterMap (fun s t => hf s t) hseats

/-- Segments may be taken for others that lie in wider places. -/
theorem Workspace.Sits.widen (h : w.Sits g seats) (hseats : List.Forall₂ Seat.Widens seats seats') :
    w.Sits g seats' where
  nodes := by
    refine h.nodes.widen (fun a b ns hab hrow => ?_)
      (Seat.forall₂_filterMap (fun _ _ => Seat.Widens.node?) hseats)
    refine ⟨fun hb => hrow.single ?_, fun n hn => (hrow.sits n hn).within hab.2⟩
    simpa [hb] using hab.1
  exprs := h.exprs.widen (fun _ _ _ hσ hrow => hrow.within hσ)
    (Seat.forall₂_filterMap (fun _ _ => Seat.Widens.expr?) hseats)
  words := h.words.widen (fun _ _ _ hσ hrow => InRow.within hrow hσ)
    (Seat.forall₂_filterMap (fun _ _ => Seat.Widens.word?) hseats)
  unit := h.unit
  reporter := h.reporter

/-- The topmost segment may be taken for one in a wider place. -/
theorem Workspace.Sits.top {k : SegmentKind} {σ τ : Place} (h : w.Sits g (⟨k, σ⟩ :: seats))
    (hσ : σ.Within τ) : w.Sits g (⟨k, τ⟩ :: seats) :=
  h.widen (.cons ⟨(Seat.Widens.refl ⟨k, σ⟩).kind, hσ⟩ (List.forall₂_same.mpr fun s _ => .refl s))

end

/-! ### One stack at a time -/

namespace Work

variable {β : Type} {g : Spacing} {w w' : Workspace} {l l' : List Seat} {σ τ : Place}
  {P : β → Prop}

section

variable (h : w.Sits g l)

include h

theorem sits_onNodes {op : SegmentStack.Op Node β}
    (hop : ∀ b s, op w.values.nodes = .ok b s →
      P b ∧ s.Seated (NodeRow g) (l'.filterMap Seat.node?))
    (hexprs : l'.filterMap Seat.expr? = l.filterMap Seat.expr?)
    (hwords : l'.filterMap Seat.word? = l.filterMap Seat.word?) :
    Yields w (onStacks (.onNodes op)) fun b w' => P b ∧ w'.Sits g l' := by
  intro b w' hok
  unfold onStacks StackM.onNodes at hok
  cases hresult : op w.values.nodes with
  | error e s =>
      rw [hresult] at hok
      cases hok
  | ok b' s =>
      rw [hresult] at hok
      cases hok
      obtain ⟨hb, hs⟩ := hop b s hresult
      exact ⟨hb, hs, hexprs ▸ h.exprs, hwords ▸ h.words, h.unit, h.reporter⟩

theorem sits_onExprs {op : SegmentStack.Op Expr β}
    (hop : ∀ b s, op w.values.exprs = .ok b s →
      P b ∧ s.Seated (ExprRow g) (l'.filterMap Seat.expr?))
    (hnodes : l'.filterMap Seat.node? = l.filterMap Seat.node?)
    (hwords : l'.filterMap Seat.word? = l.filterMap Seat.word?) :
    Yields w (onStacks (.onExprs op)) fun b w' => P b ∧ w'.Sits g l' := by
  intro b w' hok
  unfold onStacks StackM.onExprs at hok
  cases hresult : op w.values.exprs with
  | error e s =>
      rw [hresult] at hok
      cases hok
  | ok b' s =>
      rw [hresult] at hok
      cases hok
      obtain ⟨hb, hs⟩ := hop b s hresult
      exact ⟨hb, hnodes ▸ h.nodes, hs, hwords ▸ h.words, h.unit, h.reporter⟩

theorem sits_onIdentifiers {op : SegmentStack.Op Identifier β}
    (hop : ∀ b s, op w.values.identifiers = .ok b s →
      P b ∧ s.Seated (WordRow g) (l'.filterMap Seat.word?))
    (hnodes : l'.filterMap Seat.node? = l.filterMap Seat.node?)
    (hexprs : l'.filterMap Seat.expr? = l.filterMap Seat.expr?) :
    Yields w (onStacks (.onIdentifiers op)) fun b w' => P b ∧ w'.Sits g l' := by
  intro b w' hok
  unfold onStacks StackM.onIdentifiers at hok
  cases hresult : op w.values.identifiers with
  | error e s =>
      rw [hresult] at hok
      cases hok
  | ok b' s =>
      rw [hresult] at hok
      cases hok
      obtain ⟨hb, hs⟩ := hop b s hresult
      exact ⟨hb, hnodes ▸ h.nodes, hexprs ▸ h.exprs, hs, h.unit, h.reporter⟩

/-- An operation on the types moves no segment that has a seat. -/
theorem sits_onTypes {op : SegmentStack.Op TypeNode β} :
    Yields w (onStacks (.onTypes op)) fun _ w' => w'.Sits g l := by
  intro b w' hok
  unfold onStacks StackM.onTypes at hok
  cases hresult : op w.values.types with
  | error e s =>
      rw [hresult] at hok
      cases hok
  | ok b' s =>
      rw [hresult] at hok
      cases hok
      exact ⟨h.nodes, h.exprs, h.words, h.unit, h.reporter⟩

/-! ### Adding -/

theorem sits_pushNode {n : Node} {single : Bool} (hn : n.Sits g σ) :
    Yields w (pushNode n) fun _ w' => w'.Sits g (⟨.nodes single, σ⟩ :: l) := by
  intro b w' hok
  cases hok
  exact ⟨h.nodes.push (.singleton hn), h.exprs, h.words, h.unit, h.reporter⟩

theorem sits_pushNodes {ns : List Node} (hns : ∀ n ∈ ns, n.Sits g σ) :
    Yields w (pushNodes ns) fun _ w' => w'.Sits g (⟨.nodes false, σ⟩ :: l) := by
  intro b w' hok
  cases hok
  exact ⟨.segment h.nodes (.of_forall hns), h.exprs, h.words, h.unit, h.reporter⟩

theorem sits_pushNoNodes :
    Yields w pushNoNodes fun _ w' => w'.Sits g (⟨.nodes false, σ⟩ :: l) := by
  intro b w' hok
  cases hok
  exact ⟨h.nodes.pushEmpty NodeRow.nil, h.exprs, h.words, h.unit, h.reporter⟩

theorem sits_pushExpr {e : Expr} (he : (Part.expr e).LiesIn g σ) :
    Yields w (pushExpr e) fun _ w' => w'.Sits g (⟨.exprs, σ⟩ :: l) := by
  intro b w' hok
  cases hok
  exact ⟨h.nodes, h.exprs.push (.singleton he), h.words, h.unit, h.reporter⟩

theorem sits_pushNoExprs : Yields w pushNoExprs fun _ w' => w'.Sits g (⟨.exprs, σ⟩ :: l) := by
  intro b w' hok
  cases hok
  exact ⟨h.nodes, h.exprs.pushEmpty ExprRow.nil, h.words, h.unit, h.reporter⟩

theorem sits_pushTypeNode {n : TypeNode} : Yields w (pushTypeNode n) fun _ w' => w'.Sits g l := by
  intro b w' hok
  cases hok
  exact ⟨h.nodes, h.exprs, h.words, h.unit, h.reporter⟩

theorem sits_pushType {t : TypeRef} : Yields w (pushType t) fun _ w' => w'.Sits g l :=
  sits_pushTypeNode h

theorem sits_pushNoTypes : Yields w pushNoTypes fun _ w' => w'.Sits g l := by
  intro b w' hok
  cases hok
  exact ⟨h.nodes, h.exprs, h.words, h.unit, h.reporter⟩

theorem sits_pushInt {n : Nat} : Yields w (pushInt n) fun _ w' => w'.Sits g l := by
  intro b w' hok
  cases hok
  exact ⟨h.nodes, h.exprs, h.words, h.unit, h.reporter⟩

theorem sits_pushStatement {s : Statement} {single : Bool}
    (hs : (Part.statement s).LiesIn g σ) :
    Yields w (pushStatement s) fun _ w' => w'.Sits g (⟨.nodes single, σ⟩ :: l) :=
  sits_pushNode h hs

/-! ### Taking what has no seat -/

theorem sits_popInt : Yields w popInt fun _ w' => w'.Sits g l := by
  intro n w' hok
  unfold popInt onStacks StackM.popInt at hok
  cases hvalues : w.values.ints with
  | nil =>
      rw [hvalues] at hok
      cases hok
  | cons n' ints =>
      rw [hvalues] at hok
      cases hok
      exact ⟨h.nodes, h.exprs, h.words, h.unit, h.reporter⟩

theorem sits_popType : Yields w popType fun _ w' => w'.Sits g l :=
  .bind (sits_onTypes h) fun _ _ h => yields_expectNode fun _ _ => h

theorem sits_popTypes : Yields w popTypes fun _ w' => w'.Sits g l :=
  .bind (sits_onTypes h) fun _ _ h => yields_expectNode fun _ _ => h

theorem sits_popTypeArguments : Yields w popTypeArguments fun _ w' => w'.Sits g l :=
  .bind (sits_onTypes h) fun _ _ h => yields_expectNode fun _ _ => h

theorem sits_popTypeParameters {present : Bool} :
    Yields w (popTypeParameters present) fun _ w' => w'.Sits g l := by
  cases present with
  | false => exact .pure h
  | true => exact .bind (sits_onTypes h) fun _ _ h => yields_expectNode fun _ _ => h

/-! ### Reporting -/

theorem sits_set : Yields w' (set w) fun _ w'' => w''.Sits g l := by
  intro _ _ hok
  cases hok
  exact h

theorem sits_report {id : ProblemKind} {span : Span} {arguments : List String}
    (hspan : span.EndsBy g.limit) :
    Yields w (report id span arguments) fun _ w' => w'.Sits g l := by
  intro b w' hok
  cases hok
  exact h.of_values rfl rfl rfl rfl (h.reporter.report hspan)

theorem sits_withReporter {f : Reporter → β × Reporter}
    (hf : ∀ r, r.EndsBy g.limit → (f r).2.EndsBy g.limit) :
    Yields w (withReporter f) fun b w' => (∃ r, b = (f r).1) ∧ w'.Sits g l := by
  intro b w' hok
  cases hok
  exact ⟨⟨w.reporter, rfl⟩, h.of_values rfl rfl rfl rfl (hf _ h.reporter)⟩

end

/-! ### Taking -/

theorem sits_popNode {single : Bool} (h : w.Sits g (⟨.nodes single, σ⟩ :: l)) :
    Yields w popNode fun n w' => n.Sits g σ ∧ w'.Sits g l := by
  refine sits_onNodes h (fun n s hok => ?_) rfl rfl
  obtain ⟨hrow, hs⟩ := h.nodes.of_pop hok
  exact ⟨hrow.sits n (List.mem_singleton.mpr rfl), hs⟩

theorem sits_popNodes {single : Bool} (h : w.Sits g (⟨.nodes single, σ⟩ :: l)) :
    Yields w popNodes fun ns w' => (∀ n ∈ ns, n.Sits g σ) ∧ w'.Sits g l := by
  refine sits_onNodes h (fun ns s hok => ?_) rfl rfl
  obtain ⟨hrow, hs⟩ := h.nodes.of_popSegment hok
  exact ⟨hrow.sits, hs⟩

theorem sits_popOptionalNode {single : Bool} (h : w.Sits g (⟨.nodes single, σ⟩ :: l)) :
    Yields w popOptionalNode fun n w' => (∀ x ∈ n, x.Sits g σ) ∧ w'.Sits g l := by
  refine sits_onNodes h (fun n s hok => ?_) rfl rfl
  obtain ⟨hrow, hs⟩ := h.nodes.of_popOptional hok
  exact ⟨fun x hx => hrow.sits x (Option.mem_toList.mpr hx), hs⟩

theorem sits_popExpr (h : w.Sits g (⟨.exprs, σ⟩ :: l)) :
    Yields w popExpr fun e w' => (Part.expr e).LiesIn g σ ∧ w'.Sits g l := by
  refine sits_onExprs h (fun e s hok => ?_) rfl rfl
  obtain ⟨hrow, hs⟩ := h.exprs.of_pop hok
  exact ⟨hrow.liesIn (List.mem_singleton.mpr rfl), hs⟩

theorem sits_popExprs (h : w.Sits g (⟨.exprs, σ⟩ :: l)) :
    Yields w popExprs fun es w' => ExprRow g σ es ∧ w'.Sits g l :=
  sits_onExprs h (fun _ _ => h.exprs.of_popSegment) rfl rfl

theorem sits_popOptionalExpr (h : w.Sits g (⟨.exprs, σ⟩ :: l)) :
    Yields w popOptionalExpr fun e w' => (∀ p ∈ optionalPart e, p.LiesIn g σ) ∧ w'.Sits g l := by
  refine sits_onExprs h (fun e s hok => ?_) rfl rfl
  obtain ⟨hrow, hs⟩ := h.exprs.of_popOptional hok
  exact ⟨hrow.parts_liesIn, hs⟩

theorem sits_popIdentifier (h : w.Sits g (⟨.words, σ⟩ :: l)) :
    Yields w popIdentifier fun i w' => σ.Holds i.span ∧ w'.Sits g l := by
  refine sits_onIdentifiers h (fun i s hok => ?_) rfl rfl
  obtain ⟨hrow, hs⟩ := h.words.of_pop hok
  exact ⟨hrow.holds i.span (List.mem_singleton.mpr rfl), hs⟩

theorem sits_popIdentifiers (h : w.Sits g (⟨.words, σ⟩ :: l)) :
    Yields w (onStacks (.onIdentifiers SegmentStack.popSegment)) fun words w' =>
      WordRow g σ words ∧ w'.Sits g l :=
  sits_onIdentifiers h (fun _ _ => h.words.of_popSegment) rfl rfl

theorem sits_popName (h : w.Sits g (⟨.words, σ⟩ :: l)) :
    Yields w popName fun name w' =>
      (name.segments ≠ [] ∧ WordRow g σ name.segments) ∧ w'.Sits g l := by
  refine .bind (sits_popIdentifiers h) fun segments w' hsegments => ?_
  split
  · intro b w'' hok
    cases hok
  · rename_i segments hne
    exact .pure ⟨⟨hne, hsegments.1⟩, hsegments.2⟩

theorem sits_popModifiers (h : w.Sits g (⟨.exprs, σ⟩ :: l)) :
    Yields w popModifiers fun m w' => AnnotationsIn g σ m.annotations ∧ w'.Sits g l := by
  refine .bind (sits_popInt h) fun _ _ h => ?_
  refine .bind (sits_popInt h) fun _ _ h => ?_
  refine .bind (sits_popExprs h) fun exprs _ h => .pure ⟨fun p hp => ?_, h.2⟩
  obtain ⟨a, ha, rfl⟩ := List.mem_map.mp hp
  obtain ⟨e, he, hae⟩ := List.mem_filterMap.mp ha
  cases e <;> cases hae
  exact h.1.liesIn he

/-! ### Taking what a node is -/

section

variable {single : Bool} {as? : Node → Option β} {stack : StackName} {expected : NodeSort}
  (has : ∀ n b, n.Sits g σ → as? n = some b → P b)

include has

theorem sits_popNodeAs (h : w.Sits g (⟨.nodes single, σ⟩ :: l)) :
    Yields w (do expectNode stack expected (as? (← popNode))) fun b w' => P b ∧ w'.Sits g l :=
  .bind (sits_popNode h) fun n _ hn => yields_expectNode fun b hb => ⟨has n b hn.1 hb, hn.2⟩

theorem sits_popNodesAs (h : w.Sits g (⟨.nodes single, σ⟩ :: l)) :
    Yields w (do expectNode stack expected ((← popNodes).mapM as?)) fun bs w' =>
      (∀ b ∈ bs, P b) ∧ w'.Sits g l :=
  .bind (sits_popNodes h) fun _ _ hns => yields_expectNode fun _ hbs =>
    ⟨forall_of_mapM (fun n hn b => has n b (hns.1 n hn)) hbs, hns.2⟩

end

section

variable {single : Bool} (h : w.Sits g (⟨.nodes single, σ⟩ :: l))

include h

theorem sits_popParameter :
    Yields w popParameter fun p w' => AnnotationsIn g σ p.annotations ∧ w'.Sits g l := by
  refine sits_popNodeAs (fun n p hn hp => ?_) h
  cases n <;> cases hp
  exact hn

theorem sits_popParameters : Yields w popParameters fun _ w' => w'.Sits g l :=
  (sits_popNodesAs (P := fun _ => True) (fun _ _ _ _ => trivial) h).mono fun _ _ => And.right

theorem sits_popDeclarator : Yields w popDeclarator fun d w' => d.LiesIn g σ ∧ w'.Sits g l := by
  refine sits_popNodeAs (fun n d hn hd => ?_) h
  cases n <;> cases hd
  exact hn

theorem sits_popDeclarators :
    Yields w popDeclarators fun ds w' => (∀ d ∈ ds, d.LiesIn g σ) ∧ w'.Sits g l := by
  refine sits_popNodesAs (fun n d hn hd => ?_) h
  cases n <;> cases hd
  exact hn

theorem sits_popStatement :
    Yields w popStatement fun s w' => (Part.statement s).LiesIn g σ ∧ w'.Sits g l := by
  refine sits_popNodeAs (fun n s hn hs => ?_) h
  cases n <;> cases hs
  exact hn

theorem sits_popStatements :
    Yields w popStatements fun ss w' =>
      (∀ p ∈ ss.map Part.statement, p.LiesIn g σ) ∧ w'.Sits g l := by
  refine (sits_popNodesAs (P := fun s => (Part.statement s).LiesIn g σ)
    (fun n s hn hs => ?_) h).mono fun ss _ hss => ⟨fun p hp => ?_, hss.2⟩
  · cases n <;> cases hs
    exact hn
  · obtain ⟨s, hs, rfl⟩ := List.mem_map.mp hp
    exact hss.1 s hs

theorem sits_popBlock :
    Yields w popBlock fun b w' => (Part.statement (.block b)).LiesIn g σ ∧ w'.Sits g l := by
  refine .bind (sits_popStatement h) fun s _ hs => yields_expectNode fun b hb => ?_
  cases s <;> cases hb
  exact hs

theorem sits_popFragment :
    Yields w popFragment fun f w' => f.EndsBy g.limit ∧ w'.Sits g l := by
  refine sits_popNodeAs (fun n f hn hf => ?_) h
  cases n <;> cases hf
  exact hn

theorem sits_popFragments :
    Yields w popFragments fun fs w' => (∀ f ∈ fs, f.EndsBy g.limit) ∧ w'.Sits g l := by
  refine sits_popNodesAs (fun n f hn hf => ?_) h
  cases n <;> cases hf
  exact hn

end

/-! ### Changing the topmost node -/

/-- A single node on top. -/
theorem sits_peek (h : w.Sits g (⟨.nodes true, σ⟩ :: l)) :
    Yields w (onStacks (.onNodes SegmentStack.peek)) fun n w' =>
      n.Sits g σ ∧ w'.Sits g (⟨.nodes true, σ⟩ :: l) := by
  refine sits_onNodes h (fun n s hok => ?_) rfl rfl
  have hnodes := h.nodes
  generalize w.values.nodes = nodes at hok hnodes
  cases hnodes with
  | segment hrest hrow =>
      obtain ⟨a, rfl⟩ := List.length_eq_one_iff.mp (hrow.single rfl)
      cases hok
      exact ⟨hrow.sits _ (List.mem_singleton.mpr rfl), .segment hrest hrow⟩

/-- The single node on top is replaced. -/
theorem sits_replaceTop {n : Node} (h : w.Sits g (⟨.nodes true, σ⟩ :: l)) (hn : n.Sits g τ) :
    Yields w (replaceTop n) fun _ w' => w'.Sits g (⟨.nodes true, τ⟩ :: l) := by
  have hreplaced : Yields w (replaceTop n) fun _ w' =>
      True ∧ w'.Sits g (⟨.nodes true, τ⟩ :: l) := by
    refine sits_onNodes h (fun u s hok => ⟨trivial, ?_⟩) rfl rfl
    have hnodes := h.nodes
    generalize w.values.nodes = nodes at hok hnodes
    cases hnodes with
    | @segment _ _ items _ lengths hrest hrow =>
        obtain ⟨a, rfl⟩ := List.length_eq_one_iff.mp (hrow.single rfl)
        cases hok
        have hsingle : SegmentStack.Seated (NodeRow g) ((true, τ) :: l.filterMap Seat.node?)
            ⟨[n].reverse ++ items, [n].length :: lengths⟩ := .segment hrest (.singleton hn)
        exact hsingle
  exact hreplaced.mono fun _ _ => And.right

section

variable (h : w.Sits g l)

include h

theorem sits_peekAs {as? : Node → Option β} {stack : StackName} {expected : NodeSort}
    (has : ∀ σ n b, n.Sits g σ → as? n = some b → P b) :
    Yields w (do expectNode stack expected (as? (← onStacks (.onNodes SegmentStack.peek))))
      fun b w' => P b ∧ w'.Sits g l := by
  refine .bind (sits_onNodes (P := fun n => ∃ σ, n.Sits g σ) h (fun n s hok => ?_) rfl rfl)
    fun n _ hn => yields_expectNode fun b hb => ?_
  · have hnodes := h.nodes
    unfold SegmentStack.peek at hok
    split at hok
    · cases hok
    · rename_i a items hitems
      cases hok
      obtain ⟨k, _, ns, hrow, hn⟩ := hnodes.exists_segment (hitems ▸ List.mem_cons_self)
      exact ⟨⟨k.2, hrow.sits _ hn⟩, hnodes⟩
  · obtain ⟨⟨σ, hσ⟩, hsits⟩ := hn
    exact ⟨has σ n b hσ hb, hsits⟩

/-- A declaration on top may be changed, wherever it sits. -/
theorem sits_replaceDecl {n : Node} (hn : ∀ σ, n.Sits g σ) :
    Yields w (replaceTop n) fun _ w' => w'.Sits g l := by
  refine (sits_onNodes (P := fun _ => True) h (fun u s hok => ⟨trivial, ?_⟩) rfl rfl).mono
    fun _ _ => And.right
  refine h.nodes.of_modifyTop (fun k front a hrow => ⟨fun hone => ?_, fun m hm => ?_⟩) hok
  · have hlength := hrow.single hone
    simpa using hlength
  · rcases List.mem_append.mp hm with hm | hm
    · exact hrow.sits m (List.mem_append_left _ hm)
    · exact List.mem_singleton.mp hm ▸ hn k.2

theorem sits_typeOnTop {expected : NodeSort} :
    Yields w (typeOnTop expected) fun t w' => Member.Lies g (.type t) ∧ w'.Sits g l := by
  refine sits_peekAs h fun σ n t hn ht => ?_
  cases n <;> cases ht
  exact hn

theorem sits_methodOnTop {expected : NodeSort} :
    Yields w (methodOnTop expected) fun m w' => Member.Lies g (.method m) ∧ w'.Sits g l := by
  refine sits_peekAs h fun σ n m hn hm => ?_
  cases n <;> cases hm
  exact hn

theorem sits_updateType {change : TypeDecl → TypeDecl}
    (hchange : ∀ t, Member.Lies g (.type t) → Member.Lies g (.type (change t))) :
    Yields w (updateType change) fun _ w' => w'.Sits g l :=
  .bind (sits_typeOnTop h) fun t _ ht => sits_replaceDecl ht.2 fun _ => hchange t ht.1

theorem sits_updateMethod {change : MethodDecl → MethodDecl}
    (hchange : ∀ m, Member.Lies g (.method m) → Member.Lies g (.method (change m))) :
    Yields w (updateMethod change) fun _ w' => w'.Sits g l :=
  .bind (sits_methodOnTop h) fun m _ hm => sits_replaceDecl hm.2 fun _ => hchange m hm.1

end

end Work

end AspectLang
