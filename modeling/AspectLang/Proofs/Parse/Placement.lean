import AspectLang.Proofs.Parse.AspectActionsInPlace
import AspectLang.Proofs.Parse.Balance

/-! # Where the values of a stack of symbols lie

`stackLayout` lists where the values lie that a stack of symbols leaves: those of a symbol lie in
its region, and a symbol that changes the declaration below it draws the region of that out.  The
parts of a right side may be gathered in one region (`widens_gathered`), which is all that most
actions ask for; the others see the regions of their parts.  So the action of a rule turns the
layout with its right side on top into the layout with its left side (`Workspace.Ready.reduces`). -/

namespace AspectLang

open Profile

theorem Profile.atop_empty (p : Profile) : p.atop {} = p := by
  simp [Profile.atop]

/-! ### Symbols -/

namespace Nonterminal

/-- Whether a nonterminal may cover no text. -/
def mayBeEmpty : Nonterminal → Bool
  | goal | compilationUnit | packageDeclarationOpt | importDeclarationsOpt | typeDeclarationsOpt
  | dimsOpt | modifiersOpt | classHeaderExtendsOpt | classHeaderImplementsOpt
  | interfaceHeaderExtendsOpt | classBodyDeclarationsOpt | methodHeaderThrowsClauseOpt
  | formalParameterListOpt | blockStatementsOpt | catchesOpt | forInitOpt | forUpdateOpt
  | expressionOpt | argumentListOpt | aspectHeaderRestOpt | extraParamOpt
  | interTypeFieldBody => true
  | _ => false

/-- Whether a nonterminal is a run of modifiers. -/
def isModifiers : Nonterminal → Bool
  | modifiersOpt | modifiers | modifier | modifierKeyword => true
  | _ => false

/-- Whether the declarations and statements that a nonterminal leaves are whole. -/
def leaves : Nonterminal → Bool
  | packageDeclarationOpt | packageDeclaration | importDeclarationsOpt | importDeclarations
  | importDeclaration | typeDeclarationsOpt | typeDeclarations | typeDeclaration
  | classDeclaration | interfaceDeclaration | aspectDeclaration | classBody
  | classBodyDeclarationsOpt | classBodyDeclarations | classBodyDeclaration
  | classMemberDeclaration | fieldDeclaration | methodDeclaration | methodBody
  | constructorDeclaration | initializer | block | pointcutDeclaration | adviceDeclaration
  | declareDeclaration | declareAnnotationDeclaration | interTypeFieldDeclaration
  | interTypeMethodDeclaration | interTypeConstructorDeclaration
  | interTypeClassDeclaration => true
  | _ => false

theorem context_cases (x : Nonterminal) :
    x.context = [] ∨ x.profile = {} ∧ ∃ k, x.context = [⟨k, .one⟩] := by
  cases x <;> first | exact .inl rfl | exact .inr ⟨rfl, _, rfl⟩

theorem profile_of_isModifiers {x : Nonterminal} (h : x.isModifiers = true) :
    x.profile = Profile.modifiers := by
  cases x <;> first | rfl | cases h

end Nonterminal

namespace RuleSymbol

/-- Whether a symbol may cover no text. -/
def mayBeEmpty : RuleSymbol → Bool
  | .t _ => false
  | .n x => x.mayBeEmpty

/-- Whether what a symbol leaves is whole, and the declaration that it changes. -/
def isWhole : RuleSymbol → Bool
  | .t _ => true
  | .n x => x.leaves || (x.profile.nodes.isEmpty && x.context.isEmpty)

/-- Where the values of a symbol lie, which covers text or not. -/
def layout (covers : Bool) (r : Region) : RuleSymbol → Layout
  | .t kind => kind.profile.placed r true
  | .n x => cond x.isModifiers (.modifiers r covers) (x.profile.placed r x.leaves)

/-- What becomes of the declaration on top when a symbol that ends at `hi` changes it. -/
def settle (hi : Nat) (s : RuleSymbol) (l : Layout) : Layout :=
  match s with
  | .t _ => l
  | .n x => cond x.context.isEmpty l { l with
      nodes := l.nodes.modifyHead fun shape =>
        ⟨⟨⟨shape.role.region.lo, hi⟩, x.leaves⟩, shape.count⟩ }

/-- The layout when a symbol is put on a stack. -/
def stacked (covers : Bool) (r : Region) (s : RuleSymbol) (l : Layout) : Layout :=
  (s.layout covers r).atop (s.settle r.hi l)

variable {x : Nonterminal} {covers : Bool} {r : Region} {hi : Nat} {l : Layout}

theorem layout_of_modifiers (h : x.isModifiers = true) :
    (n x).layout covers r = .modifiers r covers := by
  rw [layout, h]
  rfl

theorem layout_of_profile (h : x.isModifiers = false) :
    (n x).layout covers r = x.profile.placed r x.leaves := by
  rw [layout, h]
  rfl

theorem settle_of_nil (h : x.context = []) : (n x).settle hi l = l := by
  simp only [settle, h]
  rfl

theorem settle_of_cons {shape : Shape NodeRole} (h : x.context = [shape]) {p : NodePlace}
    {c : Count} {rest : List (Shape NodePlace)} (hl : l.nodes = ⟨p, c⟩ :: rest) :
    (n x).settle hi l = { l with nodes := ⟨⟨⟨p.region.lo, hi⟩, x.leaves⟩, c⟩ :: rest } := by
  simp only [settle, h, hl]
  rfl

end RuleSymbol

/-- A symbol of the grammar by its name. -/
def Symbol.named : Symbol → RuleSymbol
  | .terminal kind => .t kind
  | .nonterminal id => .n (Nonterminal.all[id]?.getD .goal)

theorem RuleSymbol.named_symbol (s : RuleSymbol) : s.symbol.named = s := by
  cases s with
  | t kind => rfl
  | n x =>
      change RuleSymbol.n (Nonterminal.all[x.index]?.getD .goal) = .n x
      rw [x.all_getElem?]
      rfl

theorem Symbol.nodes_named (s : Symbol) : s.named.profile.nodes = s.profile.nodes := by
  cases s with
  | terminal kind => rfl
  | nonterminal id =>
      change (Nonterminal.profile (Nonterminal.all[id]?.getD .goal)).nodes =
        (Nonterminal.all[id]?.elim {} Nonterminal.profile).nodes
      cases Nonterminal.all[id]? <;> rfl

/-- Where the values lie that a stack of symbols leaves, by the ranges of these. -/
def stackLayout : List Symbol → List (Option Span) → Layout
  | s :: symbols, span :: spans =>
    s.named.stacked span.isSome ⟨edge spans, edge (span :: spans)⟩ (stackLayout symbols spans)
  | _, _ => {}

theorem stackLayout_cons (s : RuleSymbol) (symbols : List Symbol) (span : Option Span)
    (spans : List (Option Span)) :
    stackLayout (s.symbol :: symbols) (span :: spans) =
      s.stacked span.isSome ⟨edge spans, edge (span :: spans)⟩ (stackLayout symbols spans) := by
  rw [stackLayout, s.named_symbol]

/-- Every symbol covers text, but for those that need not. -/
def Filled (symbols : List Symbol) (spans : List (Option Span)) : Prop :=
  ∀ (i : Nat) (s : Symbol) (span : Option Span), symbols[i]? = some s → spans[i]? = some span →
    span.isSome = true ∨ s.named.mayBeEmpty = true

/-! ### The declaration on top -/

section

variable {symbols before : List Symbol} {spans : List (Option Span)} {s : RuleSymbol} {l : Layout}
  {covers : Bool} {r : Region}

theorem RuleSymbol.nodes_stacked :
    (s.stacked covers r l).nodes = (s.layout covers r).nodes ++ (s.settle r.hi l).nodes := rfl

theorem RuleSymbol.counts_layout :
    (s.layout covers r).nodes.map Shape.count = s.profile.nodes.map Shape.count := by
  cases s with
  | t kind => exact List.map_map
  | n x =>
      cases hmodifiers : x.isModifiers with
      | true =>
          rw [layout_of_modifiers hmodifiers]
          change _ = x.profile.nodes.map Shape.count
          rw [x.profile_of_isModifiers hmodifiers]
          cases covers <;> rfl
      | false =>
          rw [layout_of_profile hmodifiers]
          exact List.map_map

theorem RuleSymbol.counts_settle {hi : Nat} :
    (s.settle hi l).nodes.map Shape.count = l.nodes.map Shape.count := by
  cases s with
  | t kind => rfl
  | n x =>
      rcases x.context_cases with hcontext | ⟨_, k, hcontext⟩
      · rw [settle_of_nil hcontext]
      · cases hnodes : l.nodes with
        | nil =>
            simp only [settle, hcontext, hnodes]
            rfl
        | cons top rest =>
            rw [settle_of_cons hcontext hnodes]
            rfl

theorem RuleSymbol.counts_stacked :
    (s.stacked covers r l).nodes.map Shape.count =
      s.profile.nodes.map Shape.count ++ l.nodes.map Shape.count := by
  rw [nodes_stacked, List.map_append, counts_layout, counts_settle]

theorem counts_stackLayout (hlength : symbols.length ≤ spans.length) :
    (stackLayout symbols spans).nodes.map Shape.count =
      (stackProfile symbols).nodes.map Shape.count := by
  induction symbols generalizing spans with
  | nil => cases spans <;> rfl
  | cons s symbols ih =>
      cases spans with
      | nil => cases hlength
      | cons span spans =>
          rw [stackLayout, RuleSymbol.counts_stacked, ih (Nat.le_of_succ_le_succ hlength),
            s.nodes_named]
          exact (List.map_append ..).symm

/-- Declarations begin, and have their names, before the edge. -/
def Layout.UpTo (hi : Nat) (l : Layout) : Prop :=
  ∀ shape ∈ l.nodes, shape.role.region.lo ≤ hi ∧ shape.role.region.hi ≤ hi

theorem Layout.UpTo.stacked (h : l.UpTo r.lo) (hr : r.lo ≤ r.hi) : (s.stacked covers r l).UpTo r.hi := by
  have hl : l.UpTo r.hi :=
    fun shape hshape => ⟨Nat.le_trans (h shape hshape).1 hr, Nat.le_trans (h shape hshape).2 hr⟩
  intro shape hshape
  rcases List.mem_append.mp hshape with hshape | hshape
  · cases s with
    | t kind =>
        obtain ⟨_, _, rfl⟩ := List.mem_map.mp hshape
        exact ⟨hr, Nat.le_refl _⟩
    | n x =>
        cases hmodifiers : x.isModifiers with
        | true =>
            rw [RuleSymbol.layout_of_modifiers hmodifiers] at hshape
            cases covers <;> cases hshape
        | false =>
            rw [RuleSymbol.layout_of_profile hmodifiers] at hshape
            obtain ⟨_, _, rfl⟩ := List.mem_map.mp hshape
            exact ⟨hr, Nat.le_refl _⟩
  · cases s with
    | t kind => exact hl shape hshape
    | n x =>
        rcases x.context_cases with hcontext | ⟨_, k, hcontext⟩
        · rw [RuleSymbol.settle_of_nil hcontext] at hshape
          exact hl shape hshape
        · cases hnodes : l.nodes with
          | nil =>
              simp only [RuleSymbol.settle, hcontext, hnodes] at hshape
              cases hshape
          | cons top rest =>
              rw [RuleSymbol.settle_of_cons hcontext hnodes] at hshape
              rcases List.mem_cons.mp hshape with rfl | hshape
              · refine ⟨(hl top ?_).1, Nat.le_refl _⟩
                rw [hnodes]
                exact List.mem_cons_self
              · refine hl shape ?_
                rw [hnodes]
                exact List.mem_cons_of_mem top hshape

theorem upTo_stackLayout (h : InOrder spans) : (stackLayout symbols spans).UpTo (edge spans) := by
  induction symbols generalizing spans with
  | nil => cases spans <;> exact nofun
  | cons s symbols ih =>
      cases spans with
      | nil => exact nofun
      | cons span spans => exact (ih h.tail).stacked h.edge_le

/-! ### Gathering -/

/-- The layout of a row of symbols by the profile of the row. -/
theorem Layout.followed_eq (r : Region) (whole : Bool) (frame : Layout) (ps : List Profile) :
    Layout.followed r whole frame ps = {
      nodes := (Profile.followed {} ps).nodes.map (fun s => ⟨⟨r, whole⟩, s.count⟩) ++ frame.nodes
      exprs := (Profile.followed {} ps).exprs.map (fun s => ⟨r, s.count⟩) ++ frame.exprs
      identifiers :=
        (Profile.followed {} ps).identifiers.map (fun s => ⟨r, s.count⟩) ++ frame.identifiers
      types := (Profile.followed {} ps).types.map (fun s => ⟨r, s.count⟩) ++ frame.types
      ints := (ps.reverse.flatMap offsets).map
        (fun isOffset => cond isOffset (.offset r.lo none) .any) ++ frame.ints } := by
  induction ps generalizing frame with
  | nil => rfl
  | cons p ps ih =>
      have hcons : Profile.followed {} (p :: ps) = (Profile.followed {} ps).atop (p.atop {}) :=
        followed_eq_atop (p.atop {}) ps
      rw [Layout.followed, ih, hcons]
      simp [Layout.atop, Profile.atop, placed]

theorem Layout.followed_concat (r : Region) (whole : Bool) (frame : Layout) (ps : List Profile)
    (p : Profile) : Layout.followed r whole frame (ps ++ [p]) =
      (p.placed r whole).atop (Layout.followed r whole frame ps) := by
  induction ps generalizing frame with
  | nil => rfl
  | cons q ps ih => exact ih ((q.placed r whole).atop frame)

theorem forall₂_of_allWithin {κ : Type} {below : κ → κ → Bool} {ss ts : List (Shape κ)}
    (h : Shape.allWithin below ss ts = true) :
    List.Forall₂ (fun s t => s.count.within t.count = true) ss ts := by
  induction ss generalizing ts with
  | nil =>
      cases ts with
      | nil => exact .nil
      | cons t ts => cases h
  | cons s ss ih =>
      cases ts with
      | nil => cases h
      | cons t ts =>
          obtain ⟨hhead, htail⟩ := Bool.and_eq_true_iff.mp h
          exact .cons (Bool.and_eq_true_iff.mp hhead).1 (ih htail)

/-- Rows of symbols with profiles within each other, in the same region. -/
theorem Layout.widens_followed {whole : Bool} {frame : Layout} {ps qs : List Profile}
    (hwithin : (Profile.followed {} ps).within (Profile.followed {} qs) = true)
    (hoffsets : ps.reverse.flatMap offsets = qs.reverse.flatMap offsets) :
    (Layout.followed r whole frame ps).Widens (Layout.followed r whole frame qs) := by
  simp only [Profile.within, Bool.and_eq_true] at hwithin
  obtain ⟨⟨⟨⟨⟨hnodes, hexprs⟩, hidentifiers⟩, htypes⟩, _⟩, _⟩ := hwithin
  have hframe := Layout.Widens.refl frame
  have hplace : ∀ {κ κ' : Type} {R : κ' → κ' → Prop} {k : κ'} {ss ts : List (Shape κ)}, R k k →
      List.Forall₂ (fun s t => s.count.within t.count = true) ss ts →
      List.Forall₂ (Shape.Widens R) (ss.map fun s => ⟨k, s.count⟩) (ts.map fun s => ⟨k, s.count⟩) :=
    fun hk hcounts => List.forall₂_map_left_iff.mpr (List.forall₂_map_right_iff.mpr
      (hcounts.imp fun _ _ hcount => ⟨hcount, hk⟩))
  rw [followed_eq, followed_eq, hoffsets]
  exact ⟨List.rel_append (hplace ⟨.refl r, id⟩ (forall₂_of_allWithin hnodes)) hframe.nodes,
    List.rel_append (hplace (.refl r) (forall₂_of_allWithin hexprs)) hframe.exprs,
    List.rel_append (hplace (.refl r) (forall₂_of_allWithin hidentifiers)) hframe.identifiers,
    List.rel_append (hplace (.refl r) (forall₂_of_allWithin htypes)) hframe.types,
    List.rel_append (List.forall₂_same.mpr fun _ _ _ => id) hframe.ints⟩

theorem Layout.widens_modifiers {r' : Region} {whole : Bool} (hr : r.Within r') :
    (Layout.modifiers r covers).Widens (Profile.modifiers.placed r' whole) := by
  cases covers with
  | true => exact ⟨.nil, .cons ⟨rfl, hr⟩ .nil, .nil, .nil,
      .cons (IntPlace.widens_offset hr.1) (.cons (IntPlace.widens_any _) .nil)⟩
  | false => exact ⟨.nil, .cons ⟨rfl, hr⟩ .nil, .nil, .nil,
      .cons (IntPlace.widens_offset hr.1) (.cons (IntPlace.widens_any _) .nil)⟩

/-- A symbol on top of values that lie in a region, where it lies there too. -/
theorem RuleSymbol.widens_stacked {l' : Layout} {r' : Region} {whole : Bool} (hl : l.Widens l')
    (hr : r.Within r') (hwhole : whole = true → s.isWhole = true)
    (htop : Rule.contextOf s ≠ [] → ∃ c rest, l'.nodes = ⟨⟨r', whole⟩, c⟩ :: rest) :
    (s.stacked covers r l).Widens ((s.profile.placed r' whole).atop l') := by
  cases s with
  | t kind => exact .atop (widens_placed _ hr fun _ _ => rfl) hl
  | n x =>
      have hleaves : x.profile.nodes ≠ [] ∨ x.context ≠ [] → whole = true → x.leaves = true := by
        intro hsome htrue
        rcases Bool.or_eq_true_iff.mp (hwhole htrue) with hleaves | hempty
        · exact hleaves
        · obtain ⟨hnodes, hcontext⟩ := Bool.and_eq_true_iff.mp hempty
          exact absurd hsome (by simp [List.isEmpty_iff.mp hnodes, List.isEmpty_iff.mp hcontext])
      refine .atop ?_ ?_
      · cases hmodifiers : x.isModifiers with
        | true =>
            rw [layout_of_modifiers hmodifiers]
            change Layout.Widens _ (x.profile.placed r' whole)
            rw [x.profile_of_isModifiers hmodifiers]
            exact Layout.widens_modifiers hr
        | false =>
            rw [layout_of_profile hmodifiers]
            exact widens_placed _ hr fun hnodes => hleaves (.inl hnodes)
      · rcases x.context_cases with hcontext | ⟨_, k, hcontext⟩
        · rw [settle_of_nil hcontext]
          exact hl
        · have hsome : x.context ≠ [] := by simp [hcontext]
          obtain ⟨c, rest, hnodes⟩ := htop hsome
          have hl' := hl.nodes
          rw [hnodes] at hl'
          cases hbelow : l.nodes with
          | nil =>
              rw [hbelow] at hl'
              cases hl'
          | cons top below =>
              rw [hbelow] at hl'
              rw [settle_of_cons hcontext hbelow]
              cases hl' with
              | cons hhead htail =>
                  refine ⟨?_, hl.exprs, hl.identifiers, hl.types, hl.ints⟩
                  rw [hnodes]
                  exact .cons ⟨hhead.1, ⟨hhead.2.region.1, hr.2⟩, hleaves (.inr hsome)⟩ htail

/-- **The parts of a right side may be gathered in one region.** -/
theorem widens_gathered {rhs : List RuleSymbol} {frame : Layout} {whole : Bool} {base : Profile}
    (horder : InOrder spans) (hlength : rhs.length ≤ spans.length)
    (hbase : (stackLayout before (spans.drop rhs.length)).Widens
      ((base.placed r whole).atop frame))
    (hlo : r.lo ≤ edge (spans.drop rhs.length)) (hhi : edge spans ≤ r.hi)
    (hwhole : whole = true → ∀ s ∈ rhs, s.isWhole = true)
    (hprovides : ∀ dot s, rhs[dot]? = some s →
      Rule.contextOf s <+: (base.followed ((rhs.take dot).map RuleSymbol.profile)).nodes) :
    (stackLayout ((rhs.map RuleSymbol.symbol).reverse ++ before) spans).Widens
      (Layout.followed r whole frame (base :: rhs.map RuleSymbol.profile)) := by
  induction rhs using List.reverseRecOn generalizing spans with
  | nil => exact hbase
  | append_singleton front s ih =>
      cases spans with
      | nil =>
          rw [List.length_append] at hlength
          cases hlength
      | cons span spans =>
          rw [List.length_append, List.length_singleton] at hlength hbase hlo
          have hfront := ih horder.tail (Nat.le_of_succ_le_succ hlength) hbase hlo
            (Nat.le_trans horder.edge_le hhi)
            (fun htrue t ht => hwhole htrue t (List.mem_append_left _ ht))
            (fun dot t ht => by
              have hlt : dot < front.length := (List.getElem?_eq_some_iff.mp ht).1
              have hdot := hprovides dot t (by rw [List.getElem?_append_left hlt, ht])
              rwa [List.take_append_of_le_length (Nat.le_of_lt hlt)] at hdot)
          have hsplit : ((front ++ [s]).map RuleSymbol.symbol).reverse ++ before =
              s.symbol :: ((front.map RuleSymbol.symbol).reverse ++ before) := by simp
          have hregion : Region.Within ⟨edge spans, edge (span :: spans)⟩ r :=
            ⟨Nat.le_trans hlo (horder.tail.drop front.length).2, hhi⟩
          rw [hsplit, stackLayout_cons, List.map_append, List.map_singleton, ← List.cons_append,
            Layout.followed_concat]
          refine RuleSymbol.widens_stacked hfront hregion
            (fun htrue => hwhole htrue s (List.mem_append_right _ (List.mem_singleton.mpr rfl)))
            fun hsome => ?_
          have hcontext := hprovides front.length s (by simp)
          rw [List.take_left] at hcontext
          have hrow : Profile.followed {} (base :: front.map RuleSymbol.profile) =
              base.followed (front.map RuleSymbol.profile) := by
            rw [Profile.followed, Profile.atop_empty]
          rw [Layout.followed_eq, hrow]
          obtain ⟨rest, hrest⟩ := hcontext
          cases hshapes : Rule.contextOf s with
          | nil => exact absurd hshapes hsome
          | cons shape shapes =>
              rw [hshapes] at hrest
              rw [← hrest]
              exact ⟨shape.count, _, rfl⟩

end

/-! ### Facts about the rules -/

deriving instance DecidableEq for Profile, Rule

/-- Whether a nonterminal leaves just one node of a role. -/
def Nonterminal.leavesOne (k : NodeRole) (x : Nonterminal) : Bool :=
  x.profile = node k && x.context.isEmpty && !x.isModifiers

namespace Rule

/-- Whether the declarations that a right side leaves are whole. -/
def finds (r : Rule) : Bool := r.lhs.context.isEmpty && r.rhs.all RuleSymbol.isWhole

/-- Whether all that the action of a rule needs is that its right side lies in one region. -/
def gathers (r : Rule) : Bool :=
  !r.action.comparesParts && !r.lhs.isModifiers && !r.rhs.contains (.n .classBody)

/-- Whether the action of a rule takes offsets for offsets, and leaves declarations as whole as
its left side asks for. -/
def keepsPlaces (r : Rule) : Bool :=
  (r.base :: r.rhs.map RuleSymbol.profile).reverse.flatMap offsets =
      r.effect.1.reverse.flatMap offsets &&
    r.effect.2.offsets = r.output.offsets && (!r.lhs.leaves || r.action.leaves r.finds) &&
    (r.action ≠ .compilationUnit || r.finds)

/-- Whether the symbol at a position covers text. -/
def coversAt (r : Rule) (i : Nat) : Bool := r.rhs[i]?.any fun s => !s.mayBeEmpty

/-- Whether the symbols that the action of a rule asks for cover text. -/
def suits (r : Rule) : Bool :=
  r.action.spots.all r.coversAt &&
    (r.action.closing? r.rhs.length).all fun i => r.coversAt i && i + 1 = r.rhs.length

/-- Whether a rule puts one symbol behind a header. -/
def isHeaded (k : NodeRole) (last : Nonterminal) (r : Rule) : Bool :=
  match r.rhs with
  | [.n header, .n x] => x = last && header.leavesOne k && r.lhs.leavesOne k && r.lhs.leaves
  | _ => false

/-- Whether a rule makes a run of modifiers: of one, of a run and one more, of a run that covers
text, or of none. -/
def isModifierRule (r : Rule) : Bool :=
  match r.action, r.rhs with
  | .modifierKeyword _, [.t kind] => kind.profile = {}
  | .annotationModifier, [.n x] => x = .annotationUse
  | .concatModifiers, [.n x, .n y] => x = .modifiers && y = .modifier
  | .none, [.n x] => x.isModifiers && !x.mayBeEmpty
  | .emptyModifiers, [] => true
  | _, _ => false

end Rule

namespace Language

/-- What placing values asks of the rules, in one check so that each rule is read once. -/
theorem rules_inPlace : ∀ r ∈ rules, (r.gathers = true → r.keepsPlaces = true) ∧
    r.suits = true ∧ (r.rhs.all RuleSymbol.mayBeEmpty = true → r.lhs.mayBeEmpty = true) ∧
    (r.rhs.contains (.n .classBody) = true →
      r.action = .none ∧ r.isHeaded .type .classBody = true) ∧
    (r.action = .methodDecl → r.isHeaded .method .methodBody = true) ∧
    (r.lhs.isModifiers = true → r.isModifierRule = true) ∧
    (r.action.comparesParts = true → r.lhs.isModifiers = true ∨ r.action = .methodDecl ∨
      r = ⟨.fieldDeclaration, [.n .modifiersOpt, .n .type, .n .variableDeclarators, .t .semicolon],
        .fieldDecl⟩ ∨
      r = ⟨.initializer, [.n .modifiersOpt, .n .block], .initializerBlock⟩ ∨
      r = ⟨.classBody, [.t .lBrace, .n .classBodyDeclarationsOpt, .t .rBrace], .classBody⟩) := by
  decide +kernel

section

variable {r : Rule} (hr : r ∈ rules)

include hr

theorem rules_keepPlaces : r.gathers = true → r.keepsPlaces = true := (rules_inPlace r hr).1

theorem rules_suit : r.suits = true := (rules_inPlace r hr).2.1

theorem rules_cover : r.rhs.all RuleSymbol.mayBeEmpty = true → r.lhs.mayBeEmpty = true :=
  (rules_inPlace r hr).2.2.1

theorem rules_classBody : r.rhs.contains (.n .classBody) = true →
    r.action = .none ∧ r.isHeaded .type .classBody = true := (rules_inPlace r hr).2.2.2.1

theorem rules_methodDecl : r.action = .methodDecl → r.isHeaded .method .methodBody = true :=
  (rules_inPlace r hr).2.2.2.2.1

theorem rules_modifiers : r.lhs.isModifiers = true → r.isModifierRule = true :=
  (rules_inPlace r hr).2.2.2.2.2.1

theorem rules_parts : r.action.comparesParts = true → r.lhs.isModifiers = true ∨
    r.action = .methodDecl ∨
    r = ⟨.fieldDeclaration, [.n .modifiersOpt, .n .type, .n .variableDeclarators, .t .semicolon],
      .fieldDecl⟩ ∨
    r = ⟨.initializer, [.n .modifiersOpt, .n .block], .initializerBlock⟩ ∨
    r = ⟨.classBody, [.t .lBrace, .n .classBodyDeclarationsOpt, .t .rBrace], .classBody⟩ :=
  (rules_inPlace r hr).2.2.2.2.2.2

end

end Language

/-! ### Reductions -/

section

variable {k : NodeRole} {x : Nonterminal} {covers : Bool} {r : Region} {l : Layout}
  {rhs : List RuleSymbol} {before : List Symbol} {spans : List (Option Span)}

theorem RuleSymbol.stacked_of_leavesOne (h : x.leavesOne k = true) :
    (n x).stacked covers r l = ((node k).placed r x.leaves).atop l := by
  obtain ⟨hone, hmodifiers⟩ := Bool.and_eq_true_iff.mp h
  obtain ⟨hprofile, hcontext⟩ := Bool.and_eq_true_iff.mp hone
  unfold stacked
  rw [layout_of_profile (Bool.not_eq_true' _ ▸ hmodifiers), of_decide_eq_true hprofile,
    settle_of_nil (List.isEmpty_iff.mp hcontext)]

theorem RuleSymbol.stacked_of_modifiers (h : x.isModifiers = true) :
    (n x).stacked covers r l = (Layout.modifiers r covers).atop l := by
  have hcontext : x.context = [] := by
    cases x <;> first | rfl | cases h
  unfold stacked
  rw [layout_of_modifiers h, settle_of_nil hcontext]

theorem RuleSymbol.stacked_of_profile {kind : TokenKind} (h : kind.profile = {}) :
    (t kind).stacked covers r l = l := by
  rw [stacked, layout, h]
  rfl

theorem Rule.exists_header {rule : Rule} {last : Nonterminal} (h : rule.isHeaded k last = true) :
    ∃ header, rule.rhs = [.n header, .n last] ∧ header.leavesOne k = true ∧
      rule.lhs.leavesOne k = true ∧ rule.lhs.leaves = true := by
  unfold Rule.isHeaded at h
  split at h
  · rename_i header x hrhs
    simp only [Bool.and_eq_true, decide_eq_true_eq] at h
    obtain ⟨⟨⟨rfl, hheader⟩, hlhs⟩, hleaves⟩ := h
    exact ⟨header, hrhs, hheader, hlhs, hleaves⟩
  · cases h

/-- The symbols of a right side that have to cover text do so. -/
theorem Filled.isSome (h : Filled ((rhs.map RuleSymbol.symbol).reverse ++ before) spans)
    (hlength : rhs.length ≤ spans.length) {i : Nat} {s : RuleSymbol} (hs : rhs[i]? = some s)
    (hempty : s.mayBeEmpty = false) :
    ((spans.take rhs.length).reverse.getD i none).isSome = true := by
  have hi : i < rhs.length := (List.getElem?_eq_some_iff.mp hs).1
  have hj : rhs.length - 1 - i < spans.length := by omega
  have hsymbol : ((rhs.map RuleSymbol.symbol).reverse ++ before)[rhs.length - 1 - i]? =
      some s.symbol := by
    rw [List.getElem?_append_left (by simp; omega), List.getElem?_reverse (by simp; omega),
      List.length_map, List.getElem?_map, show rhs.length - 1 - (rhs.length - 1 - i) = i by omega, hs]
    rfl
  have hspan : (spans.take rhs.length).reverse[i]? = some spans[rhs.length - 1 - i] := by
    have htake : (spans.take rhs.length).length = rhs.length := List.length_take_of_le hlength
    rw [List.getElem?_reverse (by omega), htake, List.getElem?_take_of_lt (by omega),
      List.getElem?_eq_getElem hj]
  rw [List.getD_eq_getElem?_getD, hspan]
  rcases h _ _ _ hsymbol (List.getElem?_eq_getElem hj) with hsome | hmay
  · exact hsome
  · rw [s.named_symbol, hempty] at hmay
    cases hmay

end

theorem exists_top {nodes : List (Shape NodePlace)}
    (h : [Count.one] <+: nodes.map Shape.count) : ∃ p rest, nodes = ⟨p, .one⟩ :: rest := by
  cases nodes with
  | nil => cases List.prefix_nil.mp h
  | cons top rest =>
      obtain ⟨p, c⟩ := top
      obtain rfl : Count.one = c := (List.cons_prefix_cons.mp h).1
      exact ⟨p, rest, rfl⟩

/-- What a rule leaves below its right side: the declaration that it changes, and a frame. -/
theorem exists_frame {l : Layout} {r : Region} {x : Nonterminal} {whole : Bool} (covers : Bool)
    (hmodifiers : x.isModifiers = false) (hup : l.UpTo r.lo) (hr : r.lo ≤ r.hi)
    (hcounts : x.context.map Shape.count <+: l.nodes.map Shape.count)
    (hwhole : whole = true → x.context = []) :
    ∃ r' frame, r'.lo ≤ r.lo ∧ r'.hi = r.hi ∧
      l.Widens ((placed { nodes := x.context } r' whole).atop frame) ∧
      ((x.profile.atop { nodes := x.context }).placed r' x.leaves).atop frame =
        (RuleSymbol.n x).stacked covers r l := by
  unfold RuleSymbol.stacked
  rw [RuleSymbol.layout_of_profile hmodifiers]
  rcases x.context_cases with hcontext | ⟨hprofile, k, hcontext⟩
  · refine ⟨r, l, Nat.le_refl _, rfl, ?_, ?_⟩
    · rw [hcontext]
      exact .refl l
    · rw [hcontext, atop_empty, RuleSymbol.settle_of_nil hcontext]
  · obtain rfl : whole = false := by
      cases whole with
      | false => rfl
      | true =>
          rw [hwhole rfl] at hcontext
          cases hcontext
    rw [hcontext] at hcounts
    obtain ⟨p, rest, hnodes⟩ := exists_top hcounts
    have hp := hup ⟨p, .one⟩ (hnodes ▸ List.mem_cons_self)
    have hl := Layout.Widens.refl l
    have hrest := (Layout.Widens.refl { l with nodes := rest }).nodes
    refine ⟨⟨p.region.lo, r.hi⟩, { l with nodes := rest }, hp.1, rfl, ?_, ?_⟩
    · refine ⟨?_, hl.exprs, hl.identifiers, hl.types, hl.ints⟩
      rw [hcontext, hnodes]
      exact .cons ⟨rfl, ⟨Nat.le_refl _, Nat.le_trans hp.2 hr⟩, nofun⟩ hrest
    · rw [hcontext, hprofile, empty_atop, RuleSymbol.settle_of_cons hcontext hnodes]
      rfl

/-- A right side stands on top of a stack of symbols, whose values lie where they should. -/
structure Workspace.Ready (w : Workspace) (rule : Rule) (before : List Symbol)
    (spans : List (Option Span)) (lookahead : Span) : Prop where
  isRule : rule ∈ Language.rules
  order : InOrder spans
  length : rule.rhs.length + before.length ≤ spans.length
  filled : Filled ((rule.rhs.map RuleSymbol.symbol).reverse ++ before) spans
  context : rule.lhs.context <+: (stackProfile before).nodes
  lookahead : edge spans ≤ lookahead.start
  lies : w.Lies (stackLayout ((rule.rhs.map RuleSymbol.symbol).reverse ++ before) spans)

theorem exists_cons_of_le {n : Nat} {spans : List (Option Span)} (h : n + 1 ≤ spans.length) :
    ∃ span below, spans = span :: below ∧ n ≤ below.length := by
  cases spans with
  | nil => cases h
  | cons span below => exact ⟨span, below, rfl, Nat.le_of_succ_le_succ h⟩

namespace Workspace.Ready

variable {w : Workspace} {rule : Rule} {before : List Symbol} {spans : List (Option Span)}
  {lookahead : Span} (h : w.Ready rule before spans lookahead)

include h

theorem rhs_le : rule.rhs.length ≤ spans.length := Nat.le_trans (Nat.le_add_right ..) h.length

theorem arity_eq :
    (Handle.mk (spans.take rule.rhs.length).reverse lookahead).arity = rule.rhs.length := by
  have hlength := h.length
  change ((spans.take rule.rhs.length).reverse).length = _
  rw [List.length_reverse, List.length_take]
  omega

theorem lies_handle : (Handle.mk (spans.take rule.rhs.length).reverse lookahead).Lies
    ⟨edge (spans.drop rule.rhs.length), edge spans⟩ :=
  AspectLang.lies_handle h.order rule.rhs.length h.lookahead

theorem isSome_of_coversAt {i : Nat} (hi : rule.coversAt i = true) :
    ((spans.take rule.rhs.length).reverse.getD i none).isSome = true := by
  unfold Rule.coversAt at hi
  cases hs : rule.rhs[i]? with
  | none =>
      rw [hs] at hi
      cases hi
  | some s =>
      rw [hs] at hi
      exact h.filled.isSome h.rhs_le hs
        (Bool.not_eq_true' _ ▸ hi)

theorem suits : (Handle.mk (spans.take rule.rhs.length).reverse lookahead).Suits rule.action := by
  obtain ⟨hspots, hclosing⟩ := Bool.and_eq_true_iff.mp (Language.rules_suit h.isRule)
  refine ⟨fun i hi => h.isSome_of_coversAt (List.all_eq_true.mp hspots i hi), fun i hi => ?_⟩
  rw [h.arity_eq] at hi ⊢
  rw [Option.mem_def.mp hi] at hclosing
  obtain ⟨hcovers, hlast⟩ := Bool.and_eq_true_iff.mp hclosing
  exact ⟨h.isSome_of_coversAt hcovers, of_decide_eq_true hlast⟩

theorem order_below : edge (spans.drop rule.rhs.length) ≤ edge spans :=
  (h.order.drop rule.rhs.length).2

theorem upTo_below : (stackLayout before (spans.drop rule.rhs.length)).UpTo
    (edge (spans.drop rule.rhs.length)) :=
  upTo_stackLayout (h.order.drop rule.rhs.length).1

theorem counts_below : rule.lhs.context.map Shape.count <+:
    (stackLayout before (spans.drop rule.rhs.length)).nodes.map Shape.count := by
  have hlength := h.length
  rw [counts_stackLayout (by rw [List.length_drop]; omega)]
  exact h.context.map Shape.count

/-- The action of a rule that needs no more than that its right side lies in one region. -/
theorem yields_gathered (dialect : Dialect) {covers : Bool} (hgathers : rule.gathers = true) :
    Work.Yields w (Work.act dialect ⟨(spans.take rule.rhs.length).reverse, lookahead⟩ rule.action)
      fun _ w' => w'.Lies ((RuleSymbol.n rule.lhs).stacked covers
        ⟨edge (spans.drop rule.rhs.length), edge spans⟩
        (stackLayout before (spans.drop rule.rhs.length))) := by
  have hplaces := Language.rules_keepPlaces h.isRule hgathers
  simp only [Rule.keepsPlaces, Bool.and_eq_true, decide_eq_true_eq] at hplaces
  obtain ⟨⟨⟨htaken, hgiven⟩, hleaves⟩, hunit⟩ := hplaces
  obtain ⟨htakes, hgives⟩ := Bool.and_eq_true_iff.mp (Language.rules_balanced rule h.isRule)
  simp only [Rule.gathers, Bool.and_eq_true, Bool.not_eq_true'] at hgathers
  obtain ⟨⟨hparts, hmodifiers⟩, _⟩ := hgathers
  have hwhole : rule.finds = true →
      rule.lhs.context = [] ∧ ∀ s ∈ rule.rhs, s.isWhole = true := fun hfinds =>
    ⟨List.isEmpty_iff.mp (Bool.and_eq_true_iff.mp hfinds).1,
      List.all_eq_true.mp (Bool.and_eq_true_iff.mp hfinds).2⟩
  obtain ⟨r, frame, hlo, hhi, hbase, hout⟩ := exists_frame
    (r := ⟨edge (spans.drop rule.rhs.length), edge spans⟩) covers hmodifiers h.upTo_below
    h.order_below h.counts_below fun hfinds => (hwhole hfinds).1
  have hrow := h.lies.widen (widens_gathered h.order h.rhs_le hbase hlo (Nat.le_of_eq hhi.symm)
    (fun hfinds => (hwhole hfinds).2) fun dot s hs => ?_)
  · have hbalanced : (Profile.followed {} (rule.base :: rule.rhs.map RuleSymbol.profile)).within
        (Profile.followed {} rule.effect.1) = true := by
      rw [Profile.followed, atop_empty]
      exact htakes
    have hfound := hrow.widen (Layout.widens_followed hbalanced htaken)
    have hact := Work.places_act dialect rule.output hparts
      (fun haction => by simpa [haction] using hunit) (h.lies_handle.mono hlo hhi) h.suits w frame
    rw [h.arity_eq] at hact
    refine (hact hfound).mono fun _ w' hw' => ?_
    have hgives' : (Profile.followed {} [rule.effect.2]).within
        (Profile.followed {} [rule.output]) = true := by
      rw [Profile.followed, Profile.followed, Profile.followed, Profile.followed, atop_empty,
        atop_empty]
      exact hgives
    have hleft : w'.Lies ((rule.output.placed r (rule.action.leaves rule.finds)).atop frame) :=
      Workspace.Lies.widen hw' (Layout.widens_followed hgives' (by simpa using hgiven))
    rw [← hout]
    refine Workspace.Lies.widen hleft (.atop (widens_placed _ (.refl r) fun _ htrue => ?_)
      (.refl frame))
    rw [htrue] at hleaves
    exact hleaves
  · have hlt : dot < rule.rhs.length := (List.getElem?_eq_some_iff.mp hs).1
    have hprovides := List.all_eq_true.mp (Language.rules_provide rule h.isRule) dot
      (List.mem_range.mpr hlt)
    rw [hs] at hprovides
    exact List.isPrefixOf_iff_prefix.mp hprovides

/-! ### Actions that compare their parts -/

/-- The action of a rule leaves the layout with the left side in place of the right side. -/
def Reduces (w : Workspace) (dialect : Dialect) (rule : Rule) (before : List Symbol)
    (spans : List (Option Span)) (lookahead : Span) : Prop :=
  Work.Yields w (Work.act dialect ⟨(spans.take rule.rhs.length).reverse, lookahead⟩ rule.action)
    fun _ w' => w'.Lies ((RuleSymbol.n rule.lhs).stacked
      (Handle.mk (spans.take rule.rhs.length).reverse lookahead).whole?.isSome
      ⟨edge (spans.drop rule.rhs.length), edge spans⟩
      (stackLayout before (spans.drop rule.rhs.length)))

theorem reduces_fieldDecl (dialect : Dialect) (hrule : rule = ⟨.fieldDeclaration,
      [.n .modifiersOpt, .n .type, .n .variableDeclarators, .t .semicolon], .fieldDecl⟩) :
    Reduces w dialect rule before spans lookahead := by
  subst hrule
  obtain ⟨s₃, below, rfl, h₃⟩ := exists_cons_of_le h.rhs_le
  obtain ⟨s₂, below, rfl, h₂⟩ := exists_cons_of_le h₃
  obtain ⟨s₁, below, rfl, h₁⟩ := exists_cons_of_le h₂
  obtain ⟨s₀, below, rfl, _⟩ := exists_cons_of_le h₁
  have hstack := h.lies
  change w.Lies (stackLayout (RuleSymbol.symbol (.t .semicolon) ::
    RuleSymbol.symbol (.n .variableDeclarators) :: RuleSymbol.symbol (.n .type) ::
    RuleSymbol.symbol (.n .modifiersOpt) :: before) _) at hstack
  rw [stackLayout_cons, stackLayout_cons, stackLayout_cons, stackLayout_cons] at hstack
  have hlies : w.Lies (((node .declarator .many).placed
        ⟨edge (s₁ :: s₀ :: below), edge (s₂ :: s₁ :: s₀ :: below)⟩ false).atop
      ((type.placed ⟨edge (s₀ :: below), edge (s₁ :: s₀ :: below)⟩ false).atop
        ((Layout.modifiers ⟨edge below, edge (s₀ :: below)⟩ s₀.isSome).atop
          (stackLayout before below)))) := hstack
  have hclosing := h.suits.closing 3 rfl
  have hstop := h.lies_handle.stop_of_last hclosing.1 hclosing.2
  have hyields := Work.yields_fieldDecl hlies h.order.tail.tail.tail.edge_le (Nat.le_refl _)
    (Nat.le_refl _) (Nat.le_trans h.order.edge_le (Nat.le_of_eq hstop.symm))
  rw [hstop] at hyields
  exact hyields

theorem reduces_initializerBlock (dialect : Dialect)
    (hrule : rule = ⟨.initializer, [.n .modifiersOpt, .n .block], .initializerBlock⟩) :
    Reduces w dialect rule before spans lookahead := by
  subst hrule
  obtain ⟨s₁, below, rfl, h₁⟩ := exists_cons_of_le h.rhs_le
  obtain ⟨s₀, below, rfl, _⟩ := exists_cons_of_le h₁
  have hstack := h.lies
  change w.Lies (stackLayout (RuleSymbol.symbol (.n .block) ::
    RuleSymbol.symbol (.n .modifiersOpt) :: before) _) at hstack
  rw [stackLayout_cons, stackLayout_cons] at hstack
  have hlies : w.Lies (((node .block).placed
        ⟨edge (s₀ :: below), edge (s₁ :: s₀ :: below)⟩ true).atop
      ((Layout.modifiers ⟨edge below, edge (s₀ :: below)⟩ s₀.isSome).atop
        (stackLayout before below))) := hstack
  exact Work.yields_initializerBlock hlies h.order.tail.edge_le (Nat.le_refl _)

theorem reduces_classBody (dialect : Dialect) (hrule : rule = ⟨.classBody,
      [.t .lBrace, .n .classBodyDeclarationsOpt, .t .rBrace], .classBody⟩) :
    Reduces w dialect rule before spans lookahead := by
  subst hrule
  obtain ⟨s₂, below, rfl, h₂⟩ := exists_cons_of_le h.rhs_le
  obtain ⟨s₁, below, rfl, h₁⟩ := exists_cons_of_le h₂
  obtain ⟨s₀, below, rfl, _⟩ := exists_cons_of_le h₁
  have hstack := h.lies
  change w.Lies (stackLayout (RuleSymbol.symbol (.t .rBrace) ::
    RuleSymbol.symbol (.n .classBodyDeclarationsOpt) :: RuleSymbol.symbol (.t .lBrace) ::
    before) _) at hstack
  rw [stackLayout_cons, stackLayout_cons, stackLayout_cons] at hstack
  have hmembers : w.Lies (((node .member .many).placed
      ⟨edge (s₀ :: below), edge (s₁ :: s₀ :: below)⟩ true).atop
      (stackLayout before below)) := hstack
  have hregion : Region.Within ⟨edge (s₀ :: below), edge (s₁ :: s₀ :: below)⟩
      ⟨edge below, edge (s₂ :: s₁ :: s₀ :: below)⟩ :=
    ⟨h.order.tail.tail.edge_le, h.order.edge_le⟩
  have hlies := hmembers.widen (.atop (widens_placed _ hregion fun _ => id) (.refl _))
  -- the type that the body belongs to is on top of what is below
  obtain ⟨p, rest, hnodes⟩ : ∃ p rest, (stackLayout before below).nodes = ⟨p, .one⟩ :: rest :=
    exists_top h.counts_below
  have hframe : stackLayout before below = ((node .type).placed p.region p.whole).atop
      { stackLayout before below with nodes := rest } := by
    change _ = Layout.mk (⟨p, .one⟩ :: rest) _ _ _ _
    rw [← hnodes]
    rfl
  have hp : p.region.hi ≤ edge below :=
    (h.upTo_below ⟨p, .one⟩ (hnodes ▸ List.mem_cons_self)).2
  rw [hframe] at hlies
  have hclosing := h.suits.closing 2 rfl
  have hstop := h.lies_handle.stop_of_last hclosing.1 hclosing.2
  refine (Work.yields_classBody hlies hp h.order_below hstop).mono fun _ w' hw' => ?_
  change w'.Lies (Layout.atop _ (RuleSymbol.settle (edge (s₂ :: s₁ :: s₀ :: below))
    (.n .classBody) (stackLayout before below)))
  rw [RuleSymbol.settle_of_cons (x := .classBody) rfl hnodes]
  exact hw'

theorem reduces_methodDecl (dialect : Dialect) (haction : rule.action = .methodDecl) :
    Reduces w dialect rule before spans lookahead := by
  obtain ⟨header, hrhs, hheader, hlhs, hleaves⟩ :=
    Rule.exists_header (Language.rules_methodDecl h.isRule haction)
  have hlength := h.rhs_le
  have hstack := h.lies
  unfold Reduces
  rw [haction, RuleSymbol.stacked_of_leavesOne hlhs, hleaves]
  rw [hrhs] at hlength hstack ⊢
  obtain ⟨s₁, below, rfl, h₁⟩ := exists_cons_of_le hlength
  obtain ⟨s₀, below, rfl, _⟩ := exists_cons_of_le h₁
  change w.Lies (stackLayout (RuleSymbol.symbol (.n .methodBody) ::
    RuleSymbol.symbol (.n header) :: before) _) at hstack
  rw [stackLayout_cons, stackLayout_cons, RuleSymbol.stacked_of_leavesOne hheader] at hstack
  have hlies : w.Lies (((node .statement).placed
        ⟨edge (s₀ :: below), edge (s₁ :: s₀ :: below)⟩ true).atop
      (((node .method).placed ⟨edge below, edge (s₀ :: below)⟩ header.leaves).atop
        (stackLayout before below))) := hstack
  exact Work.yields_methodDecl hlies (Nat.le_refl _)

/-- A body ends the declaration whose header is below it. -/
theorem reduces_headed (dialect : Dialect) (hbody : rule.rhs.contains (.n .classBody) = true) :
    Reduces w dialect rule before spans lookahead := by
  obtain ⟨haction, hheaded⟩ := Language.rules_classBody h.isRule hbody
  obtain ⟨header, hrhs, hheader, hlhs, hleaves⟩ := Rule.exists_header hheaded
  have hlength := h.rhs_le
  have hstack := h.lies
  unfold Reduces
  rw [haction, RuleSymbol.stacked_of_leavesOne hlhs, hleaves]
  rw [hrhs] at hlength hstack ⊢
  obtain ⟨s₁, below, rfl, h₁⟩ := exists_cons_of_le hlength
  obtain ⟨s₀, below, rfl, _⟩ := exists_cons_of_le h₁
  change w.Lies (stackLayout (RuleSymbol.symbol (.n .classBody) ::
    RuleSymbol.symbol (.n header) :: before) _) at hstack
  rw [stackLayout_cons, stackLayout_cons, RuleSymbol.stacked_of_leavesOne hheader] at hstack
  exact .pure hstack

/-! ### Runs of modifiers -/

section

omit h

variable {lhs x : Nonterminal} (hlhs : lhs.isModifiers = true)

include hlhs

theorem reduces_modifierKeyword (dialect : Dialect) {flag : Modifiers} {kind : TokenKind}
    (hkind : kind.profile = {})
    (h : w.Ready ⟨lhs, [.t kind], .modifierKeyword flag⟩ before spans lookahead) :
    Reduces w dialect ⟨lhs, [.t kind], .modifierKeyword flag⟩ before spans lookahead := by
  obtain ⟨s₀, below, rfl, _⟩ := exists_cons_of_le h.rhs_le
  have hstack := h.lies
  change w.Lies (stackLayout (RuleSymbol.symbol (.t kind) :: before) _) at hstack
  rw [stackLayout_cons, RuleSymbol.stacked_of_profile hkind] at hstack
  have hsome := h.suits.spots 0 (List.mem_singleton.mpr rfl)
  unfold Reduces
  rw [RuleSymbol.stacked_of_modifiers hlhs, Handle.Lies.isSome_whole? hsome]
  exact Work.yields_modifierKeyword hstack (h.lies_handle.span hsome)

theorem reduces_annotationModifier (dialect : Dialect)
    (h : w.Ready ⟨lhs, [.n .annotationUse], .annotationModifier⟩ before spans lookahead) :
    Reduces w dialect ⟨lhs, [.n .annotationUse], .annotationModifier⟩ before spans lookahead := by
  obtain ⟨s₀, below, rfl, _⟩ := exists_cons_of_le h.rhs_le
  have hstack := h.lies
  change w.Lies (stackLayout (RuleSymbol.symbol (.n .annotationUse) :: before) _) at hstack
  rw [stackLayout_cons] at hstack
  have hannotation : w.Lies (((expr .annotationUse).placed ⟨edge below, edge (s₀ :: below)⟩
    false).atop (stackLayout before below)) := hstack
  have hsome := h.suits.spots 0 (List.mem_singleton.mpr rfl)
  unfold Reduces
  rw [RuleSymbol.stacked_of_modifiers hlhs, Handle.Lies.isSome_whole? hsome]
  exact Work.yields_annotationModifier hannotation (h.lies_handle.span hsome)

theorem reduces_concatModifiers (dialect : Dialect)
    (h : w.Ready ⟨lhs, [.n .modifiers, .n .modifier], .concatModifiers⟩ before spans lookahead) :
    Reduces w dialect ⟨lhs, [.n .modifiers, .n .modifier], .concatModifiers⟩ before spans
      lookahead := by
  obtain ⟨s₁, below, rfl, h₁⟩ := exists_cons_of_le h.rhs_le
  obtain ⟨s₀, below, rfl, _⟩ := exists_cons_of_le h₁
  have hfirst : s₀.isSome = true := h.isSome_of_coversAt (i := 0) rfl
  have hsecond : s₁.isSome = true := h.isSome_of_coversAt (i := 1) rfl
  have hstack := h.lies
  change w.Lies (stackLayout (RuleSymbol.symbol (.n .modifier) ::
    RuleSymbol.symbol (.n .modifiers) :: before) _) at hstack
  rw [stackLayout_cons, stackLayout_cons, hfirst, hsecond] at hstack
  unfold Reduces
  rw [RuleSymbol.stacked_of_modifiers hlhs,
    Handle.Lies.isSome_whole? (h.isSome_of_coversAt (i := 0) rfl)]
  exact Work.yields_concatModifiers hstack h.order.tail.edge_le (Nat.le_refl _) h.order.edge_le

/-- A run of modifiers that covers text is taken as it is. -/
theorem reduces_someModifiers (dialect : Dialect) (hx : x.isModifiers = true)
    (hcovers : x.mayBeEmpty = false) (h : w.Ready ⟨lhs, [.n x], .none⟩ before spans lookahead) :
    Reduces w dialect ⟨lhs, [.n x], .none⟩ before spans lookahead := by
  obtain ⟨s₀, below, rfl, _⟩ := exists_cons_of_le h.rhs_le
  have hsome : s₀.isSome = true := h.filled.isSome h.rhs_le (i := 0) rfl hcovers
  have hstack := h.lies
  change w.Lies (stackLayout (RuleSymbol.symbol (.n x) :: before) _) at hstack
  rw [stackLayout_cons, RuleSymbol.stacked_of_modifiers hx, hsome] at hstack
  unfold Reduces
  rw [RuleSymbol.stacked_of_modifiers hlhs,
    Handle.Lies.isSome_whole? (h.filled.isSome h.rhs_le (i := 0) rfl hcovers)]
  exact .pure hstack

theorem reduces_emptyModifiers (dialect : Dialect)
    (h : w.Ready ⟨lhs, [], .emptyModifiers⟩ before spans lookahead) :
    Reduces w dialect ⟨lhs, [], .emptyModifiers⟩ before spans lookahead := by
  unfold Reduces
  rw [RuleSymbol.stacked_of_modifiers hlhs]
  exact Work.yields_emptyModifiers h.lies h.lookahead

end

theorem reduces_modifiers (dialect : Dialect) (hmodifiers : rule.lhs.isModifiers = true) :
    Reduces w dialect rule before spans lookahead := by
  have hshape := Language.rules_modifiers h.isRule hmodifiers
  obtain ⟨lhs, rhs, action⟩ := rule
  unfold Rule.isModifierRule at hshape
  split at hshape
  · rename_i flag kind haction hrhs
    cases haction
    cases hrhs
    exact reduces_modifierKeyword hmodifiers dialect (of_decide_eq_true hshape) h
  · rename_i x haction hrhs
    obtain rfl := of_decide_eq_true hshape
    cases haction
    cases hrhs
    exact reduces_annotationModifier hmodifiers dialect h
  · rename_i x y haction hrhs
    obtain ⟨hx, hy⟩ := Bool.and_eq_true_iff.mp hshape
    obtain rfl := of_decide_eq_true hx
    obtain rfl := of_decide_eq_true hy
    cases haction
    cases hrhs
    exact reduces_concatModifiers hmodifiers dialect h
  · rename_i x haction hrhs
    obtain ⟨hx, hcovers⟩ := Bool.and_eq_true_iff.mp hshape
    cases haction
    cases hrhs
    exact reduces_someModifiers hmodifiers dialect hx (Bool.not_eq_true' _ ▸ hcovers) h
  · rename_i haction hrhs
    cases haction
    cases hrhs
    exact reduces_emptyModifiers hmodifiers dialect h
  · cases hshape

/-- **The action of a rule leaves values where the symbols lie**, once its right side is replaced
by its left side. -/
theorem reduces (dialect : Dialect) : Reduces w dialect rule before spans lookahead := by
  cases hmodifiers : rule.lhs.isModifiers with
  | true => exact h.reduces_modifiers dialect hmodifiers
  | false =>
      cases hbody : rule.rhs.contains (.n .classBody) with
      | true => exact h.reduces_headed dialect hbody
      | false =>
          cases hparts : rule.action.comparesParts with
          | false =>
              refine h.yields_gathered dialect ?_
              rw [Rule.gathers, hmodifiers, hbody, hparts]
              rfl
          | true =>
              rcases Language.rules_parts h.isRule hparts with
                htrue | haction | hrule | hrule | hrule
              · rw [hmodifiers] at htrue
                cases htrue
              · exact h.reduces_methodDecl dialect haction
              · exact h.reduces_fieldDecl dialect hrule
              · exact h.reduces_initializerBlock dialect hrule
              · exact h.reduces_classBody dialect hrule

end Workspace.Ready

/-! ### The stack after a shift or a reduction -/

section

variable {rule : Rule} {before : List Symbol} {spans : List (Option Span)}

theorem stackLayout_reduced (h : InOrder spans) (lookahead : Span) :
    stackLayout (.nonterminal rule.lhs.index :: before)
      ((Handle.mk (spans.take rule.rhs.length).reverse lookahead).whole? ::
        spans.drop rule.rhs.length) =
    (RuleSymbol.n rule.lhs).stacked
      (Handle.mk (spans.take rule.rhs.length).reverse lookahead).whole?.isSome
      ⟨edge (spans.drop rule.rhs.length), edge spans⟩
      (stackLayout before (spans.drop rule.rhs.length)) := by
  rw [← (h.reduced rule.rhs.length lookahead).2]
  exact stackLayout_cons (.n rule.lhs) ..

theorem Filled.shift {symbols : List Symbol} (h : Filled symbols spans) (s : Symbol) (span : Span) :
    Filled (s :: symbols) (some span :: spans) := by
  intro i s' span' hs hspan
  cases i with
  | zero =>
      cases hspan
      exact .inl rfl
  | succ i => exact h i s' span' hs hspan

theorem Filled.reduced (h : Filled ((rule.rhs.map RuleSymbol.symbol).reverse ++ before) spans)
    (hr : rule ∈ Language.rules) (hlength : rule.rhs.length ≤ spans.length) (lookahead : Span) :
    Filled (.nonterminal rule.lhs.index :: before)
      ((Handle.mk (spans.take rule.rhs.length).reverse lookahead).whole? ::
        spans.drop rule.rhs.length) := by
  intro i s span hs hspan
  cases i with
  | zero =>
      cases hs
      cases hspan
      rw [Classical.or_iff_not_imp_left]
      intro hnone
      -- a right side without text consists of symbols that need not cover any
      have hempty : rule.rhs.all RuleSymbol.mayBeEmpty = true := by
        refine List.all_eq_true.mpr fun s hs => ?_
        obtain ⟨j, hj⟩ := List.mem_iff_getElem?.mp hs
        cases hmay : s.mayBeEmpty with
        | true => rfl
        | false => exact absurd (Handle.Lies.isSome_whole? (h.isSome hlength hj hmay)) hnone
      change (RuleSymbol.symbol (.n rule.lhs)).named.mayBeEmpty = true
      rw [RuleSymbol.named_symbol]
      exact Language.rules_cover hr hempty
  | succ i =>
      refine h (rule.rhs.length + i) s span ?_ ?_
      · rw [List.getElem?_append_right (by simp)]
        simpa using hs
      · rw [← List.getElem?_drop]
        exact hspan

end

end AspectLang
