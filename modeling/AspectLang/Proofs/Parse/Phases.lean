import AspectLang.Proofs.Parse.Outcomes
import AspectLang.Proofs.Parse.Placement

/-! # The order of declarations on the stack

The kind of a node is its role together with a `Stage`, which tells whether types are still open or
declarations are finished.  `stackKinds` lists the kinds of the nodes that a stack of symbols
leaves; the body of a type finishes the header below it.

From the lowest node to the topmost one a unit goes through `Phase`s: the package, the imports, the
types, and from the first open type on the members of a body, until a method begins.  No rule that
is in progress leaves that order, since every nonterminal begins in one of its `entry` phases
(`Language.rules_keepPhases`).  So whatever the automaton has read, the kinds of its nodes are in
order (`exists_phase`), and the nodes themselves are too (`SegmentStack.Fits.exists_along`). -/

namespace AspectLang

/-! ### Kinds of nodes -/

/-- How far declarations have come. -/
inductive Stage where
  /-- Nothing is known. -/
  | any
  /-- The ends of types were not read yet. -/
  | opened
  /-- The ends of types and methods were read. -/
  | finished
deriving DecidableEq

/-- Whether a node is a declaration whose end was never read. -/
def Node.isOpen : Node → Bool
  | .type t => t.isOpen
  | .method m => m.isOpen
  | _ => false

/-- A node has come as far as a stage says. -/
def Stage.Has : Stage → Node → Prop
  | .any, _ => True
  | .opened, .type t => t.isOpen = true
  | .opened, _ => True
  | .finished, n => n.isOpen = false

/-- Whether nodes of a role may be types or methods. -/
def NodeRole.mayBeOpen : NodeRole → Bool
  | .type | .method | .member => true
  | _ => false

/-- Whether nodes of a role are declarations. -/
def NodeRole.isDeclaration (k : NodeRole) : Bool :=
  k.mayBeOpen || k = .package || k = .importDecl

/-- What is neither a type nor a method is in every stage. -/
theorem Stage.has_of_role {plain : Prop} {k : NodeRole} {n : Node} (stage : Stage)
    (h : k.Has plain n) (hk : k.mayBeOpen = false) : stage.Has n := by
  cases n with
  | type _ | method _ => cases k <;> contradiction
  | _ => cases stage <;> trivial

/-- The role of nodes, and how far they have come. -/
structure NodeKind where
  role : NodeRole
  stage : Stage
deriving DecidableEq

/-- A node is of a kind. -/
structure NodeKind.Has (k : NodeKind) (n : Node) : Prop where
  role : k.role.Has False n
  stage : k.stage.Has n

/-- Nodes of a shape that have come to a stage. -/
def Shape.staged (stage : Stage) (s : Shape NodeRole) : Shape NodeKind := ⟨⟨s.role, stage⟩, s.count⟩

/-- The shape without the stage. -/
def Shape.unstaged (s : Shape NodeKind) : Shape NodeRole := ⟨s.role.role, s.count⟩

/-! ### Symbols -/

namespace Nonterminal

/-- How far the declarations have come that a nonterminal leaves or changes. -/
def stage : Nonterminal → Stage
  | classHeader | classHeaderName | interfaceHeader | interfaceHeaderName | aspectHeader
  | aspectHeaderName | interTypeClassHeader | interTypeClassHeaderName | classHeaderExtendsOpt
  | classHeaderImplementsOpt | interfaceHeaderExtendsOpt | aspectHeaderRestOpt
  | aspectHeaderRest => .opened
  | methodHeader | methodHeaderName | constructorHeader | constructorHeaderName | pointcutHeader
  | aroundHeader | aroundHeaderName | basicAdviceHeader | basicAdviceHeaderName
  | interTypeFieldHeader | interTypeFieldBody | interTypeMethodHeader | interTypeMethodHeaderName
  | interTypeConstructorHeader | interTypeConstructorHeaderName => .any
  | _ => .finished

/-- The kinds of the nodes that a nonterminal leaves. -/
def kinds (x : Nonterminal) : List (Shape NodeKind) := x.profile.nodes.map (Shape.staged x.stage)

/-- The kind of the declaration that rules for a nonterminal change: types are changed while they
are open. -/
def kindContext (x : Nonterminal) : List (Shape NodeKind) :=
  x.context.map fun s => s.staged (cond (s.role = .type) .opened .any)

end Nonterminal

/-- The kinds of nodes when a symbol is put on a stack: a declaration that it changes comes to its
stage. -/
def RuleSymbol.put (ks : List (Shape NodeKind)) : RuleSymbol → List (Shape NodeKind)
  | .t _ => ks
  | .n x => x.kinds ++ cond x.context.isEmpty ks
      (ks.modifyHead fun shape => shape.unstaged.staged x.stage)

/-- The kinds of the nodes that a stack of symbols leaves, the topmost first. -/
def stackKinds : List Symbol → List (Shape NodeKind)
  | [] => []
  | s :: below => s.named.put (stackKinds below)

theorem RuleSymbol.put_append {s : RuleSymbol} {ks : List (Shape NodeKind)}
    (hks : ∀ x, s = .n x → x.context ≠ [] → ks ≠ []) (rest : List (Shape NodeKind)) :
    s.put (ks ++ rest) = s.put ks ++ rest := by
  cases s with
  | t kind => rfl
  | n x =>
      by_cases hcontext : x.context = []
      · simp [put, hcontext]
      · obtain ⟨shape, ks, rfl⟩ := List.exists_cons_of_ne_nil (hks x rfl hcontext)
        have hchanges : x.context.isEmpty = false := by simpa using hcontext
        simp [put, hchanges]

theorem RuleSymbol.unstaged_put (s : RuleSymbol) (ks : List (Shape NodeKind)) :
    (s.put ks).map Shape.unstaged = s.profile.nodes ++ ks.map Shape.unstaged := by
  have hstaged : ∀ stage, Shape.unstaged ∘ Shape.staged stage = id := fun _ => rfl
  cases s with
  | t kind =>
      have hnodes : (RuleSymbol.t kind).profile.nodes = [] := by
        cases kind <;> rfl
      rw [hnodes]
      rfl
  | n x =>
      simp only [put, Nonterminal.kinds, List.map_append, List.map_map, hstaged, List.map_id]
      congr 1
      cases x.context.isEmpty with
      | true => rfl
      | false => cases ks <;> rfl

/-! ### Phases -/

/-- The phases of an unfinished unit. -/
inductive Phase where
  | package | imports | types | body | code
deriving DecidableEq

namespace Phase

/-- Whether what may follow the second phase may follow the first. -/
def within : Phase → Phase → Bool
  | .package, .imports | .package, .types | .imports, .types | .body, .code => true
  | φ, ψ => φ = ψ

/-- The phase after a node, if it may follow. -/
def after : Phase → Node → Option Phase
  | .package, .package _ => some .imports
  | .package, .importDecl _ | .imports, .importDecl _ => some .imports
  | .package, .type t | .imports, .type t | .types, .type t =>
    some (if t.isOpen then .body else .types)
  | .body, .type _ | .body, .field _ | .body, .initializer _ => some .body
  | .body, .method m => some (if m.isOpen then .code else .body)
  | _, .package _ | _, .importDecl _ | _, .type _ | _, .method _ | _, .field _
  | _, .initializer _ => none
  | φ, _ => some φ

/-- The latest phase after nodes of a shape, if they may follow. -/
def past (φ : Phase) (shape : Shape NodeKind) : Option Phase :=
  match shape.role, φ with
  | ⟨.package, _⟩, .package => if shape.count.within .optional then some .imports else none
  | ⟨.importDecl, _⟩, .package | ⟨.importDecl, _⟩, .imports => some .imports
  | ⟨.type, .opened⟩, .code => none
  | ⟨.type, .opened⟩, _ => if shape.count = .one then some .body else none
  | ⟨.type, .finished⟩, .body | ⟨.method, .finished⟩, .body | ⟨.member, .finished⟩, .body =>
    some .body
  | ⟨.type, .finished⟩, .package | ⟨.type, .finished⟩, .imports | ⟨.type, .finished⟩, .types =>
    some .types
  | ⟨.method, .any⟩, .body => if shape.count = .one then some .code else none
  | ⟨role, _⟩, φ => if role.isDeclaration then none else some φ

/-- The latest phase after nodes of some shapes, the topmost first. -/
def through (φ : Phase) : List (Shape NodeKind) → Option Phase
  | [] => some φ
  | shape :: below => (φ.through below).bind (past · shape)

theorem through_append (φ : Phase) (top below : List (Shape NodeKind)) :
    φ.through (top ++ below) = (φ.through below).bind (through · top) := by
  induction top with
  | nil => simp [through]
  | cons shape top ih =>
      rw [List.cons_append, through, ih, Option.bind_assoc]
      rfl

end Phase

/-! ### Where nonterminals begin -/

namespace Nonterminal

/-- The phases in which a nonterminal may begin; the declaration that its rules change is not
counted. -/
def entry : Nonterminal → List Phase
  | goal | compilationUnit | packageDeclarationOpt | packageDeclaration => [.package]
  | importDeclarationsOpt | importDeclarations | importDeclaration => [.imports]
  | typeDeclarationsOpt | typeDeclarations | typeDeclaration => [.imports, .types]
  | classDeclaration | classHeader | classHeaderName | interfaceDeclaration | interfaceHeader
  | interfaceHeaderName | aspectDeclaration | aspectHeader | aspectHeaderName
  | classHeaderExtendsOpt | classHeaderImplementsOpt | interfaceHeaderExtendsOpt | classBody
  | aspectHeaderRestOpt | aspectHeaderRest => [.imports, .types, .body]
  | classBodyDeclarationsOpt | classBodyDeclarations | classBodyDeclaration
  | classMemberDeclaration | fieldDeclaration | methodDeclaration | methodHeader
  | methodHeaderName | constructorDeclaration | constructorHeader | constructorHeaderName
  | initializer | pointcutDeclaration | pointcutHeader | adviceDeclaration | aroundHeader
  | aroundHeaderName | basicAdviceHeader | basicAdviceHeaderName | declareDeclaration
  | declareAnnotationDeclaration | interTypeFieldDeclaration | interTypeFieldHeader
  | interTypeFieldBody | interTypeMethodDeclaration | interTypeMethodHeader
  | interTypeMethodHeaderName | interTypeConstructorDeclaration | interTypeConstructorHeader
  | interTypeConstructorHeaderName | interTypeClassDeclaration | interTypeClassHeader
  | interTypeClassHeaderName => [.body]
  | _ => [.package, .imports, .types, .body, .code]

/-- A nonterminal may begin on top of nodes of some kinds: there is the declaration that its rules
change, and below that one of its phases is reached. -/
def Begins (x : Nonterminal) (ks : List (Shape NodeKind)) : Prop :=
  ∃ rest, ks = x.kindContext ++ rest ∧ ∃ φ ∈ x.entry, Phase.package.through rest = some φ

/-- Whether a nonterminal may begin on top of nodes that follow some phase. -/
def mayBegin (x : Nonterminal) (φ : Phase) (ks : List (Shape NodeKind)) : Bool :=
  x.kindContext.isPrefixOf ks &&
    (φ.through (ks.drop x.kindContext.length)).any x.entry.contains

end Nonterminal

namespace Rule

/-- The kinds of nodes in a rule up to a dot, with the declaration that it changes. -/
def kindsUpTo (r : Rule) (dot : Nat) : List (Shape NodeKind) :=
  (r.rhs.take dot).foldl RuleSymbol.put r.lhs.kindContext

/-- Whether a symbol may come next in a rule that begins in some phase. -/
def allowsNext (r : Rule) (φ : Phase) (dot : Nat) : Bool :=
  match r.rhs[dot]? with
  | some (.n x) => x.mayBegin φ (r.kindsUpTo dot)
  | _ => true

/-- Whether a rule keeps the order of declarations, in whichever phase it begins. -/
def keepsPhases (r : Rule) : Bool :=
  r.lhs.entry.all fun φ => (List.range (r.rhs.length + 1)).all fun dot =>
    (φ.through (r.kindsUpTo dot)).isSome && r.allowsNext φ dot

end Rule

theorem Language.rules_keepPhases : ∀ r ∈ rules, r.keepsPhases = true := by
  decide +kernel

/-! ### Rules in progress -/

namespace Nonterminal

variable {x : Nonterminal}

theorem kindContext_ne_nil (h : x.context ≠ []) : x.kindContext ≠ [] := by
  unfold kindContext
  simpa using h

theorem begins_of_mayBegin {φ : Phase} {ks rest : List (Shape NodeKind)}
    (h : x.mayBegin φ ks = true) (hrest : Phase.package.through rest = some φ) :
    x.Begins (ks ++ rest) := by
  obtain ⟨hcontext, hphase⟩ := Bool.and_eq_true_iff.mp h
  obtain ⟨top, rfl⟩ := List.isPrefixOf_iff_prefix.mp hcontext
  rw [List.drop_left] at hphase
  obtain ⟨ψ, hψ, hentry⟩ : ∃ ψ, φ.through top = some ψ ∧ ψ ∈ x.entry := by
    simpa [Option.any_eq_true] using hphase
  refine ⟨top ++ rest, List.append_assoc .., ψ, hentry, ?_⟩
  rw [Phase.through_append, hrest]
  exact hψ

end Nonterminal

namespace Rule

variable {r : Rule} {dot : Nat} {symbols before : List Symbol} {rest : List (Shape NodeKind)}
  {φ : Phase}

/-- A rule is in progress up to a dot, and it began where its left side may begin. -/
def InProgress (r : Rule) (dot : Nat) (symbols : List Symbol) : Prop :=
  ∃ before, symbols = ((r.rhs.take dot).map RuleSymbol.symbol).reverse ++ before ∧
    r.lhs.Begins (stackKinds before)

theorem reverse_take_succ {s : RuleSymbol} (h : r.rhs[dot]? = some s) :
    ((r.rhs.take (dot + 1)).map RuleSymbol.symbol).reverse =
      s.symbol :: ((r.rhs.take dot).map RuleSymbol.symbol).reverse := by
  rw [List.take_add_one, h, Option.toList_some, List.map_append, List.reverse_append]
  rfl

theorem kindsUpTo_succ {s : RuleSymbol} (h : r.rhs[dot]? = some s) :
    r.kindsUpTo (dot + 1) = s.put (r.kindsUpTo dot) := by
  unfold kindsUpTo
  rw [List.take_add_one, h, Option.toList_some, List.foldl_concat]

theorem keepsPhases_at (hr : r ∈ Language.rules) (hφ : φ ∈ r.lhs.entry)
    (hdot : dot ≤ r.rhs.length) :
    (φ.through (r.kindsUpTo dot)).isSome = true ∧ r.allowsNext φ dot = true := by
  have hkeeps := List.all_eq_true.mp (Language.rules_keepPhases r hr) φ hφ
  exact Bool.and_eq_true_iff.mp
    (List.all_eq_true.mp hkeeps dot (List.mem_range.mpr (Nat.lt_succ_of_le hdot)))

/-- The nodes of a rule in progress are on top of those that were there when it began. -/
theorem stackKinds_upTo (hr : r ∈ Language.rules) (hφ : φ ∈ r.lhs.entry)
    (hbefore : stackKinds before = r.lhs.kindContext ++ rest) (hdot : dot ≤ r.rhs.length) :
    stackKinds (((r.rhs.take dot).map RuleSymbol.symbol).reverse ++ before) =
      r.kindsUpTo dot ++ rest := by
  induction dot with
  | zero => exact hbefore
  | succ dot ih =>
      obtain ⟨s, hs⟩ : ∃ s, r.rhs[dot]? = some s := ⟨_, List.getElem?_eq_getElem hdot⟩
      have hnext := (keepsPhases_at hr hφ (Nat.le_of_succ_le hdot)).2
      -- a symbol that changes a declaration finds it in the rule
      have hchanged : ∀ x, s = .n x → x.context ≠ [] → r.kindsUpTo dot ≠ [] := by
        rintro x rfl hcontext hnil
        unfold allowsNext at hnext
        rw [hs, hnil] at hnext
        obtain ⟨hfound, _⟩ := Bool.and_eq_true_iff.mp hnext
        have hcut := List.isPrefixOf_iff_prefix.mp hfound
        exact Nonterminal.kindContext_ne_nil hcontext (List.prefix_nil.mp hcut)
      rw [reverse_take_succ hs, List.cons_append, stackKinds, s.named_symbol,
        ih (Nat.le_of_succ_le hdot), kindsUpTo_succ hs, RuleSymbol.put_append hchanged]

/-- There is a phase that a rule in progress has reached. -/
theorem InProgress.exists_phase (hr : r ∈ Language.rules) (hdot : dot ≤ r.rhs.length)
    (h : r.InProgress dot symbols) : ∃ φ, Phase.package.through (stackKinds symbols) = some φ := by
  obtain ⟨before, rfl, rest, hbefore, φ, hφ, hrest⟩ := h
  rw [stackKinds_upTo hr hφ hbefore hdot, Phase.through_append, hrest]
  exact Option.isSome_iff_exists.mp (keepsPhases_at hr hφ hdot).1

theorem InProgress.advance {s : RuleSymbol} (h : r.InProgress dot symbols)
    (hs : r.rhs[dot]? = some s) : r.InProgress (dot + 1) (s.symbol :: symbols) := by
  obtain ⟨before, rfl, hbegins⟩ := h
  exact ⟨before, by rw [reverse_take_succ hs, List.cons_append], hbegins⟩

theorem InProgress.begin {r' : Rule} (hr : r ∈ Language.rules) (h : r.InProgress dot symbols)
    (hnext : r.rhs[dot]? = some (.n r'.lhs)) : r'.InProgress 0 symbols := by
  obtain ⟨before, rfl, rest, hbefore, φ, hφ, hrest⟩ := h
  have hdot : dot ≤ r.rhs.length := Nat.le_of_lt (List.getElem?_eq_some_iff.mp hnext).1
  have hallows := (keepsPhases_at hr hφ hdot).2
  unfold allowsNext at hallows
  rw [hnext] at hallows
  refine ⟨((r.rhs.take dot).map RuleSymbol.symbol).reverse ++ before, rfl, ?_⟩
  rw [stackKinds_upTo hr hφ hbefore hdot]
  exact Nonterminal.begins_of_mayBegin hallows hrest

end Rule

/-- Every rule in progress began where its left side may begin. -/
theorem Language.traced_inProgress : Traced Rule.InProgress where
  start r hr := by
    rw [ruleArray_zero, Option.some.injEq] at hr
    subst hr
    exact ⟨[], rfl, [], rfl, .package, by decide, rfl⟩
  advance h hs := h.advance hs
  begins hr h hnext := h.begin hr hnext

/-- **Whatever the automaton has read, declarations are in order on the stack.** -/
theorem exists_phase {states : List Nat} {symbols : List Symbol}
    (h : Language.grammar.Spells states symbols) :
    ∃ φ, Phase.package.through (stackKinds symbols) = some φ := by
  obtain ⟨r, hr, dot, hdot, hprogress⟩ := Language.traced_inProgress.exists_of_spells h
  exact hprogress.exists_phase hr hdot

/-! ### Nodes in order -/

namespace Phase

variable {φ ψ χ : Phase} {kind : NodeKind} {count : Count} {n : Node} {segment : List Node}

/-- The phase after nodes, the lowest first, if they may follow. -/
def along (φ : Phase) (nodes : List Node) : Option Phase := nodes.foldlM after φ

theorem along_append (φ : Phase) (lower upper : List Node) :
    φ.along (lower ++ upper) = (φ.along lower).bind (along · upper) := List.foldlM_append

theorem within_trans (h : χ.within φ = true) (h' : φ.within ψ = true) : χ.within ψ = true := by
  cases χ <;> cases φ <;> cases ψ <;> simp_all [within]

theorem eq_body_of_within (h : χ.within .body = true) : χ = .body := by
  cases χ <;> simp_all [within]

/-- The ways in which nodes of a shape may follow. -/
theorem past_cases (h : φ.past ⟨kind, count⟩ = some ψ) :
    (kind.role.isDeclaration = false ∧ ψ = φ) ∨
    (kind.role = .package ∧ count.within .optional = true ∧ φ = .package ∧ ψ = .imports) ∨
    (kind.role = .importDecl ∧ φ.within .imports = true ∧ ψ = .imports) ∨
    (kind = ⟨.type, .finished⟩ ∧ φ.within .types = true ∧ ψ = .types) ∨
    (kind = ⟨.type, .opened⟩ ∧ count = .one ∧ φ ≠ .code ∧ ψ = .body) ∨
    (kind.role.mayBeOpen = true ∧ kind.stage = .finished ∧ φ = .body ∧ ψ = .body) ∨
    (kind = ⟨.method, .any⟩ ∧ count = .one ∧ φ = .body ∧ ψ = .code) := by
  obtain ⟨role, stage⟩ := kind
  unfold past at h
  split at h <;> simp_all [within, NodeRole.mayBeOpen]

/-- A node may follow in a phase or before it, and leaves that phase or an earlier one. -/
def Allows (φ ψ : Phase) (n : Node) : Prop :=
  ∀ χ : Phase, χ.within φ = true → ∃ χ', χ.after n = some χ' ∧ χ'.within ψ = true

theorem Allows.along_singleton (h : Allows φ ψ n) (hχ : χ.within φ = true) :
    ∃ χ', χ.along [n] = some χ' ∧ χ'.within ψ = true := by
  obtain ⟨χ', hafter, hχ'⟩ := h χ hχ
  exact ⟨χ', by simp [along, hafter], hχ'⟩

/-- Nodes that leave a phase where it is may follow each other. -/
theorem along_of_allows (h : ∀ n ∈ segment, Allows ψ ψ n) (hχ : χ.within ψ = true) :
    ∃ χ', χ.along segment = some χ' ∧ χ'.within ψ = true := by
  induction segment generalizing χ with
  | nil => exact ⟨χ, rfl, hχ⟩
  | cons n segment ih =>
      obtain ⟨hn, hsegment⟩ := List.forall_mem_cons.mp h
      obtain ⟨next, hafter, hnext⟩ := hn χ hχ
      obtain ⟨χ', halong, hχ'⟩ := ih hsegment hnext
      refine ⟨χ', ?_, hχ'⟩
      unfold along at halong ⊢
      rw [List.foldlM_cons, hafter]
      exact halong

theorem allows_of_role {role : NodeRole} (hrole : role.Has False n)
    (hother : role.isDeclaration = false) : Allows φ φ n := by
  intro χ hχ
  cases n with
  | package _ | importDecl _ | type _ | method _ | field _ | initializer _ =>
      cases role <;> contradiction
  | _ => exact ⟨χ, by cases χ <;> rfl, hχ⟩

theorem allows_package (hrole : NodeRole.package.Has False n) : Allows .package .imports n := by
  intro χ hχ
  cases n with
  | package p =>
      refine ⟨.imports, ?_, rfl⟩
      cases χ <;> first | rfl | cases hχ
  | _ => contradiction

theorem allows_import (hrole : NodeRole.importDecl.Has False n) : Allows .imports .imports n := by
  intro χ hχ
  cases n with
  | importDecl i =>
      refine ⟨.imports, ?_, rfl⟩
      cases χ <;> first | rfl | cases hχ
  | _ => contradiction

theorem allows_finishedType (h : NodeKind.Has ⟨.type, .finished⟩ n) : Allows .types .types n := by
  intro χ hχ
  obtain ⟨hrole, hstage⟩ := h
  cases n with
  | type t =>
      have hclosed : t.isOpen = false := hstage
      have hafter : (if t.isOpen then Phase.body else .types) = .types := by rw [hclosed]; rfl
      refine ⟨.types, ?_, rfl⟩
      cases χ <;> first | exact congrArg some hafter | cases hχ
  | _ => contradiction

theorem allows_openType (h : NodeKind.Has ⟨.type, .opened⟩ n) (hφ : φ ≠ .code) :
    Allows φ .body n := by
  intro χ hχ
  obtain ⟨hrole, hstage⟩ := h
  cases n with
  | type t =>
      have hopen : t.isOpen = true := hstage
      have hafter : (if t.isOpen then Phase.body else .types) = .body := by rw [hopen]; rfl
      refine ⟨.body, ?_, rfl⟩
      cases φ <;> cases χ <;>
        first | exact congrArg some hafter | rfl | cases hχ; done | exact absurd rfl hφ
  | _ => contradiction

theorem allows_member (h : kind.Has n) (hrole : kind.role.mayBeOpen = true)
    (hstage : kind.stage = .finished) : Allows .body .body n := by
  intro χ hχ
  obtain rfl := eq_body_of_within hχ
  obtain ⟨role, stage⟩ := kind
  obtain rfl : stage = .finished := hstage
  obtain ⟨hrole', hstage⟩ := h
  refine ⟨.body, ?_, rfl⟩
  cases n with
  | method m =>
      have hclosed : m.isOpen = false := hstage
      exact congrArg some (by rw [hclosed]; rfl)
  | type _ | field _ | initializer _ => rfl
  | _ => cases role <;> contradiction

theorem allows_method (hrole : NodeRole.method.Has False n) : Allows .body .code n := by
  intro χ hχ
  obtain rfl := eq_body_of_within hχ
  cases n with
  | method m =>
      refine ⟨_, rfl, ?_⟩
      cases m.isOpen <;> rfl
  | _ => contradiction

/-- Nodes of a shape may follow where the shape may. -/
theorem along_segment {shape : Shape NodeKind} (hpast : φ.past shape = some ψ)
    (h : shape.Fits NodeKind.Has segment) (hχ : χ.within φ = true) :
    ∃ χ', χ.along segment = some χ' ∧ χ'.within ψ = true := by
  obtain ⟨kind, count⟩ := shape
  obtain ⟨hcount, hhas⟩ := h
  have hone : count = .one → ∃ n, segment = [n] ∧ kind.Has n := by
    rintro rfl
    obtain ⟨n, rfl⟩ := List.length_eq_one_iff.mp hcount
    exact ⟨n, rfl, hhas n List.mem_cons_self⟩
  rcases past_cases hpast with ⟨hother, rfl⟩ | ⟨hrole, hoptional, rfl, rfl⟩ | ⟨hrole, hφ, rfl⟩ |
    ⟨rfl, hφ, rfl⟩ | ⟨rfl, rfl, hφ, rfl⟩ | ⟨hopen, hstage, rfl, rfl⟩ | ⟨rfl, rfl, rfl, rfl⟩
  · exact along_of_allows (fun n hn => allows_of_role (hhas n hn).role hother) hχ
  · match segment, hcount.within hoptional, hhas with
    | [], _, _ => exact ⟨χ, rfl, within_trans hχ rfl⟩
    | [n], _, hhas =>
        have hn := (hhas n List.mem_cons_self).role
        rw [hrole] at hn
        exact (allows_package hn).along_singleton hχ
    | _ :: _ :: _, htwo, _ => simp [Count.Allows] at htwo
  · refine along_of_allows (fun n hn => ?_) (within_trans hχ hφ)
    have hn := (hhas n hn).role
    rw [hrole] at hn
    exact allows_import hn
  · exact along_of_allows (fun n hn => allows_finishedType (hhas n hn)) (within_trans hχ hφ)
  · obtain ⟨n, rfl, hn⟩ := hone rfl
    exact (allows_openType hn hφ).along_singleton hχ
  · exact along_of_allows (fun n hn => allows_member (hhas n hn) hopen hstage) hχ
  · obtain ⟨n, rfl, hn⟩ := hone rfl
    exact (allows_method hn.role).along_singleton hχ

end Phase

/-- **Nodes of kinds that are in order are in order.** -/
theorem SegmentStack.Fits.exists_along {nodes : SegmentStack Node} {ks : List (Shape NodeKind)}
    {φ : Phase} (h : nodes.Fits NodeKind.Has ks) (hks : Phase.package.through ks = some φ) :
    ∃ ψ, Phase.package.along nodes.toList = some ψ ∧ ψ.within φ = true := by
  induction h generalizing φ with
  | empty =>
      cases hks
      exact ⟨.package, rfl, rfl⟩
  | @segment ks shape items segment lengths _ hsegment ih =>
      obtain ⟨below, hbelow, hpast⟩ := Option.bind_eq_some_iff.mp hks
      obtain ⟨χ, hχ, hwithin⟩ := ih hbelow
      obtain ⟨ψ, hψ, hφ⟩ := Phase.along_segment hpast hsegment hwithin
      refine ⟨ψ, ?_, hφ⟩
      have hlist : toList ⟨segment.reverse ++ items, segment.length :: lengths⟩ =
          toList ⟨items, lengths⟩ ++ segment := by
        simp [toList]
      rw [hlist, Phase.along_append, hχ]
      exact hψ

end AspectLang
