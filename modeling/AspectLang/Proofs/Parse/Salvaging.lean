import AspectLang.Proofs.Parse.Stages

/-! # What is kept of abandoned units

`CompilationUnit.placed` is a walk through a unit that meets each declaration before its members,
with the types that it stands in.  For nodes on a stack `placedAbove` says where their declarations
belong: each into the types below it that are still open, with the statements above it if it is an
open method.

While nodes are in order, `Salvage.add` puts what a node declares behind all that it has gathered
(`Salvage.takes_add`), and from the beginning of a method on it gathers the statements of that
(`Salvage.placed_close_code`).  Since the nodes that a machine leaves are in order
(`Machine.Staged.exists_along`), the tree of an abandoned unit has the declarations of these nodes,
no more and no fewer, in their order and where they belong (`declarations_salvaged`). -/

namespace AspectLang

/-! ### Declarations and their owners -/

/-- The type without its members. -/
def TypeDecl.bare (t : TypeDecl) : TypeDecl := { t with members := [] }

/-- A declaration with the types that it stands in, the innermost first.  A type comes without its
members, which are declarations of their own. -/
structure Placed where
  owners : List TypeDecl
  node : Node

mutual

/-- A type and its members, in order. -/
def TypeDecl.placed (owners : List TypeDecl) : TypeDecl → List Placed
  | ⟨kind, name, modifiers, annotations, typeParameters, superclass, interfaces, members, extent,
      bodyStart, bodyEnd, extension⟩ =>
    let bare : TypeDecl := ⟨kind, name, modifiers, annotations, typeParameters, superclass,
      interfaces, [], extent, bodyStart, bodyEnd, extension⟩
    ⟨owners, .type bare⟩ :: placedMembers (bare :: owners) members

/-- Members, in order. -/
def placedMembers (owners : List TypeDecl) : List Member → List Placed
  | [] => []
  | m :: rest => m.placed owners ++ placedMembers owners rest

/-- A member, and what it contains. -/
def Member.placed (owners : List TypeDecl) : Member → List Placed
  | .field f => [⟨owners, .field f⟩]
  | .method m => [⟨owners, .method m⟩]
  | .type t => t.placed owners
  | .initializer i => [⟨owners, .initializer i⟩]

end

/-- The declarations of a unit, each before its members, with their owners. -/
def CompilationUnit.placed (u : CompilationUnit) : List Placed :=
  u.package.toList.map (⟨[], .package ·⟩) ++ u.imports.map (⟨[], .importDecl ·⟩) ++
    u.types.flatMap (TypeDecl.placed [])

/-! ### Where nodes belong -/

/-- The method with more statements at its end. -/
def MethodDecl.continued (m : MethodDecl) (statements : List Statement) : MethodDecl :=
  if statements.isEmpty then m
  else { m with statements := some (m.statements.getD [] ++ statements) }

namespace Node

/-- Whether a node is a declaration. -/
def isDeclaration : Node → Bool
  | .package _ | .importDecl _ => true
  | n => n.member?.isSome

/-- The type that a node opens. -/
def openType? : Node → Option TypeDecl
  | .type t => if t.isOpen then some t.bare else none
  | _ => none

/-- The node with what belongs to it of the nodes above: statements go on with an open method. -/
def completed (above : List Node) : Node → Node
  | .method m => .method (if m.isOpen then m.continued (above.filterMap Work.asStatement?) else m)
  | n => n

/-- What a node declares. -/
def placed (owners : List TypeDecl) : Node → List Placed
  | .package p => [⟨owners, .package p⟩]
  | .importDecl i => [⟨owners, .importDecl i⟩]
  | n => n.member?.elim [] (Member.placed owners)

end Node

/-- The types that nodes, the lowest first, leave open, the innermost first. -/
def openTypesOf (nodes : List Node) : List TypeDecl := (nodes.filterMap Node.openType?).reverse

/-- What the nodes above some others declare, each in the open types below it. -/
def placedAbove (below : List Node) : List Node → List Placed
  | [] => []
  | n :: above => (n.completed above).placed (openTypesOf below) ++ placedAbove (below ++ [n]) above

theorem openTypesOf_concat (below : List Node) (n : Node) :
    openTypesOf (below ++ [n]) = n.openType?.toList ++ openTypesOf below := by
  unfold openTypesOf
  cases h : n.openType? <;> simp [h]

theorem MethodDecl.continued_continued (m : MethodDecl) (first second : List Statement) :
    (m.continued first).continued second = m.continued (first ++ second) := by
  unfold continued
  cases first <;> cases second <;> simp

/-! ### Adding members -/

section

variable {owners : List TypeDecl} {t : TypeDecl} {m : Member} {ms ms' : List Member}

theorem placedMembers_append :
    placedMembers owners (ms ++ ms') = placedMembers owners ms ++ placedMembers owners ms' := by
  induction ms with
  | nil => rfl
  | cons m ms ih =>
      rw [List.cons_append, placedMembers, placedMembers, ih, List.append_assoc]

theorem TypeDecl.placed_eq :
    t.placed owners = ⟨owners, .type t.bare⟩ :: placedMembers (t.bare :: owners) t.members := by
  cases t
  rw [placed]
  rfl

namespace Salvage

theorem bare_addMember : (addMember m t).bare = t.bare := rfl

theorem placed_addMember :
    (addMember m t).placed owners = t.placed owners ++ m.placed (t.bare :: owners) := by
  rw [TypeDecl.placed_eq, TypeDecl.placed_eq, bare_addMember]
  unfold addMember
  rw [placedMembers_append, placedMembers, placedMembers, List.append_nil, List.cons_append]

/-! ### Ending types -/

/-- The declarations in types that stand in each other, the innermost first. -/
def placedOpen : List TypeDecl → List Placed
  | [] => []
  | t :: outer => placedOpen outer ++ t.placed (outer.map TypeDecl.bare)

theorem placed_closeTypes (unit : CompilationUnit) (types : List TypeDecl) :
    (closeTypes unit types).placed = unit.placed ++ placedOpen types := by
  fun_induction closeTypes unit types with
  | case1 => exact (List.append_nil _).symm
  | case2 t => simp [CompilationUnit.placed, placedOpen]
  | case3 inner outer rest ih =>
      rw [ih, placedOpen, placed_addMember, Member.placed]
      simp [placedOpen]

end Salvage

end

/-! ### Taking up nodes -/

theorem Phase.after_method {φ ψ : Phase} {m : MethodDecl} (h : φ.after (.method m) = some ψ) :
    φ = .body ∧ (m.isOpen = true ∧ ψ = .code ∨ m.isOpen = false ∧ ψ = .body) := by
  cases φ <;> cases h
  cases m.isOpen <;> simp

theorem Phase.after_code {ψ : Phase} {n : Node} (h : Phase.code.after n = some ψ) :
    ψ = .code ∧ n.isDeclaration = false := by
  cases n <;> cases h <;> exact ⟨rfl, rfl⟩

namespace Salvage

variable {s : Salvage} {n : Node} {φ ψ : Phase} {m : MethodDecl}

/-- The declarations that were gathered, but for an open method. -/
def placed (s : Salvage) : List Placed := s.unit.placed ++ placedOpen s.openTypes

/-- The types that are open. -/
def owners (s : Salvage) : List TypeDecl := s.openTypes.map TypeDecl.bare

/-- What was gathered before the end of a phase. -/
def IsAt (s : Salvage) : Phase → Prop
  | .package => s.unit.package = none ∧ s.unit.imports = [] ∧ s.unit.types = [] ∧
      s.openTypes = [] ∧ s.openMethod = none
  | .imports => s.unit.types = [] ∧ s.openTypes = [] ∧ s.openMethod = none
  | .types => s.openTypes = [] ∧ s.openMethod = none
  | .body => s.openTypes ≠ [] ∧ s.openMethod = none
  | .code => s.openTypes ≠ [] ∧ s.openMethod.isSome = true

/-- One more node was taken up, and a phase was reached. -/
structure Takes (s : Salvage) (n : Node) (ψ : Phase) (s' : Salvage) : Prop where
  isAt : s'.IsAt ψ
  placed : s'.placed = s.placed ++ n.placed s.owners
  owners : s'.owners = n.openType?.toList ++ s.owners

/-- A member goes into the innermost open type. -/
theorem takes_place (h : s.IsAt .body) {member : Member} (hn : n.member? = some member)
    (hopen : n.openType? = none) : s.Takes n .body (s.place member) := by
  obtain ⟨unit, types, method⟩ := s
  obtain ⟨hinside, hmethod⟩ := h
  obtain ⟨t, outer, rfl⟩ := List.exists_cons_of_ne_nil hinside
  have hplaced : ∀ owners, n.placed owners = member.placed owners := by
    intro owners
    cases n <;> cases hn <;> rfl
  refine ⟨⟨List.cons_ne_nil _ _, hmethod⟩, ?_, ?_⟩
  · simp [place, Salvage.placed, placedOpen, placed_addMember, Salvage.owners, hplaced]
  · rw [hopen]
    rfl

theorem takes_package (p : PackageDecl) (h : s.IsAt .package) :
    s.Takes (.package p) .imports (s.add (.package p)) := by
  obtain ⟨unit, types, method⟩ := s
  obtain ⟨hpackage, himports, htypes, rfl, rfl⟩ := h
  refine ⟨⟨htypes, rfl, rfl⟩, ?_, rfl⟩
  simp_all [add, Salvage.placed, placedOpen, CompilationUnit.placed, Node.placed, Salvage.owners]

theorem takes_import (i : ImportDecl) (h : s.IsAt .imports) :
    s.Takes (.importDecl i) .imports (s.add (.importDecl i)) := by
  obtain ⟨unit, types, method⟩ := s
  obtain ⟨htypes, rfl, rfl⟩ := h
  refine ⟨⟨htypes, rfl, rfl⟩, ?_, rfl⟩
  simp_all [add, Salvage.placed, placedOpen, CompilationUnit.placed, Node.placed, Salvage.owners]

/-- A closed type outside all others goes into the unit. -/
theorem takes_closedType {t : TypeDecl} (hclosed : t.isOpen = false) (h : s.IsAt .types) :
    s.Takes (.type t) .types (s.add (.type t)) := by
  obtain ⟨unit, types, method⟩ := s
  obtain ⟨rfl, rfl⟩ := h
  have hadd : add ⟨unit, [], none⟩ (.type t) =
      ⟨{ unit with types := unit.types ++ [t] }, [], none⟩ := by
    simp [add, hclosed, place]
  rw [hadd]
  refine ⟨⟨rfl, rfl⟩, ?_, ?_⟩
  · simp [Salvage.placed, placedOpen, CompilationUnit.placed, Node.placed, Node.member?,
      Member.placed, Salvage.owners]
  · simp [Node.openType?, hclosed, Salvage.owners]

/-- An open type stands in those that are open already. -/
theorem takes_openType {t : TypeDecl} (hopen : t.isOpen = true) (h : s.openMethod = none) :
    s.Takes (.type t) .body (s.add (.type t)) := by
  obtain ⟨unit, types, method⟩ := s
  obtain rfl : method = none := h
  have hadd : add ⟨unit, types, none⟩ (.type t) = ⟨unit, t :: types, none⟩ := by
    simp [add, hopen, closeMethod]
  rw [hadd]
  refine ⟨⟨List.cons_ne_nil _ _, rfl⟩, ?_, ?_⟩
  · simp [Salvage.placed, placedOpen, Node.placed, Node.member?, Member.placed, Salvage.owners]
  · simp [Node.openType?, hopen, Salvage.owners]

/-- What declares nothing is dropped, outside methods. -/
theorem takes_other (h : s.IsAt φ) (hmethod : s.openMethod = none) (hn : n.isDeclaration = false) :
    s.Takes n φ (s.add n) := by
  have hadd : s.add n = s := by
    obtain ⟨unit, types, method⟩ := s
    obtain rfl : method = none := hmethod
    cases n <;> first | rfl | cases hn
  rw [hadd]
  refine ⟨h, ?_, ?_⟩
  · cases n <;> first | exact (List.append_nil _).symm | cases hn
  · cases n <;> first | rfl | cases hn

theorem isAt_types (h : s.IsAt φ) (hφ : φ.within .types = true) : s.IsAt .types := by
  cases φ with
  | package => exact ⟨h.2.2.2.1, h.2.2.2.2⟩
  | imports => exact ⟨h.2.1, h.2.2⟩
  | types => exact h
  | body | code => cases hφ

theorem openMethod_eq_none (h : s.IsAt φ) (hφ : φ ≠ .code) : s.openMethod = none := by
  cases φ with
  | package => exact h.2.2.2.2
  | imports => exact h.2.2
  | types | body => exact h.2
  | code => contradiction

/-- What is taken up outside methods is put behind what was gathered before. -/
theorem takes_add (h : s.IsAt φ) (hφ : φ ≠ .code) (hafter : φ.after n = some ψ) (hψ : ψ ≠ .code) :
    s.Takes n ψ (s.add n) := by
  have hmethod := openMethod_eq_none h hφ
  cases n with
  | package p =>
      cases φ <;> cases hafter
      exact takes_package p h
  | importDecl i =>
      cases φ <;> cases hafter
      · exact takes_import i ⟨h.2.2.1, h.2.2.2.1, h.2.2.2.2⟩
      · exact takes_import i h
  | type t =>
      cases hopen : t.isOpen with
      | true =>
          obtain rfl : ψ = .body := by
            cases φ <;> simp_all [Phase.after]
          exact takes_openType hopen hmethod
      | false =>
          have hadd : s.add (.type t) = s.place (.type t) := by
            simp [add, hopen]
          by_cases hbody : φ = .body
          · subst hbody
            cases hafter
            rw [hadd]
            exact takes_place h rfl (by simp [Node.openType?, hopen])
          · obtain ⟨hφ, rfl⟩ : φ.within .types = true ∧ ψ = .types := by
              cases φ <;> simp_all [Phase.after, Phase.within]
            exact takes_closedType hopen (isAt_types h hφ)
  | method m =>
      obtain ⟨rfl, ⟨_, hcode⟩ | ⟨hclosed, rfl⟩⟩ := Phase.after_method hafter
      · exact absurd hcode hψ
      · have hadd : s.add (.method m) = s.place (.method m) := by
          simp [add, hclosed]
        rw [hadd]
        exact takes_place h rfl rfl
  | field f =>
      cases φ <;> cases hafter
      exact takes_place h rfl rfl
  | initializer i =>
      cases φ <;> cases hafter
      exact takes_place h rfl rfl
  | _ =>
      obtain rfl : φ = ψ := by
        cases φ <;> exact Option.some.inj hafter
      exact takes_other h hmethod rfl

/-! ### Methods that are open -/

/-- A method begins in the innermost open type. -/
theorem add_openMethod (h : s.IsAt φ) (hafter : φ.after (.method m) = some .code) :
    m.isOpen = true ∧ s.openTypes ≠ [] ∧ s.add (.method m) = { s with openMethod := some m } := by
  obtain ⟨rfl, ⟨hopen, _⟩ | ⟨_, hbody⟩⟩ := Phase.after_method hafter
  · obtain ⟨hinside, hmethod⟩ := h
    refine ⟨hopen, hinside, ?_⟩
    simp [add, hopen, closeMethod, hmethod]
  · cases hbody

/-- Then only statements are taken up. -/
theorem add_code (s : Salvage) (m : MethodDecl) (hn : n.isDeclaration = false) :
    add { s with openMethod := some m } n =
      { s with openMethod := some (m.continued (Work.asStatement? n).toList) } := by
  cases n <;> first | rfl | cases hn

theorem placed_close (h : s.openMethod = none) : s.close.placed = s.placed := by
  unfold close closeMethod
  rw [h]
  exact placed_closeTypes ..

/-- The open method becomes a member of the innermost open type. -/
theorem placed_close_method (h : s.openTypes ≠ []) (m : MethodDecl) :
    (close { s with openMethod := some m }).placed = s.placed ++ [⟨s.owners, .method m⟩] := by
  obtain ⟨unit, types, method⟩ := s
  obtain ⟨t, outer, rfl⟩ := List.exists_cons_of_ne_nil h
  change (closeTypes unit (addMember (.method m) t :: outer)).placed = _
  rw [placed_closeTypes, placedOpen, placed_addMember, Member.placed]
  simp [Salvage.placed, placedOpen, owners]

/-- The open method gets the statements that follow. -/
theorem placed_close_code {nodes : List Node} (h : s.openTypes ≠ [])
    (halong : Phase.code.along nodes = some ψ) :
    (close (nodes.foldl add { s with openMethod := some m })).placed =
      s.placed ++ [⟨s.owners, .method (m.continued (nodes.filterMap Work.asStatement?))⟩] := by
  induction nodes generalizing m with
  | nil => exact placed_close_method h m
  | cons n nodes ih =>
      obtain ⟨χ, hafter, hrest⟩ := Option.bind_eq_some_iff.mp halong
      obtain ⟨rfl, hn⟩ := Phase.after_code hafter
      rw [List.foldl_cons, add_code s m hn, ih hrest, MethodDecl.continued_continued,
        List.filterMap_cons]
      cases Work.asStatement? n <;> rfl

/-- Nothing is declared after the beginning of a method. -/
theorem placedAbove_code {below nodes : List Node} (halong : Phase.code.along nodes = some ψ) :
    placedAbove below nodes = [] := by
  induction nodes generalizing below with
  | nil => rfl
  | cons n nodes ih =>
      obtain ⟨χ, hafter, hrest⟩ := Option.bind_eq_some_iff.mp halong
      obtain ⟨rfl, hn⟩ := Phase.after_code hafter
      rw [placedAbove, ih hrest, List.append_nil]
      cases n <;> first | rfl | cases hn

/-! ### All nodes -/

/-- Outside methods nothing belongs to a node but itself. -/
theorem completed_eq (hafter : φ.after n = some ψ) (hψ : ψ ≠ .code) (above : List Node) :
    n.completed above = n := by
  cases n with
  | method m =>
      obtain ⟨_, ⟨_, hcode⟩ | ⟨hclosed, _⟩⟩ := Phase.after_method hafter
      · exact absurd hcode hψ
      · simp [Node.completed, hclosed]
  | _ => rfl

theorem exists_method_of_after (hφ : φ ≠ .code) (hafter : φ.after n = some .code) :
    ∃ m, n = .method m := by
  cases n with
  | method m => exact ⟨m, rfl⟩
  | type t => cases φ <;> simp [Phase.after] at hafter <;> split at hafter <;> cases hafter
  | _ => cases φ <;> first | contradiction | cases hafter

/-- **Nodes in order are all kept, in order and where they belong.** -/
theorem placed_foldl {below nodes : List Node} (h : s.IsAt φ) (hφ : φ ≠ .code)
    (howners : s.owners = openTypesOf below) (halong : φ.along nodes = some ψ) :
    (nodes.foldl add s).close.placed = s.placed ++ placedAbove below nodes := by
  induction nodes generalizing s φ below with
  | nil => rw [List.foldl_nil, placed_close (openMethod_eq_none h hφ), placedAbove, List.append_nil]
  | cons n nodes ih =>
      obtain ⟨χ, hafter, hrest⟩ := Option.bind_eq_some_iff.mp halong
      rw [List.foldl_cons, placedAbove, ← howners]
      by_cases hχ : χ = .code
      · subst hχ
        obtain ⟨m, rfl⟩ := exists_method_of_after hφ hafter
        obtain ⟨hopen, hinside, hadd⟩ := add_openMethod h hafter
        rw [hadd, placed_close_code hinside hrest, placedAbove_code hrest, List.append_nil,
          Node.completed, if_pos hopen]
        rfl
      · obtain ⟨hnext, hplaced, hopen⟩ := takes_add h hφ hafter hχ
        rw [howners, ← openTypesOf_concat] at hopen
        rw [ih hnext hχ hopen hrest, hplaced, completed_eq hafter hχ, List.append_assoc]

/-- The declarations of nodes in order are those of the unit that they leave. -/
theorem placed_ofNodes (span : Span) {nodes : List Node}
    (h : Phase.package.along nodes = some φ) :
    (ofNodes span nodes).placed = placedAbove [] nodes := by
  have hstart : IsAt { unit := ⟨none, [], [], span⟩ } .package := ⟨rfl, rfl, rfl, rfl, rfl⟩
  exact placed_foldl hstart (by decide) rfl h

end Salvage

/-! ### Units -/

namespace Parser

/-- The nodes, the lowest first, that a stream leaves on the stack when it is given up and the
reductions are done that only waited for a token. -/
def abandonedNodes? (p : Parser) (stream : TokenStream) : Option (List Node) :=
  match Machine.run p.setup stepLimit stepLimit (p.start stream) with
  | .ok .abandoned m =>
    match Machine.settle p.setup.dialect stream.endOffset stepLimit m with
    | .ok _ m => some m.work.values.nodes.toList
    | .error .. => none
  | _ => none

variable {p : Parser} {stream : TokenStream} {m m' : Machine}

/-- The nodes of an abandoned unit are in order. -/
theorem exists_along_of_settle
    (hrun : Machine.run p.setup stepLimit stepLimit (p.start stream) = .ok .abandoned m)
    (hsettle : Machine.settle p.setup.dialect stream.endOffset stepLimit m = .ok () m') :
    ∃ φ, Phase.package.along m'.work.values.nodes.toList = some φ := by
  have hstaged := Machine.staged_run (p.staged_start stream) (p.leads_start_nothing stream) hrun
  exact (Machine.staged_settle hstaged (leads_of_run hrun) hsettle).exists_along

theorem isAbandoned_of_finishAccepted {length : Nat} {o : ParseOutcome}
    (h : finishAccepted length m = .ok o m') : o.isAbandoned = false := by
  unfold finishAccepted at h
  split at h
  · cases h
  · dsimp only at h
    split at h <;> cases h
    rfl

end Parser

/-- **The tree of an abandoned unit keeps every declaration on the stack of nodes.**  A walk through
the tree meets exactly the declarations of these nodes, in the order of the stack, each in the types
below it that are still open; and the statements above an open method are its last ones. -/
theorem declarations_salvaged (p : Parser) (stream : TokenStream) :
    match (p.parseStream stream).1, p.abandonedNodes? stream with
    | .ok o, some nodes => o.isAbandoned = true ∧ o.unit.placed = placedAbove [] nodes
    | .ok o, none => o.isAbandoned = false
    | .error _, nodes? => nodes? = none := by
  unfold Parser.abandonedNodes?
  cases hrun : Machine.run p.setup Parser.stepLimit Parser.stepLimit (p.start stream) with
  | error e m => rw [Parser.parseStream_of_error hrun]
  | ok progress m =>
      cases progress with
      | running => exact absurd rfl (Machine.run_ne_running hrun)
      | accepted =>
          cases hfinish : Parser.finishAccepted stream.endOffset m with
          | error e m' => rw [Parser.parseStream_of_finish_error hrun hfinish]
          | ok o m' =>
              rw [Parser.parseStream_of_finish_ok hrun hfinish]
              exact Parser.isAbandoned_of_finishAccepted hfinish
      | abandoned =>
          cases hsettle : Machine.settle p.setup.dialect stream.endOffset Parser.stepLimit m with
          | error e m' =>
              have hfinish : Parser.finishAbandoned p.setup.dialect stream.endOffset m =
                  .error e m' := by
                rw [Parser.finishAbandoned, hsettle]
              rw [Parser.parseStream_of_finish_error hrun hfinish]
              dsimp only
              rw [hsettle]
          | ok u m' =>
              have hfinish : Parser.finishAbandoned p.setup.dialect stream.endOffset m =
                  .ok (Parser.outcome (Salvage.ofNodes (Parser.spanOfLength stream.endOffset)
                    m'.work.values.nodes.toList) true m') { m' with states := [], spans := [] } := by
                rw [Parser.finishAbandoned, hsettle]
              rw [Parser.parseStream_of_finish_ok hrun hfinish]
              dsimp only
              rw [hsettle]
              obtain ⟨φ, hφ⟩ := Parser.exists_along_of_settle hrun hsettle
              exact ⟨rfl, Salvage.placed_ofNodes _ hφ⟩

end AspectLang
