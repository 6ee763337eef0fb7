import AspectLang.Proofs.Parse.HeadDeclarations
import AspectLang.Proofs.Parse.OpenMethods
import AspectLang.Proofs.Parse.Salvaging
import AspectLang.Proofs.Parse.ClosingTokens

/-! # Completed declarations are kept

A declaration on the stack of nodes is completed when it is no type or method whose end was not
read.  A reduction may put a completed declaration into the type that it is a member of, but what
it declares is still found on the stack after that (`Machine.retains_reduce`): its kind is not that
of a declaration in progress, and the rules that have it on their right sides keep it, up to the
rule for the whole unit (`Language.rules_keepCompleted`).  That rule is used before the end of
input only, and then the unit is accepted.  So whatever was completed in a run is on the stack when
the unit is abandoned (`Machine.retains_run`).

Types and members that wait for a token are completed in the same way (`settle_of_reducesTo`).  For
packages and imports that is not so: they are not followed by a closing brace, and one of them that
still waits is lost (`Parser.waiting_head_lost`). -/

namespace AspectLang

/-! ### What nodes declare -/

mutual

/-- The declarations in a type do not depend on where it stands. -/
theorem TypeDecl.nodes_placed (owners owners' : List TypeDecl) : ∀ t : TypeDecl,
    (t.placed owners).map Placed.node = (t.placed owners').map Placed.node
  | ⟨_, _, _, _, _, _, _, members, _, _, _, _⟩ => by
    unfold TypeDecl.placed
    exact congrArg (_ :: ·) (nodes_placedMembers _ _ members)

theorem nodes_placedMembers (owners owners' : List TypeDecl) : ∀ members : List Member,
    (placedMembers owners members).map Placed.node = (placedMembers owners' members).map Placed.node
  | [] => rfl
  | m :: rest => by
    rw [placedMembers, placedMembers, List.map_append, List.map_append,
      Member.nodes_placed owners owners' m, nodes_placedMembers owners owners' rest]

theorem Member.nodes_placed (owners owners' : List TypeDecl) : ∀ m : Member,
    (m.placed owners).map Placed.node = (m.placed owners').map Placed.node
  | .field _ | .method _ | .initializer _ => rfl
  | .type t => by
    rw [Member.placed, Member.placed]
    exact TypeDecl.nodes_placed owners owners' t

end

theorem placed_subset_placedMembers {owners : List TypeDecl} {m : Member} {members : List Member}
    (hm : m ∈ members) : m.placed owners ⊆ placedMembers owners members := by
  obtain ⟨before, after, rfl⟩ := List.append_of_mem hm
  rw [placedMembers_append, placedMembers]
  exact fun x hx => List.mem_append_right _ (List.mem_append_left _ hx)

namespace Node

/-- What a node declares: itself, and all that stands in it. -/
def declares (n : Node) : List Node := (n.placed []).map Placed.node

/-- Whether a node is a declaration whose end was read. -/
def isCompleted (n : Node) : Bool := n.isDeclaration && !n.isOpen

theorem nodes_placed (owners : List TypeDecl) (n : Node) :
    (n.placed owners).map Placed.node = n.declares := by
  cases n with
  | type t => exact t.nodes_placed owners []
  | _ => rfl

/-- A type declares what its members do. -/
theorem declares_subset_type {n : Node} {m : Member} {t : TypeDecl} (hn : n.member? = some m)
    (hm : m ∈ t.members) : n.declares ⊆ (Node.type t).declares := by
  have hmember : n.declares = (m.placed [t.bare]).map Placed.node := by
    rw [← n.nodes_placed [t.bare]]
    cases n <;> cases hn <;> rfl
  have htype : (Node.type t).declares =
      .type t.bare :: (placedMembers [t.bare] t.members).map Placed.node := by
    change (t.placed []).map Placed.node = _
    rw [TypeDecl.placed_eq]
    rfl
  rw [hmember, htype]
  exact List.subset_cons_of_subset _ (List.map_subset _ (placed_subset_placedMembers hm))

/-- A node is completed and declares all that another one does. -/
structure Includes (n' n : Node) : Prop where
  isCompleted : n'.isCompleted = true
  declares : n.declares ⊆ n'.declares

theorem Includes.trans {n n' n'' : Node} (h : n''.Includes n') (h' : n'.Includes n) :
    n''.Includes n := ⟨h.isCompleted, fun _ hx => h.declares (h'.declares hx)⟩

end Node

/-- What a unit declares. -/
def CompilationUnit.declares (u : CompilationUnit) : List Node := u.placed.map Placed.node

/-! ### Kinds of declarations in progress -/

/-- Whether nodes of a kind are no declarations, or some whose end was not read. -/
def NodeKind.isIncomplete (k : NodeKind) : Bool :=
  !k.role.isDeclaration || k = ⟨.type, .opened⟩ || k = ⟨.method, .any⟩

theorem NodeRole.isDeclaration_of_has {plain : Prop} {k : NodeRole} {n : Node} (h : k.Has plain n)
    (hn : n.isDeclaration = true) : k.isDeclaration = true := by
  cases n with
  | package _ | importDecl _ | type _ | method _ | field _ | initializer _ =>
      cases k <;> first | rfl | contradiction
  | _ => cases hn

/-- A declaration in progress is not completed. -/
theorem NodeKind.Shows.not_isCompleted {k : NodeKind} {n : Node} (h : k.Shows n)
    (hk : k.isIncomplete = true) : n.isCompleted = false := by
  by_contra hcompleted
  obtain ⟨hn, hclosed⟩ := Bool.and_eq_true_iff.mp ((Bool.not_eq_false _).mp hcompleted)
  unfold isIncomplete at hk
  rw [NodeRole.isDeclaration_of_has h.has.role hn] at hk
  rcases Bool.or_eq_true_iff.mp hk with htype | hmethod
  · obtain rfl : k = ⟨.type, .opened⟩ := by simpa using htype
    have hrole := h.has.role
    obtain ⟨t, rfl⟩ : ∃ t, n = .type t := by
      cases n <;> first | exact ⟨_, rfl⟩ | contradiction
    have hopen : t.isOpen = true := h.has.stage
    simp [Node.isOpen, hopen] at hclosed
  · obtain rfl : k = ⟨.method, .any⟩ := by simpa using hmethod
    have hrole := h.has.role
    obtain ⟨m, rfl⟩ : ∃ m, n = .method m := by
      cases n <;> first | exact ⟨_, rfl⟩ | contradiction
    have hopen : m.isOpen = true := h.unended rfl
    simp [Node.isOpen, hopen] at hclosed

/-! ### Rules -/

/-- Whether a rule keeps the completed declarations of its right side: it has none, or its nodes
stay as they are, or it is that of a body, which puts them into the type. -/
def Rule.keepsCompleted (r : Rule) : Bool :=
  r.action = .none || r.action = .concatNodes ||
    (r.action = .classBody && r.kindsUpTo r.rhs.length =
      [⟨⟨.member, .finished⟩, .many⟩, ⟨⟨.type, .opened⟩, .one⟩]) ||
    (r.kindsUpTo r.rhs.length).all fun s => s.role.isIncomplete

theorem Language.rules_keepCompleted :
    ∀ r ∈ rules, r.lhs = .compilationUnit ∨ r.keepsCompleted = true := by
  decide +kernel

theorem SegmentStack.items_of_concat {α : Type} {s s' : SegmentStack α}
    (h : concat s = .ok () s') : s'.items = s.items := by
  unfold concat at h
  split at h <;> cases h
  rfl

namespace Work

variable {w w' : Workspace}

/-- Each item of a list that another one was read from was read itself. -/
theorem exists_of_mapM {β γ : Type} {as? : β → Option γ} {xs : List β} {ys : List γ} {x : β}
    (h : xs.mapM as? = some ys) (hx : x ∈ xs) : ∃ y ∈ ys, as? x = some y := by
  induction xs generalizing ys with
  | nil => cases hx
  | cons first xs ih =>
      rw [List.mapM_cons] at h
      obtain ⟨y, hy, h⟩ := Option.bind_eq_some_iff.mp h
      obtain ⟨rest, hrest, h⟩ := Option.bind_eq_some_iff.mp h
      cases h
      rcases List.mem_cons.mp hx with rfl | hx
      · exact ⟨y, List.mem_cons_self, hy⟩
      · obtain ⟨z, hz, hread⟩ := ih hrest hx
        exact ⟨z, List.mem_cons_of_mem y hz, hread⟩

/-- The body of a type takes up the completed members. -/
theorem classBody_includes {c : Handle}
    (hfits : w.values.nodes.Fits NodeKind.Shows
      [⟨⟨.member, .finished⟩, .many⟩, ⟨⟨.type, .opened⟩, .one⟩])
    (h : classBody c w = .ok () w') {n : Node} (hn : n ∈ w.values.nodes.items)
    (hcompleted : n.isCompleted = true) : ∃ n' ∈ w'.values.nodes.items, n'.Includes n := by
  obtain ⟨segment, popped, hpop, hread⟩ := exists_of_bind h
  obtain ⟨members, middle, hexpect, hupdate⟩ := exists_of_bind hread
  obtain ⟨rfl, hmap⟩ := expectNode_ok hexpect
  obtain ⟨t, same, htop, hreplace⟩ := exists_of_bind hupdate
  obtain ⟨rfl, _⟩ := typeOnTop_ok htop
  have hpopped := onNodes_ok hpop
  obtain ⟨_, hrest⟩ := hfits.of_popSegment hpopped
  refine ⟨_, replaceTop_ok hreplace ▸ List.mem_cons_self, rfl, ?_⟩
  rw [SegmentStack.items_of_popSegment hpopped] at hn
  rcases List.mem_append.mp hn with hn | hn
  · obtain ⟨m, hm, hmember⟩ := exists_of_mapM hmap (List.mem_reverse.mp hn)
    exact Node.declares_subset_type hmember hm
  · obtain ⟨shape, hshape, hshows⟩ := hrest.exists_shape hn
    obtain rfl := List.mem_singleton.mp hshape
    rw [hshows.not_isCompleted rfl] at hcompleted
    cases hcompleted

end Work

/-- The action of a rule keeps what was completed, unless it is that of the whole unit. -/
theorem Rule.act_includes {r : Rule} {dialect : Dialect} {c : Handle} {w w' : Workspace}
    (hr : r ∈ Language.rules) (hunit : r.lhs ≠ .compilationUnit)
    (hfits : w.values.nodes.Fits NodeKind.Shows (r.kindsUpTo r.rhs.length))
    (hact : Work.act dialect c r.action w = .ok () w') {n : Node}
    (hn : n ∈ w.values.nodes.items) (hcompleted : n.isCompleted = true) :
    ∃ n' ∈ w'.values.nodes.items, n'.Includes n := by
  have hkeeps := (Language.rules_keepCompleted r hr).resolve_left hunit
  unfold Rule.keepsCompleted at hkeeps
  simp only [Bool.or_eq_true, Bool.and_eq_true, decide_eq_true_eq] at hkeeps
  rcases hkeeps with ((hnone | hconcat) | ⟨hbody, hkinds⟩) | hincomplete
  · rw [hnone] at hact
    cases hact
    exact ⟨n, hn, hcompleted, List.Subset.refl _⟩
  · rw [hconcat] at hact
    refine ⟨n, ?_, hcompleted, List.Subset.refl _⟩
    rwa [SegmentStack.items_of_concat (Work.onNodes_ok hact)]
  · rw [hbody] at hact
    rw [hkinds] at hfits
    exact Work.classBody_includes hfits hact hn hcompleted
  · obtain ⟨shape, hshape, hshows⟩ := hfits.exists_shape hn
    rw [hshows.not_isCompleted (List.all_eq_true.mp hincomplete shape hshape)] at hcompleted
    cases hcompleted

/-! ### Runs -/

namespace Machine

variable {p : ParserSetup} {dialect : Dialect} {m m' : Machine} {n : Node}

/-- What a node declares is on the stack, in declarations that are completed. -/
def Retains (m : Machine) (n : Node) : Prop := ∃ n' ∈ m.work.values.nodes.items, n'.Includes n

/-- **A reduction retains what was completed**, unless it is that of the whole unit. -/
theorem retains_reduce {lookahead : Span} {state production : Nat} {below : List Nat}
    {kind : TokenKind} {r : Rule} (h : m.Retains n) (hm : m.Marked) (hbalanced : m.Balanced False)
    (hstates : m.states = state :: below)
    (haction : Language.tables.action state kind = .reduce production)
    (hrule : Language.ruleArray[production]? = some r) (hunit : r.lhs ≠ .compilationUnit)
    (hreduce : reduce dialect production lookahead m = .ok () m') : m'.Retains n := by
  obtain ⟨symbols, hspells, hkinds⟩ := hm
  obtain ⟨rule, lower, upper, kept, hrule', hreplaces⟩ :=
    replaces_of_reduce (fun _ _ h => h.has) hspells hkinds hbalanced hstates haction hreduce
  obtain rfl : r = rule := Option.some.inj (hrule.symm.trans hrule')
  obtain ⟨c, hact⟩ := hreplaces.acts
  obtain ⟨n', hn', hincludes⟩ := h
  rw [hreplaces.before] at hn'
  unfold Retains
  rw [hreplaces.after]
  rcases List.mem_append.mp hn' with hlower | hkept
  · obtain ⟨n'', hupper, hnext⟩ := r.act_includes hreplaces.mem hunit hreplaces.fits hact hlower
      hincludes.isCompleted
    exact ⟨n'', List.mem_append_left _ hupper, hnext.trans hincludes⟩
  · exact ⟨n', List.mem_append_right _ hkept, hincludes⟩

/-- A reduction before another terminal than the end of input is not that of the whole unit. -/
theorem lhs_ne_unit {state production : Nat} {below : List Nat} {kind : TokenKind} {r : Rule}
    (hbalanced : m.Balanced False) (hstates : m.states = state :: below)
    (haction : Language.tables.action state kind = .reduce production)
    (hrule : Language.ruleArray[production]? = some r) (hkind : kind ≠ .eof) :
    r.lhs ≠ .compilationUnit := by
  intro hunit
  obtain ⟨symbols, hspells, _, _⟩ := hbalanced
  rw [hstates] at hspells
  obtain ⟨kernel, hk⟩ := hspells.kernel_top Language.wellFormed_grammar
  exact hkind (Language.eq_eof_of_unit hk hrule hunit haction)

/-- Behind the reduction of a whole unit the next step accepts. -/
theorem step_of_unit {state production : Nat} {below : List Nat} {t : Token} {rest : List Token}
    {r : Rule} (hbalanced : m.Balanced False) (hstates : m.states = state :: below)
    (hrest : m.rest = t :: rest) (haction : Language.tables.action state t.kind = .reduce production)
    (hrule : Language.ruleArray[production]? = some r) (hunit : r.lhs = .compilationUnit)
    (hreduce : reduce p.dialect production t.span m = .ok () m') : step p m' = .ok .accepted m' := by
  have heof : t.kind = .eof := by
    by_contra hkind
    exact lhs_ne_unit hbalanced hstates haction hrule hkind hunit
  obtain ⟨before, _, hspells⟩ := spells_of_reduce hbalanced hstates haction hrule hreduce
  obtain ⟨target, below', hstates'⟩ := List.exists_cons_of_ne_nil hspells.ne_nil
  rw [hstates', hunit] at hspells
  have hrest' : m'.rest = t :: rest := by
    rcases ensures_reduce p.dialect t.span hbalanced hstates haction with
      ⟨_, _, hok, _, hsame⟩ | ⟨_, _, _, hbroken⟩
    · rw [hreduce] at hok
      cases hok
      exact hsame.trans hrest
    · rw [hreduce] at hbroken
      cases hbroken
  rw [step_eq hstates' hrest', heof, Language.action_eof_of_unit hspells]

/-- A step retains what was completed, unless the next one accepts. -/
theorem retains_step {progress : Progress} (h : m.Retains n) (hm : m.Marked)
    (hbalanced : m.Balanced False) (hstep : step p m = .ok progress m') :
    m'.Retains n ∨ progress = .running ∧ step p m' = .ok .accepted m' := by
  obtain ⟨symbols, hspells, _⟩ := id hm
  obtain ⟨state, below, hstates⟩ := List.exists_cons_of_ne_nil hspells.ne_nil
  cases hrest : m.rest with
  | nil =>
      rw [step_of_no_tokens hstates hrest] at hstep
      cases hstep
  | cons t rest =>
      cases stepped_of_step hstates hrest hstep with
      | shift =>
          refine .inl ?_
          unfold Retains
          rw [nodes_afterShift]
          exact h
      | reduce haction hreduce =>
          obtain ⟨r, _, _, _, _, hrule, _⟩ := exists_rule hspells hstates haction
          by_cases hunit : r.lhs = .compilationUnit
          · exact .inr ⟨rfl, step_of_unit hbalanced hstates hrest haction hrule hunit hreduce⟩
          · exact .inl (retains_reduce h hm hbalanced hstates haction hrule hunit hreduce)
      | accept | split => exact .inl h
      | repair =>
          refine .inl ?_
          unfold Retains
          rw [(keeps_recover p t m).values]
          exact h

/-- **A run retains what was completed until the unit is abandoned.** -/
theorem retains_run {limit gas : Nat} (h : m.Retains n) (hm : m.Marked)
    (hleads : Leads .nothing .running m)
    (hrun : run p limit gas m = .ok .abandoned m') : m'.Retains n := by
  induction gas generalizing m with
  | zero => cases hrun
  | succ gas ih =>
      rw [run_succ] at hrun
      cases hstep : step p m with
      | error e last =>
          rw [hstep] at hrun
          cases hrun
      | ok progress next =>
          rw [hstep] at hrun
          rcases retains_step h hm hleads.1 hstep with hnext | ⟨rfl, haccepts⟩
          · cases progress with
            | running =>
                exact ih hnext (marked_step hm hleads.1 hstep) (leads_of_step hleads hstep) hrun
            | accepted => cases hrun
            | abandoned =>
                cases hrun
                exact hnext
          · cases gas with
            | zero => cases hrun
            | succ gas =>
                dsimp only at hrun
                rw [run_succ, haccepts] at hrun
                cases hrun

/-- The reductions that only waited for a token retain it too. -/
theorem retains_settle {offset gas : Nat} (h : m.Retains n) (hm : m.Marked)
    (hbalanced : m.Balanced False) (hsettle : settle dialect offset gas m = .ok () m') :
    m'.Retains n := by
  refine (settle_keeps (P := fun m => m.Marked ∧ m.Retains n) ?_ ⟨hm, h⟩ hbalanced hsettle).2
  rintro m m' state production below ⟨hm, h⟩ hbalanced hstates haction hreduce
  obtain ⟨symbols, hspells, _⟩ := id hm
  obtain ⟨r, _, _, _, _, hrule, _⟩ := exists_rule hspells hstates haction
  exact ⟨marked_reduce hm hbalanced hstates haction hreduce,
    retains_reduce h hm hbalanced hstates haction hrule
      (lhs_ne_unit hbalanced hstates haction hrule (by decide)) hreduce⟩

/-- Reductions in a row leave methods open while they are in progress. -/
theorem ReducesTo.marked {offset : Nat} {r : Rule} (h : m.ReducesTo dialect offset r m')
    (hm : m.Marked) (hbalanced : m.Balanced False) : m'.Marked := by
  induction h with
  | one hby =>
      obtain ⟨_, _, _, _, hstates, haction, _, hreduce⟩ := hby
      exact marked_reduce hm hbalanced hstates haction hreduce
  | more hto hby ih =>
      obtain ⟨_, _, _, _, hstates, haction, _, hreduce⟩ := hby
      exact marked_reduce ih (hto.balanced hbalanced) hstates haction hreduce

end Machine

/-! ### Abandoned units -/

/-- The declarations of abandoned units have those of every node that is completed. -/
theorem declares_subset_placedAbove {n : Node} {below nodes : List Node} (hn : n ∈ nodes)
    (hclosed : n.isOpen = false) : n.declares ⊆ (placedAbove below nodes).map Placed.node := by
  induction nodes generalizing below with
  | nil => cases hn
  | cons first above ih =>
      rw [placedAbove, List.map_append]
      rcases List.mem_cons.mp hn with rfl | habove
      · have hsame : n.completed above = n := by
          cases n with
          | method m => exact congrArg _ (if_neg (Bool.eq_false_iff.mp hclosed))
          | _ => rfl
        rw [hsame, n.nodes_placed]
        exact List.subset_append_left _ _
      · exact List.subset_append_of_subset_right _ (ih habove)

namespace Parser

variable {p : Parser} {stream : TokenStream} {o : ParseOutcome} {n : Node}

/-- A node is completed in a unit that is abandoned: it was on the stack at some time, or it is
there after reductions that only wait for a token and that lead to a type or a member. -/
inductive Completes (p : Parser) (stream : TokenStream) (n : Node) : Prop
  | reduced {k : Nat} {m : Machine} : Machine.Walks p.setup k (p.start stream) m →
      n ∈ m.work.values.nodes.items → Completes p stream n
  | waiting {m m' : Machine} {r : Rule} :
      Machine.run p.setup stepLimit stepLimit (p.start stream) = .ok .abandoned m →
        m.ReducesTo p.setup.dialect stream.endOffset r m' → r.lhs.isMember = true →
          n ∈ m'.work.values.nodes.items → Completes p stream n

/-- How the unit of an abandoned parse comes about. -/
theorem exists_settle_of_abandoned (hok : (p.parseStream stream).1 = .ok o)
    (habandoned : o.isAbandoned = true) :
    ∃ m m', Machine.run p.setup stepLimit stepLimit (p.start stream) = .ok .abandoned m ∧
      Machine.settle p.setup.dialect stream.endOffset stepLimit m = .ok () m' ∧
        o.unit = Salvage.ofNodes (spanOfLength stream.endOffset) m'.work.values.nodes.toList := by
  cases hrun : Machine.run p.setup stepLimit stepLimit (p.start stream) with
  | error e m =>
      rw [parseStream_of_error hrun] at hok
      cases hok
  | ok progress m =>
      cases hfinish : finish p.setup.dialect stream.endOffset progress m with
      | error e m' =>
          rw [parseStream_of_finish_error hrun hfinish] at hok
          cases hok
      | ok outcome m' =>
          rw [parseStream_of_finish_ok hrun hfinish] at hok
          cases hok
          cases progress with
          | running => exact absurd rfl (Machine.run_ne_running hrun)
          | accepted =>
              rw [isAbandoned_of_finishAccepted hfinish] at habandoned
              cases habandoned
          | abandoned =>
              change finishAbandoned _ _ _ = _ at hfinish
              unfold finishAbandoned at hfinish
              cases hsettle : Machine.settle p.setup.dialect stream.endOffset stepLimit m with
              | error e left =>
                  rw [hsettle] at hfinish
                  cases hfinish
              | ok u left =>
                  rw [hsettle] at hfinish
                  cases hfinish
                  exact ⟨m, left, rfl, hsettle, rfl⟩

/-- What was completed is on the stack when the unit is given up and the reductions are done that
only waited for a token. -/
theorem retains_of_completes {m m' : Machine} (h : p.Completes stream n)
    (hn : n.isCompleted = true)
    (hrun : Machine.run p.setup stepLimit stepLimit (p.start stream) = .ok .abandoned m)
    (hsettle : Machine.settle p.setup.dialect stream.endOffset stepLimit m = .ok () m') :
    m'.Retains n := by
  have hbalanced : m.Balanced False := leads_of_run hrun
  have hstart : Machine.Leads .nothing .running (p.start stream) :=
    p.leads_start_nothing stream
  have hmarked : m.Marked := Machine.run_keeps
    (fun _ _ _ hm hbalanced hstep => Machine.marked_step hm hbalanced hstep)
    (p.marked_start stream) hstart hrun
  cases h with
  | @reduced k between hwalks hmem =>
      obtain ⟨hbetween, hleads⟩ := hwalks.keeps
        (fun _ _ _ hm hbalanced hstep => Machine.marked_step hm hbalanced hstep)
        (p.marked_start stream) hstart
      obtain ⟨left, hleft⟩ := hwalks.exists_run hrun
      have hretains := Machine.retains_run ⟨n, hmem, hn, List.Subset.refl _⟩ hbetween hleads hleft
      exact Machine.retains_settle hretains hmarked hbalanced hsettle
  | @waiting last after r hlast hto hmember hmem =>
      rw [hrun] at hlast
      cases hlast
      have hthree : r.lhs.closings = 3 := by simpa [Nonterminal.isMember] using hmember
      obtain ⟨k, hk, hsettles⟩ :=
        Machine.settle_of_reducesTo hto hbalanced (by rw [hthree]; decide)
      obtain ⟨gas, hgas⟩ : ∃ gas, stepLimit = k + gas :=
        Nat.exists_eq_add_of_le (hk.trans (by rw [hthree]; decide))
      rw [hgas, hsettles] at hsettle
      exact Machine.retains_settle ⟨n, hmem, hn, List.Subset.refl _⟩ (hto.marked hmarked hbalanced)
        (hto.balanced hbalanced) hsettle

end Parser

/-- **An abandoned unit has all declarations that were completed**: those that were on the stack at
any time, and types and members behind their last tokens. -/
theorem completed_declarations_kept {p : Parser} {stream : TokenStream} {o : ParseOutcome}
    {n : Node} (hok : (p.parseStream stream).1 = .ok o) (habandoned : o.isAbandoned = true)
    (hn : n.isCompleted = true) (h : p.Completes stream n) : n.declares ⊆ o.unit.declares := by
  obtain ⟨m, m', hrun, hsettle, hunit⟩ := Parser.exists_settle_of_abandoned hok habandoned
  obtain ⟨φ, halong⟩ := Parser.exists_along_of_settle hrun hsettle
  obtain ⟨n', hmem, hincludes⟩ := Parser.retains_of_completes h hn hrun hsettle
  have hclosed : n'.isOpen = false := by
    simpa using (Bool.and_eq_true_iff.mp hincludes.isCompleted).2
  unfold CompilationUnit.declares
  rw [hunit, Salvage.placed_ofNodes _ halong]
  refine List.Subset.trans hincludes.declares (declares_subset_placedAbove ?_ hclosed)
  exact List.mem_reverse.mpr hmem

/-- The package of a small text is kept: it was reduced before the import behind it. -/
theorem package_kept_before_import : ∃ o n,
    (strictParser.parseStream (Scanner.stream headSource)).1 = .ok o ∧ o.isAbandoned = true ∧
      n.isCompleted = true ∧ strictParser.Completes (Scanner.stream headSource) n ∧
        n.declares ⊆ o.unit.declares := by
  obtain ⟨c, m₁, _, m, hwalks, hmem, _, _, hrun, hends, _⟩ := run_headSource
  have hok := Parser.waiting_head_lost hrun hends
  have hcompletes : strictParser.Completes (Scanner.stream headSource) (headPackage c) :=
    .reduced hwalks hmem
  exact ⟨_, headPackage c, hok, rfl, rfl, hcompletes,
    completed_declarations_kept hok rfl rfl hcompletes⟩

theorem ofNodes_headPackage (span : Span) (c : Handle) :
    (Salvage.ofNodes span (SegmentStack.push (headPackage c) {}).toList).imports = [] := by
  change (Salvage.closeTypes ⟨some ⟨⟨[⟨"p", ⟨8, 8⟩⟩]⟩, c.whole⟩, [], [], span⟩ []).imports = []
  rw [Salvage.closeTypes]

/-- The import of the text waited for a token: its semicolon was shifted, and it is lost. -/
theorem waiting_import_lost : ∃ k m o,
    Machine.Walks strictParser.setup k (strictParser.start (Scanner.stream headSource)) m ∧
      m.rest = [⟨.rBrace, ⟨23, 23⟩, "\x7d"⟩, .eof 24] ∧
        (strictParser.parse headSource).1 = .ok o ∧ o.isAbandoned = true ∧ o.unit.imports = [] := by
  obtain ⟨c, _, m₂, m, _, _, hwalks, hrest, hrun, hends, hnodes⟩ := run_headSource
  refine ⟨10, m₂, _, hwalks, hrest, Parser.waiting_head_lost hrun hends, rfl, ?_⟩
  rw [hnodes]
  exact ofNodes_headPackage _ c

end AspectLang
