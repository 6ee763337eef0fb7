import AspectLang.Proofs.Parse.CompletedDeclarations

/-! # Declarations are read as wholes

A method gets the start of its body together with its end, and a type gets its members when all of
them were finished (`Node.WholeInside`).  Every action keeps that (`Rule.act_whole`), so it is so of
all nodes of a machine (`Machine.whole_step`).  The last reduction of a unit that was read to its end
takes finished types (`Machine.exists_unit_of_run`), so nothing in it is open
(`Parser.isOpen_of_parsing`); and no method of any unit is open behind the start of its body
(`Parser.bodyStart_of_open`). -/

namespace AspectLang

/-! ### What stands in a declaration -/

/-- Neither a member nor a declaration in it is open. -/
def Member.IsClosed (m : Member) : Prop := ∀ n ∈ (m.placed []).map Placed.node, n.isOpen = false

/-- A method that is open has no body yet, and all members of a type are closed. -/
def Node.WholeInside : Node → Prop
  | .method m => m.isOpen = true → m.bodyStart = none
  | .type t => ∀ m ∈ t.members, m.IsClosed
  | _ => True

/-- A node is of a kind, and whole inside. -/
structure NodeKind.Whole (k : NodeKind) (n : Node) : Prop where
  has : k.Has n
  whole : n.WholeInside

/-- Where the body of a method begins and ends. -/
def MethodDecl.body (m : MethodDecl) : Option Nat × Option Nat := (m.bodyStart, m.bodyEnd)

theorem isOpen_of_placedMembers {owners : List TypeDecl} {members : List Member}
    (h : ∀ m ∈ members, m.IsClosed) :
    ∀ n ∈ (placedMembers owners members).map Placed.node, n.isOpen = false := by
  induction members with
  | nil =>
      intro n hn
      rw [placedMembers] at hn
      cases hn
  | cons m members ih =>
      obtain ⟨hm, hmembers⟩ := List.forall_mem_cons.mp h
      intro n hn
      rw [placedMembers, List.map_append, Member.nodes_placed owners []] at hn
      rcases List.mem_append.mp hn with hn | hn
      · exact hm n hn
      · exact ih hmembers n hn

namespace Node

variable {m m' : MethodDecl} {n : Node}

theorem wholeInside_of_body (h : WholeInside (.method m)) (hbody : m'.body = m.body) :
    WholeInside (.method m') := by
  obtain ⟨hstart, hstop⟩ := Prod.mk.inj hbody
  intro hopen
  rw [hstart]
  refine h ?_
  unfold MethodDecl.isOpen at hopen ⊢
  rwa [← hstop]

theorem wholeInside_of_noBody (h : m.body = (none, none)) : WholeInside (.method m) :=
  fun _ => (Prod.mk.inj h).1

theorem wholeInside_of_closed (h : m.isOpen = false) : WholeInside (.method m) :=
  fun hopen => Bool.noConfusion (h.symm.trans hopen)

theorem wholeInside_of_noMembers {t : TypeDecl} (h : t.members = []) : WholeInside (.type t) := by
  intro m hm
  rw [h] at hm
  cases hm

theorem wholeInside_of_role {plain : Prop} {k : NodeRole} (h : k.Has plain n)
    (hk : k.mayBeOpen = false) : n.WholeInside := by
  cases n with
  | type _ | method _ => cases k <;> contradiction
  | _ => trivial

/-- What a closed node declares is closed too. -/
theorem WholeInside.isOpen_of_declares (h : n.WholeInside) (hclosed : n.isOpen = false) :
    ∀ n' ∈ n.declares, n'.isOpen = false := by
  intro n' hn'
  cases n with
  | type t =>
      change n' ∈ (t.placed []).map Placed.node at hn'
      rw [TypeDecl.placed_eq] at hn'
      rcases List.mem_cons.mp hn' with rfl | hn'
      · exact hclosed
      · exact isOpen_of_placedMembers h n' hn'
  | package _ | importDecl _ | method _ | field _ | initializer _ =>
      rw [List.mem_singleton.mp hn']
      exact hclosed
  | _ => cases hn'

theorem WholeInside.isClosed {m : Member} (h : n.WholeInside) (hclosed : n.isOpen = false)
    (hn : n.member? = some m) : m.IsClosed := by
  have hall := h.isOpen_of_declares hclosed
  cases n <;> cases hn <;> exact hall

end Node

/-! ### Factories -/

namespace Factory

variable (f : Factory) (m : MethodDecl) (t : TypeDecl)

theorem body_newPointcut : f.newPointcut.body = (none, none) := by
  cases f <;> rfl

theorem body_newAroundAdvice : f.newAroundAdvice.body = (none, none) := by
  cases f <;> rfl

theorem body_newBasicAdvice (after : Bool) :
    (if after then f.newAfterAdvice else f.newBeforeAdvice).body = (none, none) := by
  cases f <;> cases after <;> rfl

theorem body_newInterTypeField (onType : TypeRef) :
    (f.newInterTypeField onType).body = (none, none) := by
  cases f <;> rfl

theorem body_newInterTypeMethod : f.newInterTypeMethod.body = (none, none) := by
  cases f <;> rfl

theorem body_newInterTypeConstructor : f.newInterTypeConstructor.body = (none, none) := by
  cases f <;> rfl

theorem body_updateInterType (change : InterTypeMember → InterTypeMember) :
    (f.updateInterType change m).body = m.body := by
  unfold updateInterType
  split <;> rfl

theorem body_setDesignator (fragment : Fragment) : (f.setDesignator fragment m).body = m.body := by
  unfold setDesignator
  dsimp only
  split <;> rfl

theorem body_setExtra (parameter : Parameter) : (f.setExtra parameter m).body = m.body := by
  unfold setExtra
  split <;> rfl

theorem body_narrowAfter (kind : AdviceKind) : (f.narrowAfter kind m).body = m.body := by
  unfold narrowAfter
  split
  · split <;> rfl
  · rfl

theorem members_newAspect : f.newAspect.members = [] := by
  cases f <;> rfl

theorem members_newMemberClass : f.newMemberClass.members = [] := by
  cases f <;> rfl

theorem members_setPrivileged (privileged : Bool) :
    (f.setPrivileged privileged t).members = t.members := by
  unfold setPrivileged
  split <;> rfl

theorem members_setMemberClassTarget (onType : TypeRef) :
    (f.setMemberClassTarget onType t).members = t.members := by
  unfold setMemberClassTarget
  split <;> rfl

theorem members_setDominates (run : Fragment) (reporter : Reporter) :
    (f.setDominates run t reporter).1.members = t.members := by
  unfold setDominates
  split
  · rfl
  · dsimp only
    split
    · rfl
    · rfl
    · split <;> rfl

theorem members_setPerClause (run : Fragment) (reporter : Reporter) :
    (f.setPerClause run t reporter).1.members = t.members := by
  unfold setPerClause
  split
  · rfl
  · dsimp only
    split
    · rfl
    · split <;> rfl

end Factory

/-! ### Actions -/

/-- Whether an action builds declarations, or changes one other than by giving a type its members. -/
def SemanticAction.buildsDeclarations : SemanticAction → Bool
  | .none | .emptyNodes | .concatNodes | .typeHeaderName .. | .superclass | .interfaces
  | .fieldDecl | .initializerBlock | .methodHeaderName _ | .constructorHeaderName | .methodHeader
  | .methodDecl | .aspect (.aspectHeaderName ..) | .aspect .headerRest | .aspect .pointcutHeader
  | .aspect (.pointcutDecl _) | .aspect (.aroundHeaderName _) | .aspect (.adviceHeaderName _)
  | .aspect (.adviceHeader _) | .aspect .declareDecl | .aspect (.annotationDeclare _)
  | .aspect (.interTypeFieldHeader _) | .aspect (.interTypeFieldBody _)
  | .aspect .interTypeFieldDecl | .aspect (.interTypeMethodHeaderName _)
  | .aspect (.interTypeConstructorHeaderName _) | .aspect .interTypeClassHeaderName => true
  | _ => false

namespace Work

open Node

variable (dialect : Dialect) (c : Handle) (f : Factory) {action : SemanticAction}

/-! Types. -/

theorem whole_typeHeaderName (kind : TypeKind) (typeParameters : Bool) :
    Keeps WholeInside (typeHeaderName kind typeParameters) := by
  refine keeps_bind inferInstance fun parameters => keeps_bind inferInstance fun name => ?_
  exact keeps_bind inferInstance fun modifiers => keeps_pushNode (wholeInside_of_noMembers rfl)

theorem whole_superclass : Keeps WholeInside superclass :=
  keeps_bind inferInstance fun _ => keeps_updateType fun _ ht => ht

theorem whole_interfaces : Keeps WholeInside interfaces := by
  refine keeps_bind inferInstance fun types => keeps_updateType fun t ht => ?_
  dsimp only
  split <;> exact ht

theorem whole_aspectHeaderName (privileged typeParameters : Bool) :
    Keeps WholeInside (aspectHeaderName f privileged typeParameters c) := by
  refine keeps_bind inferInstance fun parameters => keeps_bind inferInstance fun name => ?_
  refine keeps_bind inferInstance fun _ => keeps_bind inferInstance fun modifiers => ?_
  refine keeps_pushNode (wholeInside_of_noMembers ?_)
  exact (f.members_setPrivileged _ privileged).trans f.members_newAspect

theorem whole_headerRest : Keeps WholeInside (headerRest f c) := by
  have hclauses : ∀ run : Fragment, Keeps WholeInside (do
      let aspect ← typeOnTop .aspect
      let aspect ← withReporter (f.setDominates run aspect)
      let aspect ← withReporter (f.setPerClause run aspect)
      replaceTop (.type (reachTo run.span.stop aspect))) := by
    intro run
    refine keeps_typeOnTop fun aspect haspect => keeps_withReporter fun r => ?_
    refine keeps_withReporter fun r' => keeps_replaceTop ?_
    change ∀ m ∈ (f.setPerClause run (f.setDominates run aspect r).1 r').1.members, m.IsClosed
    rw [f.members_setPerClause, f.members_setDominates]
    exact haspect
  unfold headerRest
  infer_instance

theorem whole_interTypeClassHeaderName : Keeps WholeInside (interTypeClassHeaderName f) := by
  refine keeps_bind inferInstance fun name => keeps_bind inferInstance fun onType => ?_
  refine keeps_bind inferInstance fun modifiers => keeps_pushNode (wholeInside_of_noMembers ?_)
  exact (f.members_setMemberClassTarget _ _).trans f.members_newMemberClass

/-! Fields and initializers. -/

theorem whole_fieldDecl : Keeps WholeInside (fieldDecl c) := by
  refine keeps_bind inferInstance fun declarators => keeps_bind inferInstance fun type => ?_
  refine keeps_bind inferInstance fun modifiers => keeps_bind inferInstance fun _ => ?_
  refine keeps_pushNodes fun n hn => ?_
  obtain ⟨d, _, rfl⟩ := List.mem_map.mp hn
  trivial

theorem whole_initializerBlock : Keeps WholeInside initializerBlock := by
  refine keeps_bind inferInstance fun block => keeps_bind inferInstance fun modifiers => ?_
  exact keeps_pushNode trivial

/-! Methods. -/

theorem whole_methodHeaderName (typeParameters : Bool) :
    Keeps WholeInside (methodHeaderName typeParameters) := by
  refine keeps_bind inferInstance fun name => keeps_bind inferInstance fun returnType => ?_
  refine keeps_bind inferInstance fun parameters => keeps_bind inferInstance fun modifiers => ?_
  exact keeps_pushNode (wholeInside_of_noBody rfl)

theorem whole_constructorHeaderName : Keeps WholeInside constructorHeaderName :=
  keeps_bind inferInstance fun _ => keeps_bind inferInstance fun _ =>
    keeps_pushNode (wholeInside_of_noBody rfl)

theorem whole_methodHeader : Keeps WholeInside (methodHeader c) :=
  keeps_bind inferInstance fun _ => keeps_bind inferInstance fun _ =>
    keeps_updateMethod fun _ hm => wholeInside_of_body hm rfl

theorem whole_methodDecl : Keeps WholeInside methodDecl := by
  unfold methodDecl popStatement popNode
  exact keeps_bind inferInstance fun _ => keeps_updateMethod fun _ _ => wholeInside_of_closed rfl

theorem whole_pointcutHeader : Keeps WholeInside (pointcutHeader f) := by
  refine keeps_bind inferInstance fun name => keeps_bind inferInstance fun keyword => ?_
  exact keeps_bind inferInstance fun modifiers =>
    keeps_pushNode (wholeInside_of_noBody f.body_newPointcut)

theorem whole_pointcutDecl (hasDesignator : Bool) :
    Keeps WholeInside (pointcutDecl f hasDesignator c) := by
  have hend : ∀ designator, Keeps WholeInside (do
      let parameters ← popParameters
      updateMethod fun m =>
        let m := { m with parameters }
        let m := match designator with
          | some d => f.setDesignator d m
          | none => m
        { m with
          bodyEnd := some c.lastSpan.stop
          extent.declaration.stop := c.lastSpan.stop }) :=
    fun _ => keeps_bind inferInstance fun _ => keeps_updateMethod fun _ _ => wholeInside_of_closed rfl
  unfold pointcutDecl popFragments popNodes
  cases hasDesignator with
  | true => exact keeps_bind inferInstance fun _ => keeps_bind inferInstance hend
  | false => exact keeps_bind inferInstance hend

theorem whole_aroundHeaderName (hasReturnType : Bool) :
    Keeps WholeInside (aroundHeaderName f hasReturnType) := by
  refine keeps_bind inferInstance fun keyword => ?_
  have hrest : ∀ returnType, Keeps WholeInside (do
      let modifiers ← popModifiers
      pushAdvice keyword returnType modifiers f.newAroundAdvice) := fun _ =>
    keeps_bind inferInstance fun _ => keeps_pushNode (wholeInside_of_noBody f.body_newAroundAdvice)
  cases hasReturnType with
  | true => exact keeps_bind inferInstance hrest
  | false => exact keeps_bind inferInstance fun _ => keeps_bind inferInstance hrest

theorem whole_adviceHeaderName (after : Bool) : Keeps WholeInside (adviceHeaderName f after) :=
  keeps_bind inferInstance fun _ => keeps_bind inferInstance fun _ =>
    keeps_pushNode (wholeInside_of_noBody (f.body_newBasicAdvice after))

theorem body_applyExtra (extra : ExtraParameter) (m : MethodDecl) (r : Reporter) :
    (applyExtra f extra m r).1.body = m.body := by
  unfold applyExtra
  dsimp only
  split
  · rfl
  · split
    · rfl
    · rename_i n hnarrowed
      have hn : n.body = m.body := by
        split at hnarrowed
        · obtain rfl := Option.some.inj hnarrowed
          exact f.body_narrowAfter m _
        · obtain rfl := Option.some.inj hnarrowed
          exact f.body_narrowAfter m _
        · cases hnarrowed
      split
      · exact (f.body_setExtra n _).trans hn
      · exact hn

theorem whole_completeAdvice (tokens : List Fragment) (throws : List TypeRef)
    (extra : Option ExtraParameter) :
    Keeps WholeInside (completeAdvice f tokens throws extra c) := by
  refine keeps_bind inferInstance fun parameters => keeps_bind inferInstance fun designator => ?_
  refine keeps_methodOnTop fun m hm => ?_
  have hbody : (f.setDesignator designator
      { m with parameters, throws, extent.declaration.stop := c.whole.stop }).body = m.body :=
    f.body_setDesignator _ designator
  cases extra with
  | none => exact keeps_replaceTop (wholeInside_of_body hm hbody)
  | some extra =>
      refine keeps_withReporter fun r => keeps_replaceTop (wholeInside_of_body hm ?_)
      exact (body_applyExtra f extra _ r).trans hbody

theorem whole_adviceHeader (hasExtra : Bool) : Keeps WholeInside (adviceHeader f hasExtra c) := by
  refine keeps_bind inferInstance fun tokens => keeps_bind inferInstance fun throws => ?_
  have hrest := whole_completeAdvice c f tokens throws
  cases hasExtra with
  | false => exact keeps_bind inferInstance hrest
  | true =>
      refine keeps_bind inferInstance fun n => ?_
      cases n with
      | none => exact keeps_bind inferInstance hrest
      | some n => exact keeps_bind inferInstance hrest

/-! Declare statements. -/

theorem whole_declareDecl : Keeps WholeInside (declareDecl f c) := by
  refine keeps_bind inferInstance fun body => keeps_bind inferInstance fun header => ?_
  generalize headerSpans header 1 c = spans
  refine ⟨fun w _ w' hok hw => ?_⟩
  dsimp only at hok
  rw [get_bind] at hok
  generalize f.newDeclare _ w.reporter = declared at hok
  cases declared with
  | error text => cases hok
  | ok declared =>
      cases hok
      exact List.forall_mem_cons.mpr ⟨wholeInside_of_closed rfl, hw⟩

theorem whole_annotationDeclare (sign : Char) :
    Keeps WholeInside (annotationDeclare f sign c) := by
  refine keeps_bind inferInstance fun _ => keeps_bind inferInstance fun annotationUse => ?_
  refine keeps_bind inferInstance fun pattern => keeps_bind inferInstance fun header => ?_
  exact keeps_bind inferInstance fun m => keeps_pushNode (wholeInside_of_closed rfl)

/-! Inter-type members. -/

theorem whole_interTypeFieldHeader (pattern : TargetForm) :
    Keeps WholeInside (interTypeFieldHeader f pattern c) := by
  have hrest : ∀ name : Identifier, Keeps WholeInside (do
      reportTargetForm pattern c
      let onType ← popName
      let type ← popType
      let modifiers ← popModifiers
      let field := { f.newInterTypeField (.ofName onType) with selector := name.name }
      let field := { f.setDeclaredModifiers modifiers.flags field with returnType := some type }
      pushNode (.method (headMethod name.span modifiers field))) := by
    intro name
    refine keeps_bind ?_ fun _ => keeps_bind inferInstance fun onType => ?_
    · unfold reportTargetForm
      cases pattern <;> infer_instance
    · refine keeps_bind inferInstance fun type => keeps_bind inferInstance fun modifiers => ?_
      refine keeps_pushNode (wholeInside_of_noBody ((f.body_updateInterType _ _).trans ?_))
      exact f.body_newInterTypeField _
  unfold interTypeFieldHeader
  cases pattern <;> exact keeps_bind inferInstance hrest

theorem whole_interTypeFieldBody (hasInitializer : Bool) :
    Keeps WholeInside (interTypeFieldBody f hasInitializer) := by
  cases hasInitializer with
  | false => exact inferInstanceAs (Keeps _ (pure ()))
  | true =>
      refine keeps_bind inferInstance fun value => keeps_updateMethod fun m hm => ?_
      exact wholeInside_of_body hm (f.body_updateInterType m _)

theorem whole_interTypeFieldDecl : Keeps WholeInside (interTypeFieldDecl c) :=
  keeps_updateMethod fun _ _ => wholeInside_of_closed rfl

theorem whole_interTypeMethodHeaderName (pattern : TargetForm) :
    Keeps WholeInside (interTypeMethodHeaderName f pattern c) := by
  refine keeps_bind inferInstance fun name => keeps_bind ?_ fun _ => ?_
  · unfold reportTargetForm
    cases pattern <;> infer_instance
  · refine keeps_bind inferInstance fun onType => keeps_bind inferInstance fun returnType => ?_
    refine keeps_bind inferInstance fun modifiers => keeps_pushNode (wholeInside_of_noBody ?_)
    refine (f.body_updateInterType _ _).trans ((f.body_updateInterType _ _).trans ?_)
    exact f.body_newInterTypeMethod

theorem whole_interTypeConstructorHeaderName (plus : Bool) :
    Keeps WholeInside (interTypeConstructorHeaderName f plus c) := by
  have hrest : Keeps WholeInside (do
      let onType ← popName
      let modifiers ← popModifiers
      let constructor :=
        { f.setTarget (.ofName onType) f.newInterTypeConstructor with
          selector := onType.join "_" ++ "_new" }
      let constructor := f.setDeclaredModifiers modifiers.flags constructor
      pushNode (.method (headMethod (c.span (if plus then 4 else 3)) modifiers constructor))) := by
    refine keeps_bind inferInstance fun onType => keeps_bind inferInstance fun modifiers => ?_
    refine keeps_pushNode (wholeInside_of_noBody ((f.body_updateInterType _ _).trans ?_))
    exact (f.body_updateInterType _ _).trans f.body_newInterTypeConstructor
  unfold interTypeConstructorHeaderName
  cases plus with
  | false => exact hrest
  | true => exact keeps_bind inferInstance fun _ => hrest

/-- **Actions that build declarations leave them whole inside.** -/
theorem keeps_wholeInside (h : action.buildsDeclarations = true) :
    Keeps WholeInside (act dialect c action) := by
  cases action with
  | none => exact inferInstanceAs (Keeps _ (pure ()))
  | emptyNodes => exact inferInstanceAs (Keeps _ pushNoNodes)
  | concatNodes => exact inferInstanceAs (Keeps _ (onStacks (.onNodes SegmentStack.concat)))
  | typeHeaderName => exact whole_typeHeaderName _ _
  | superclass => exact whole_superclass
  | interfaces => exact whole_interfaces
  | fieldDecl => exact whole_fieldDecl c
  | initializerBlock => exact whole_initializerBlock
  | methodHeaderName => exact whole_methodHeaderName _
  | constructorHeaderName => exact whole_constructorHeaderName
  | methodHeader => exact whole_methodHeader c
  | methodDecl => exact whole_methodDecl
  | aspect action =>
      refine keeps_bind inferInstance fun f => ?_
      cases action with
      | aspectHeaderName => exact whole_aspectHeaderName c f _ _
      | headerRest => exact whole_headerRest c f
      | pointcutHeader => exact whole_pointcutHeader f
      | pointcutDecl => exact whole_pointcutDecl c f _
      | aroundHeaderName => exact whole_aroundHeaderName f _
      | adviceHeaderName => exact whole_adviceHeaderName f _
      | adviceHeader => exact whole_adviceHeader c f _
      | declareDecl => exact whole_declareDecl c f
      | annotationDeclare => exact whole_annotationDeclare c f _
      | interTypeFieldHeader => exact whole_interTypeFieldHeader c f _
      | interTypeFieldBody => exact whole_interTypeFieldBody f _
      | interTypeFieldDecl => exact whole_interTypeFieldDecl c
      | interTypeMethodHeaderName => exact whole_interTypeMethodHeaderName c f _
      | interTypeConstructorHeaderName => exact whole_interTypeConstructorHeaderName c f _
      | interTypeClassHeaderName => exact whole_interTypeClassHeaderName f
      | _ => cases h
  | _ => cases h

/-- The body of a type takes up finished members. -/
theorem classBody_whole {w w' : Workspace}
    (hfits : w.values.nodes.Fits NodeKind.Whole
      [⟨⟨.member, .finished⟩, .many⟩, ⟨⟨.type, .opened⟩, .one⟩])
    (h : classBody c w = .ok () w') : ∀ n ∈ w'.values.nodes.items, n.WholeInside := by
  obtain ⟨segment, popped, hpop, hread⟩ := exists_of_bind h
  obtain ⟨members, middle, hexpect, hupdate⟩ := exists_of_bind hread
  obtain ⟨rfl, hmap⟩ := expectNode_ok hexpect
  obtain ⟨t, same, htop, hreplace⟩ := exists_of_bind hupdate
  obtain ⟨rfl, _⟩ := typeOnTop_ok htop
  obtain ⟨hsegment, hrest⟩ := hfits.of_popSegment (onNodes_ok hpop)
  rw [replaceTop_ok hreplace]
  refine List.forall_mem_cons.mpr ⟨?_, fun n hn => ?_⟩
  · exact forall_of_mapM (fun n hn m hmember =>
      (hsegment n hn).whole.isClosed (hsegment n hn).has.stage hmember) hmap
  · obtain ⟨_, _, hwhole⟩ := hrest.exists_shape (List.mem_of_mem_tail hn)
    exact hwhole.whole

end Work

/-! ### Rules -/

/-- Whether a rule leaves no types or methods, or has an action that builds declarations, or gives a
type finished members. -/
def Rule.leavesWhole (r : Rule) : Bool :=
  r.output.nodes.all (fun s => !s.role.mayBeOpen) || r.action.buildsDeclarations ||
    (r.action = .classBody && r.kindsUpTo r.rhs.length =
      [⟨⟨.member, .finished⟩, .many⟩, ⟨⟨.type, .opened⟩, .one⟩])

theorem Language.rules_leaveWhole : ∀ r ∈ rules, r.leavesWhole = true := by
  decide +kernel

/-- The action of a rule leaves nodes that are whole inside. -/
theorem Rule.act_whole {r : Rule} {dialect : Dialect} {c : Handle} {w w' : Workspace}
    (hr : r ∈ Language.rules) (h : w.values.nodes.Fits NodeKind.Whole (r.kindsUpTo r.rhs.length))
    (hact : Work.act dialect c r.action w = .ok () w')
    (h' : w'.values.nodes.Fits (NodeRole.Has False) r.output.nodes) :
    ∀ n ∈ w'.values.nodes.items, n.WholeInside := by
  have hleaves := Language.rules_leaveWhole r hr
  unfold leavesWhole at hleaves
  simp only [Bool.or_eq_true, Bool.and_eq_true, decide_eq_true_eq] at hleaves
  rcases hleaves with (hnever | hbuilds) | ⟨hbody, hkinds⟩
  · intro n hn
    obtain ⟨shape, hshape, hhas⟩ := h'.exists_shape hn
    exact Node.wholeInside_of_role hhas (by simpa using List.all_eq_true.mp hnever shape hshape)
  · refine (Work.keeps_wholeInside dialect c hbuilds).kept w () w' hact fun n hn => ?_
    obtain ⟨_, _, hwhole⟩ := h.exists_shape hn
    exact hwhole.whole
  · rw [hbody] at hact
    rw [hkinds] at h
    exact Work.classBody_whole c h hact

/-! ### Machines -/

namespace Machine

variable {p : ParserSetup} {m m' : Machine}

/-- The nodes are of the kinds that the symbols leave, and whole inside. -/
abbrev Whole (m : Machine) : Prop := m.Stands NodeKind.Whole

theorem Whole.wholeInside (h : m.Whole) : ∀ n ∈ m.work.values.nodes.items, n.WholeInside := by
  intro n hn
  obtain ⟨_, _, hfits⟩ := h
  obtain ⟨_, _, hwhole⟩ := hfits.exists_shape hn
  exact hwhole.whole

theorem whole_reduce {dialect : Dialect} {lookahead : Span} {state production : Nat}
    {below : List Nat} {kind : TokenKind} (h : m.Whole) (hbalanced : m.Balanced False)
    (hstates : m.states = state :: below)
    (haction : Language.tables.action state kind = .reduce production)
    (hreduce : reduce dialect production lookahead m = .ok () m') : m'.Whole := by
  obtain ⟨symbols, hspells, hkinds⟩ := h
  obtain ⟨r, lower, upper, kept, _, hreplaces⟩ :=
    replaces_of_reduce (fun _ _ h => h.has) hspells hkinds hbalanced hstates haction hreduce
  obtain ⟨c, hact⟩ := hreplaces.acts
  obtain ⟨symbols', rest, hafter, hkept, hkinds'⟩ := hreplaces.spells
  refine ⟨symbols', hafter, ?_⟩
  rw [hkinds', hreplaces.after, r.lhs.put_kindContext]
  have hhas := hreplaces.fits.recast (g := id) (fun _ => rfl) fun _ _ _ hwhole => hwhole.has
  rw [List.map_id] at hhas
  have hstage := Rule.act_reaches hreplaces.mem hhas hact hreplaces.roles
  have hwhole := Rule.act_whole hreplaces.mem hreplaces.fits hact hreplaces.roles
  refine SegmentStack.Fits.onto ?_ hkept
  exact hreplaces.roles.recast (fun _ => rfl) fun shape n hn hrole =>
    ⟨⟨hrole, hstage n hn⟩, hwhole n hn⟩

/-- **A step leaves all nodes whole inside.** -/
theorem whole_step {progress : Progress} (h : m.Whole) (hbalanced : m.Balanced False)
    (hstep : step p m = .ok progress m') : m'.Whole :=
  stands_step (fun _ _ _ _ _ _ hstates haction hreduce =>
    whole_reduce h hbalanced hstates haction hreduce) h hstep

end Machine

/-! ### Units that are read to their ends -/

theorem CompilationUnit.isOpen_of_declares {u : CompilationUnit}
    (h : ∀ t ∈ u.types, (Node.type t).WholeInside ∧ t.isOpen = false) :
    ∀ n ∈ u.declares, n.isOpen = false := by
  intro n hn
  obtain ⟨x, hx, rfl⟩ := List.mem_map.mp hn
  unfold placed at hx
  rcases List.mem_append.mp hx with hx | hx
  · rcases List.mem_append.mp hx with hx | hx <;>
      (obtain ⟨_, _, rfl⟩ := List.mem_map.mp hx; rfl)
  · obtain ⟨t, ht, hx⟩ := List.mem_flatMap.mp hx
    exact (h t ht).1.isOpen_of_declares (h t ht).2 _ (List.mem_map_of_mem hx)

/-- A unit is built from types that are finished. -/
theorem Work.compilationUnit_closed {c : Handle} {w w' : Workspace} {count : Count}
    {shapes : List (Shape NodeKind)}
    (hfits : w.values.nodes.Fits NodeKind.Whole (⟨⟨.type, .finished⟩, count⟩ :: shapes))
    (h : compilationUnit c w = .ok () w') :
    ∃ u, w'.unit = some u ∧ ∀ n ∈ u.declares, n.isOpen = false := by
  obtain ⟨segment, popped, hpop, hread⟩ := exists_of_bind h
  obtain ⟨types, same, hexpect, hrest⟩ := exists_of_bind hread
  obtain ⟨rfl, htypes⟩ := expectNode_ok hexpect
  obtain ⟨hsegment, _⟩ := hfits.of_popSegment (onNodes_ok hpop)
  obtain ⟨_, _, _, himports⟩ := exists_of_bind hrest
  obtain ⟨imports, _, _, hpackage⟩ := exists_of_bind himports
  obtain ⟨found, last, _, hfinish⟩ := exists_of_bind hpackage
  have hclosed : ∀ t ∈ types, (Node.type t).WholeInside ∧ t.isOpen = false := by
    refine forall_of_mapM (fun n hn t htype => ?_) htypes
    obtain ⟨hhas, hwhole⟩ := hsegment n hn
    cases n <;> cases htype
    exact ⟨hwhole, hhas.stage⟩
  have hunit : ∀ package w, (modify fun w =>
      { w with unit := some ⟨package, imports, types, c.whole⟩ } : Work Unit) w = .ok () w' →
        ∃ u, w'.unit = some u ∧ ∀ n ∈ u.declares, n.isOpen = false := by
    intro package w hw
    cases hw
    exact ⟨_, rfl, CompilationUnit.isOpen_of_declares hclosed⟩
  cases found with
  | none => exact hunit none last hfinish
  | some n =>
      obtain ⟨package, last, _, hfinish⟩ := exists_of_bind hfinish
      exact hunit package last hfinish

theorem Language.eq_unitRule {r : Rule} (hr : r ∈ rules) (hunit : r.lhs = .compilationUnit) :
    r = unitRule := by
  have hall : ∀ r ∈ rules, r.lhs ≠ .compilationUnit ∨ r = unitRule := by decide +kernel
  exact (hall r hr).resolve_left (absurd hunit)

namespace Machine

variable {p : ParserSetup} {m m' : Machine}

/-- A whole unit is the last thing that was read. -/
def EndsUnit (m : Machine) : Prop :=
  ∃ before, Language.grammar.Spells m.states
    (.nonterminal Nonterminal.compilationUnit.index :: before)

/-- The machine is about to reduce a whole unit, and comes to another one by that. -/
def ReducesUnit (p : ParserSetup) (m m' : Machine) : Prop :=
  ∃ (state : Nat) (below : List Nat) (t : Token) (production : Nat), m.states = state :: below ∧
    Language.tables.action state t.kind = .reduce production ∧
      Language.ruleArray[production]? = some Language.unitRule ∧
        reduce p.dialect production t.span m = .ok () m'

theorem endsUnit_of_accept {state : Nat} {below : List Nat} {kind : TokenKind}
    (hstates : m.states = state :: below) (hbalanced : m.Balanced False)
    (haction : Language.tables.action state kind = .accept) : m.EndsUnit := by
  obtain ⟨symbols, hspells, _, _⟩ := hbalanced
  rw [hstates] at hspells
  obtain ⟨_, hsymbols⟩ :=
    hspells.accept Language.wellFormed_grammar Language.startIsolated_grammar haction
  rw [Grammar.rhsOf_eq (Language.productions_of_rule Language.ruleArray_zero)] at hsymbols
  obtain rfl : symbols = [.nonterminal Nonterminal.compilationUnit.index] := hsymbols
  exact ⟨[], hstates ▸ hspells⟩

/-- **A run that accepts ends with the reduction of a whole unit.** -/
theorem exists_unit_of_run {limit gas : Nat} (hm : ¬ m.EndsUnit) (hleads : Leads .nothing .running m)
    (hrun : run p limit gas m = .ok .accepted m') :
    ∃ n before, Walks p n m before ∧ ReducesUnit p before m' := by
  induction gas generalizing m with
  | zero => cases hrun
  | succ gas ih =>
      obtain ⟨hbalanced, hfed⟩ := id hleads
      obtain ⟨symbols, hspells, _, _⟩ := id hbalanced
      obtain ⟨state, below, hstates⟩ := List.exists_cons_of_ne_nil hspells.ne_nil
      rw [run_succ] at hrun
      cases hstep : step p m with
      | error e last =>
          rw [hstep] at hrun
          cases hrun
      | ok progress next =>
          rw [hstep] at hrun
          -- a step to a machine behind which no unit ends
          have hon : progress = .running → ¬ next.EndsUnit →
              ∃ n before, Walks p n m before ∧ ReducesUnit p before m' := by
            rintro rfl hnext
            obtain ⟨n, before, hwalks, hreduces⟩ := ih hnext (leads_of_step hleads hstep) hrun
            exact ⟨n + 1, before, .succ hstep hwalks, hreduces⟩
          cases hrest : m.rest with
          | nil =>
              rw [step_of_no_tokens hstates hrest] at hstep
              cases hstep
          | cons t rest =>
              cases stepped_of_step hstates hrest hstep with
              | shift haction =>
                  refine hon rfl fun ⟨before, hends⟩ => ?_
                  have hspells' := hspells
                  rw [hstates] at hspells'
                  have hshift := hspells'.shift Language.wellFormed_grammar
                    Language.startIsolated_grammar haction
                  rw [← hstates] at hshift
                  cases hends.unique Language.wellFormed_grammar hshift
              | reduce haction hreduce =>
                  obtain ⟨r, _, _, _, _, hrule, _⟩ := exists_rule hspells hstates haction
                  by_cases hunit : r.lhs = .compilationUnit
                  · have haccepts := step_of_unit hbalanced hstates hrest haction hrule hunit hreduce
                    obtain rfl := Language.eq_unitRule (Language.mem_rules hrule) hunit
                    cases gas with
                    | zero => cases hrun
                    | succ gas =>
                        dsimp only at hrun
                        rw [run_succ, haccepts] at hrun
                        cases hrun
                        exact ⟨0, m, .zero, _, _, _, _, hstates, haction, hrule, hreduce⟩
                  · refine hon rfl fun ⟨before, hends⟩ => ?_
                    obtain ⟨_, _, hafter⟩ :=
                      spells_of_reduce hbalanced hstates haction hrule hreduce
                    obtain ⟨htop, _⟩ :=
                      List.cons.inj (hends.unique Language.wellFormed_grammar hafter)
                    exact hunit (Nonterminal.index_injective (Symbol.nonterminal.inj htop)).symm
              | accept haction => exact absurd (endsUnit_of_accept hstates hbalanced haction) hm
              | split => exact hon rfl hm
              | repair =>
                  cases hprogress : (recover p t m).1 with
                  | running =>
                      refine hon hprogress ?_
                      unfold EndsUnit
                      rw [(keeps_recover p t m).states]
                      exact hm
                  | accepted => exact absurd hprogress (recover_ne_accepted p t m)
                  | abandoned =>
                      rw [hprogress] at hrun
                      cases hrun

/-- The types of a whole unit are finished when it is reduced. -/
theorem ReducesUnit.closed (h : ReducesUnit p m m') (hm : m.Whole) (hbalanced : m.Balanced False) :
    ∃ u, m'.work.unit = some u ∧ ∀ n ∈ u.declares, n.isOpen = false := by
  obtain ⟨state, below, t, production, hstates, haction, hrule, hreduce⟩ := h
  obtain ⟨symbols, hspells, hfits⟩ := hm
  obtain ⟨before, hright, _⟩ := spells_of_reduce hbalanced hstates haction hrule hreduce
  obtain rfl := hspells.unique Language.wellFormed_grammar hright
  obtain ⟨rule, origin, rest, _, target, hrule', hdrop, _, hgoto, _⟩ :=
    exists_rule hspells hstates haction
  obtain rfl := Option.some.inj (hrule.symm.trans hrule')
  rw [reduce_eq hrule hdrop hgoto] at hreduce
  split at hreduce
  · cases hreduce
  · rename_i u w hact
    cases hreduce
    have hkinds : stackKinds ((Language.unitRule.rhs.map RuleSymbol.symbol).reverse ++ before) =
        ⟨⟨.type, .finished⟩, .many⟩ ::
          stackKinds (((Language.unitRule.rhs.take 2).map RuleSymbol.symbol).reverse ++ before) :=
      rfl
    rw [hkinds] at hfits
    exact Work.compilationUnit_closed (w := (m.popped _ production).work) hfits hact

end Machine

/-! ### Units that are given up -/

theorem Node.wholeInside_completed {n : Node} (h : n.WholeInside) (above : List Node) :
    (n.completed above).WholeInside := by
  cases n with
  | method m =>
      refine wholeInside_of_body h ?_
      split
      · unfold MethodDecl.continued
        split <;> rfl
      · rfl
  | _ => exact h

/-- Every open method in a node has no body. -/
theorem Node.WholeInside.bodyStart_of_declares {n : Node} (h : n.WholeInside) {m : MethodDecl}
    (hm : .method m ∈ n.declares) (hopen : m.isOpen = true) : m.bodyStart = none := by
  cases n with
  | method m' =>
      obtain rfl : m = m' := Node.method.inj (List.mem_singleton.mp hm)
      exact h hopen
  | type t =>
      change .method m ∈ (t.placed []).map Placed.node at hm
      rw [TypeDecl.placed_eq] at hm
      rcases List.mem_cons.mp hm with hm | hm
      · cases hm
      · have hclosed : m.isOpen = false := isOpen_of_placedMembers h _ hm
        rw [hopen] at hclosed
        cases hclosed
  | package _ | importDecl _ | field _ | initializer _ =>
      cases List.mem_singleton.mp hm
  | _ => cases hm

theorem bodyStart_of_placedAbove {below nodes : List Node} (h : ∀ n ∈ nodes, n.WholeInside)
    {m : MethodDecl} (hm : .method m ∈ (placedAbove below nodes).map Placed.node)
    (hopen : m.isOpen = true) : m.bodyStart = none := by
  induction nodes generalizing below with
  | nil => cases hm
  | cons n above ih =>
      obtain ⟨hn, habove⟩ := List.forall_mem_cons.mp h
      rw [placedAbove, List.map_append] at hm
      rcases List.mem_append.mp hm with hm | hm
      · rw [Node.nodes_placed] at hm
        exact (Node.wholeInside_completed hn above).bodyStart_of_declares hm hopen
      · exact ih habove hm

namespace Parser

variable {p : Parser} {stream : TokenStream} {o : ParseOutcome}

theorem not_endsUnit_start (p : Parser) (stream : TokenStream) : ¬ (p.start stream).EndsUnit := by
  rintro ⟨before, hspells⟩
  cases hspells.unique Language.wellFormed_grammar .start

theorem whole_start (p : Parser) (stream : TokenStream) : (p.start stream).Whole :=
  ⟨[], .start, .empty⟩

/-- How the unit of a parse that is not abandoned comes about. -/
theorem exists_unit_of_parsing (hok : (p.parseStream stream).1 = .ok o)
    (hparsing : o.isAbandoned = false) :
    ∃ m u, Machine.run p.setup stepLimit stepLimit (p.start stream) = .ok .accepted m ∧
      m.work.unit = some u ∧ o.unit = { u with span := spanOfLength stream.endOffset } := by
  obtain ⟨m, hrun⟩ := run_of_parsing hok (by rw [ParseOutcome.phase, hparsing]; rfl)
  cases hfinish : finish p.setup.dialect stream.endOffset .accepted m with
  | error e m' =>
      rw [parseStream_of_finish_error hrun hfinish] at hok
      cases hok
  | ok outcome m' =>
      rw [parseStream_of_finish_ok hrun hfinish] at hok
      cases hok
      change finishAccepted _ _ = _ at hfinish
      unfold finishAccepted at hfinish
      split at hfinish
      · cases hfinish
      · rename_i u hu
        dsimp only at hfinish
        split at hfinish <;> cases hfinish
        exact ⟨m, u, hrun, hu, rfl⟩

/-- **In a unit that is read to its end nothing is open.** -/
theorem isOpen_of_parsing (hok : (p.parseStream stream).1 = .ok o)
    (hparsing : o.isAbandoned = false) : ∀ n ∈ o.unit.declares, n.isOpen = false := by
  obtain ⟨m, u, hrun, hu, hunit⟩ := exists_unit_of_parsing hok hparsing
  have hleads : Machine.Leads .nothing .running (p.start stream) :=
    p.leads_start_nothing stream
  obtain ⟨n, before, hwalks, hreduces⟩ :=
    Machine.exists_unit_of_run (p.not_endsUnit_start stream) hleads hrun
  obtain ⟨hwhole, hbefore⟩ := hwalks.keeps
    (fun _ _ _ hm hbalanced hstep => Machine.whole_step hm hbalanced hstep)
    (p.whole_start stream) hleads
  obtain ⟨built, hbuilt, hclosed⟩ := hreduces.closed hwhole hbefore.1
  obtain rfl : built = u := Option.some.inj (hbuilt.symm.trans hu)
  rw [hunit]
  exact hclosed

/-- **No method is open behind the start of its body.** -/
theorem bodyStart_of_open (hok : (p.parseStream stream).1 = .ok o) {m : MethodDecl}
    (hm : .method m ∈ o.unit.declares) (hopen : m.isOpen = true) : m.bodyStart = none := by
  cases habandoned : o.isAbandoned with
  | false =>
      have hclosed : m.isOpen = false := isOpen_of_parsing hok habandoned _ hm
      rw [hopen] at hclosed
      cases hclosed
  | true =>
      obtain ⟨last, settled, hrun, hsettle, hunit⟩ := exists_settle_of_abandoned hok habandoned
      obtain ⟨φ, halong⟩ := exists_along_of_settle hrun hsettle
      have hwhole : last.Whole := Machine.run_keeps
        (fun _ _ _ hm hbalanced hstep => Machine.whole_step hm hbalanced hstep)
        (p.whole_start stream)
        (p.leads_start_nothing stream) hrun
      have hsettled : settled.Whole := Machine.settle_keeps
        (fun _ _ _ _ _ h hbalanced => Machine.whole_reduce h hbalanced) hwhole
        (leads_of_run hrun) hsettle
      unfold CompilationUnit.declares at hm
      rw [hunit, Salvage.placed_ofNodes _ halong] at hm
      refine bodyStart_of_placedAbove (fun n hn => hsettled.wholeInside n ?_) hm hopen
      exact List.mem_reverse.mp hn

end Parser

end AspectLang
