import AspectLang.Proofs.Parse.Stages

/-! # Methods in progress are open

While the header of a method is read, no end of the method was read yet.  The actions of the rules
for such headers begin a method without an end, or they change one and leave its end alone
(`Work.keeps_unended`), and a rule whose left side is such a header has no other methods in progress
(`Language.rules_headMethods`).  So besides having come as far as its symbols say, a method that is
in progress is open (`NodeKind.Shows`), and every step keeps that (`Machine.marked_step`). -/

namespace AspectLang

/-- Whether a node is no method whose end was read. -/
def Node.isUnended : Node → Bool
  | .method m => m.isOpen
  | _ => true

/-- A node is of a kind, and open if it is a method that may be in progress. -/
structure NodeKind.Shows (k : NodeKind) (n : Node) : Prop where
  has : k.Has n
  unended : k.stage = .any → n.isUnended = true

/-! ### Steps that leave methods open -/

namespace Work

variable {P : Node → Prop} {β γ : Type}

instance {a : Work β} (g : β → γ) [Keeps P a] : Keeps P (g <$> a) := by
  rw [map_eq_pure_bind]
  infer_instance

theorem methodOnTop_ok {expected : NodeSort} {w w' : Workspace} {m : MethodDecl}
    (h : methodOnTop expected w = .ok m w') : w' = w ∧ .method m ∈ w.values.nodes.items := by
  obtain ⟨n, middle, hpeek, hexpect⟩ := exists_of_bind h
  obtain ⟨rfl, hn⟩ := peek_ok hpeek
  obtain ⟨rfl, hmethod⟩ := expectNode_ok hexpect
  cases n <;> cases hmethod
  exact ⟨rfl, hn⟩

/-- The method on top is as `P` says too. -/
theorem keeps_methodOnTop {expected : NodeSort} {f : MethodDecl → Work γ}
    (hf : ∀ m, P (.method m) → Keeps P (f m)) : Keeps P (methodOnTop expected >>= f) where
  kept w c w' hok hw := by
    obtain ⟨m, middle, htop, hlast⟩ := exists_of_bind hok
    obtain ⟨rfl, hm⟩ := methodOnTop_ok htop
    exact (hf m (hw _ hm)).kept _ c w' hlast hw

theorem keeps_updateMethod {change : MethodDecl → MethodDecl}
    (hchange : ∀ m, P (.method m) → P (.method (change m))) : Keeps P (updateMethod change) :=
  keeps_methodOnTop fun m hm => keeps_replaceTop (hchange m hm)

instance : Keeps P (onStacks (.onNodes SegmentStack.popOptional)) := by
  refine keeps_onNodes fun s b s' hok => ?_
  obtain ⟨segment, middle, hpop, hrest⟩ := exists_of_bind hok
  obtain rfl : middle = s' := by
    split at hrest <;> cases hrest <;> rfl
  rw [SegmentStack.items_of_popSegment hpop]
  exact List.subset_append_right ..

instance : Keeps P popParameters := by unfold popParameters popNodes; infer_instance
instance : Keeps P popOptionalNode := by unfold popOptionalNode; infer_instance

end Work

/-! ### Factories -/

namespace Factory

variable (f : Factory) (m : MethodDecl)

theorem isOpen_newPointcut : f.newPointcut.isOpen = true := by
  cases f <;> rfl

theorem isOpen_newAroundAdvice : f.newAroundAdvice.isOpen = true := by
  cases f <;> rfl

theorem isOpen_newBasicAdvice (after : Bool) :
    (if after then f.newAfterAdvice else f.newBeforeAdvice).isOpen = true := by
  cases f <;> cases after <;> rfl

theorem isOpen_newInterTypeField (onType : TypeRef) :
    (f.newInterTypeField onType).isOpen = true := by
  cases f <;> rfl

theorem isOpen_newInterTypeMethod : f.newInterTypeMethod.isOpen = true := by
  cases f <;> rfl

theorem isOpen_newInterTypeConstructor : f.newInterTypeConstructor.isOpen = true := by
  cases f <;> rfl

theorem isOpen_updateInterType (change : InterTypeMember → InterTypeMember) :
    (f.updateInterType change m).isOpen = m.isOpen := by
  unfold updateInterType
  split <;> rfl

theorem isOpen_setDesignator (fragment : Fragment) :
    (f.setDesignator fragment m).isOpen = m.isOpen := by
  unfold setDesignator
  dsimp only
  split <;> rfl

theorem isOpen_setExtra (parameter : Parameter) : (f.setExtra parameter m).isOpen = m.isOpen := by
  unfold setExtra
  split <;> rfl

theorem isOpen_narrowAfter (kind : AdviceKind) : (f.narrowAfter kind m).isOpen = m.isOpen := by
  unfold narrowAfter
  split
  · split <;> rfl
  · rfl

end Factory

/-! ### Actions -/

/-- Whether an action begins a method, or goes on with one before its body. -/
def SemanticAction.heads : SemanticAction → Bool
  | .none | .methodHeaderName _ | .constructorHeaderName | .methodHeader
  | .aspect .pointcutHeader | .aspect (.aroundHeaderName _) | .aspect (.adviceHeaderName _)
  | .aspect (.adviceHeader _) | .aspect (.interTypeFieldHeader _)
  | .aspect (.interTypeFieldBody _) | .aspect (.interTypeMethodHeaderName _)
  | .aspect (.interTypeConstructorHeaderName _) => true
  | _ => false

namespace Work

variable (dialect : Dialect) (c : Handle) (f : Factory) {action : SemanticAction}

theorem isOpen_applyExtra (extra : ExtraParameter) (m : MethodDecl) (r : Reporter) :
    (applyExtra f extra m r).1.isOpen = m.isOpen := by
  unfold applyExtra
  dsimp only
  split
  · rfl
  · split
    · rfl
    · rename_i n hnarrowed
      have hn : n.isOpen = m.isOpen := by
        split at hnarrowed
        · obtain rfl := Option.some.inj hnarrowed
          exact f.isOpen_narrowAfter m _
        · obtain rfl := Option.some.inj hnarrowed
          exact f.isOpen_narrowAfter m _
        · cases hnarrowed
      split
      · exact (f.isOpen_setExtra n _).trans hn
      · exact hn

theorem keeps_methodHeaderName (typeParameters : Bool) :
    Keeps (·.isUnended = true) (methodHeaderName typeParameters) := by
  refine keeps_bind inferInstance fun name => keeps_bind inferInstance fun returnType => ?_
  refine keeps_bind inferInstance fun parameters => keeps_bind inferInstance fun modifiers => ?_
  exact keeps_pushNode rfl

theorem keeps_constructorHeaderName : Keeps (·.isUnended = true) constructorHeaderName :=
  keeps_bind inferInstance fun _ => keeps_bind inferInstance fun _ => keeps_pushNode rfl

theorem keeps_methodHeader : Keeps (·.isUnended = true) (methodHeader c) :=
  keeps_bind inferInstance fun _ => keeps_bind inferInstance fun _ =>
    keeps_updateMethod fun _ hm => hm

theorem keeps_pointcutHeader : Keeps (·.isUnended = true) (pointcutHeader f) := by
  refine keeps_bind inferInstance fun name => keeps_bind inferInstance fun keyword => ?_
  exact keeps_bind inferInstance fun modifiers => keeps_pushNode f.isOpen_newPointcut

theorem keeps_aroundHeaderName (hasReturnType : Bool) :
    Keeps (·.isUnended = true) (aroundHeaderName f hasReturnType) := by
  refine keeps_bind inferInstance fun keyword => ?_
  have hrest : ∀ returnType, Keeps (·.isUnended = true) (do
      let modifiers ← popModifiers
      pushAdvice keyword returnType modifiers f.newAroundAdvice) :=
    fun _ => keeps_bind inferInstance fun _ => keeps_pushNode f.isOpen_newAroundAdvice
  cases hasReturnType with
  | true => exact keeps_bind inferInstance hrest
  | false => exact keeps_bind inferInstance fun _ => keeps_bind inferInstance hrest

theorem keeps_adviceHeaderName (after : Bool) :
    Keeps (·.isUnended = true) (adviceHeaderName f after) :=
  keeps_bind inferInstance fun _ => keeps_bind inferInstance fun _ =>
    keeps_pushNode (f.isOpen_newBasicAdvice after)

theorem keeps_completeAdvice (tokens : List Fragment) (throws : List TypeRef)
    (extra : Option ExtraParameter) :
    Keeps (·.isUnended = true) (completeAdvice f tokens throws extra c) := by
  refine keeps_bind inferInstance fun parameters => keeps_bind inferInstance fun designator => ?_
  refine keeps_methodOnTop fun m hm => ?_
  have hadvice : (f.setDesignator designator
      { m with parameters, throws, extent.declaration.stop := c.whole.stop }).isOpen = true :=
    (f.isOpen_setDesignator _ designator).trans hm
  cases extra with
  | none => exact keeps_replaceTop hadvice
  | some extra =>
      refine keeps_withReporter fun r => keeps_replaceTop ?_
      exact (isOpen_applyExtra f extra _ r).trans hadvice

theorem keeps_adviceHeader (hasExtra : Bool) :
    Keeps (·.isUnended = true) (adviceHeader f hasExtra c) := by
  refine keeps_bind inferInstance fun tokens => keeps_bind inferInstance fun throws => ?_
  have hrest := keeps_completeAdvice c f tokens throws
  cases hasExtra with
  | false => exact keeps_bind inferInstance hrest
  | true =>
      refine keeps_bind inferInstance fun n => ?_
      cases n with
      | none => exact keeps_bind inferInstance hrest
      | some n => exact keeps_bind inferInstance hrest

theorem keeps_interTypeFieldHeader (pattern : TargetForm) :
    Keeps (·.isUnended = true) (interTypeFieldHeader f pattern c) := by
  have hrest : ∀ name : Identifier, Keeps (·.isUnended = true) (do
      reportTargetForm pattern c
      let onType ← popName
      let type ← popType
      let modifiers ← popModifiers
      let field := { f.newInterTypeField (.ofName onType) with selector := name.name }
      let field := { f.setDeclaredModifiers modifiers.flags field with returnType := some type }
      pushNode (.method (headMethod name.span modifiers field))) := by
    intro name
    refine keeps_bind ?_ fun _ => keeps_bind inferInstance fun onType => ?_
    · unfold reportTargetForm
      cases pattern <;> infer_instance
    · refine keeps_bind inferInstance fun type => keeps_bind inferInstance fun modifiers => ?_
      refine keeps_pushNode ((f.isOpen_updateInterType _ _).trans ?_)
      exact f.isOpen_newInterTypeField _
  unfold interTypeFieldHeader
  cases pattern <;> exact keeps_bind inferInstance hrest

theorem keeps_interTypeFieldBody (hasInitializer : Bool) :
    Keeps (·.isUnended = true) (interTypeFieldBody f hasInitializer) := by
  cases hasInitializer with
  | false => exact inferInstanceAs (Keeps _ (pure ()))
  | true =>
      refine keeps_bind inferInstance fun value => keeps_updateMethod fun m hm => ?_
      exact (f.isOpen_updateInterType m _).trans hm

theorem keeps_interTypeMethodHeaderName (pattern : TargetForm) :
    Keeps (·.isUnended = true) (interTypeMethodHeaderName f pattern c) := by
  refine keeps_bind inferInstance fun name => keeps_bind ?_ fun _ => ?_
  · unfold reportTargetForm
    cases pattern <;> infer_instance
  · refine keeps_bind inferInstance fun onType => keeps_bind inferInstance fun returnType => ?_
    refine keeps_bind inferInstance fun modifiers => keeps_pushNode ?_
    refine (f.isOpen_updateInterType _ _).trans ((f.isOpen_updateInterType _ _).trans ?_)
    exact f.isOpen_newInterTypeMethod

theorem keeps_interTypeConstructorHeaderName (plus : Bool) :
    Keeps (·.isUnended = true) (interTypeConstructorHeaderName f plus c) := by
  have hrest : Keeps (·.isUnended = true) (do
      let onType ← popName
      let modifiers ← popModifiers
      let constructor :=
        { f.setTarget (.ofName onType) f.newInterTypeConstructor with
          selector := onType.join "_" ++ "_new" }
      let constructor := f.setDeclaredModifiers modifiers.flags constructor
      pushNode (.method (headMethod (c.span (if plus then 4 else 3)) modifiers constructor))) := by
    refine keeps_bind inferInstance fun onType => keeps_bind inferInstance fun modifiers => ?_
    refine keeps_pushNode ((f.isOpen_updateInterType _ _).trans ?_)
    exact (f.isOpen_updateInterType _ _).trans f.isOpen_newInterTypeConstructor
  unfold interTypeConstructorHeaderName
  cases plus with
  | false => exact hrest
  | true => exact keeps_bind inferInstance fun _ => hrest

/-- **Before its body, the actions leave a method open.** -/
theorem keeps_unended (h : action.heads = true) :
    Keeps (·.isUnended = true) (act dialect c action) := by
  unfold SemanticAction.heads at h
  split at h
  · exact inferInstanceAs (Keeps _ (pure ()))
  · exact keeps_methodHeaderName _
  · exact keeps_constructorHeaderName
  · exact keeps_methodHeader c
  · exact keeps_bind inferInstance fun f => keeps_pointcutHeader f
  · exact keeps_bind inferInstance fun f => keeps_aroundHeaderName f _
  · exact keeps_bind inferInstance fun f => keeps_adviceHeaderName f _
  · exact keeps_bind inferInstance fun f => keeps_adviceHeader c f _
  · exact keeps_bind inferInstance fun f => keeps_interTypeFieldHeader c f _
  · exact keeps_bind inferInstance fun f => keeps_interTypeFieldBody f _
  · exact keeps_bind inferInstance fun f => keeps_interTypeMethodHeaderName c f _
  · exact keeps_bind inferInstance fun f => keeps_interTypeConstructorHeaderName c f _
  · cases h

end Work

/-! ### Rules -/

/-- Whether a rule for methods in progress has an action that leaves methods open, and no other
declarations that might have ended. -/
def Rule.headsMethods (r : Rule) : Bool :=
  r.lhs.stage ≠ .any || (r.action.heads && (r.kindsUpTo r.rhs.length).all fun s =>
    s.role.stage = .any || !s.role.role.mayBeOpen)

theorem Language.rules_headMethods : ∀ r ∈ rules, r.headsMethods = true := by
  decide +kernel

namespace Rule

variable {r : Rule} {dialect : Dialect} {c : Handle} {w w' : Workspace}

/-- The action of a rule for methods in progress leaves them open. -/
theorem act_unended (hr : r ∈ Language.rules) (hstage : r.lhs.stage = .any)
    (h : w.values.nodes.Fits NodeKind.Shows (r.kindsUpTo r.rhs.length))
    (hact : Work.act dialect c r.action w = .ok () w') :
    ∀ n ∈ w'.values.nodes.items, n.isUnended = true := by
  have hheads := Language.rules_headMethods r hr
  obtain ⟨hacts, hkinds⟩ := Bool.and_eq_true_iff.mp
    ((Bool.or_eq_true_iff.mp hheads).resolve_left (by simp [hstage]))
  refine (Work.keeps_unended dialect c hacts).kept w () w' hact fun n hn => ?_
  obtain ⟨shape, hshape, hshows⟩ := h.exists_shape hn
  rcases Bool.or_eq_true_iff.mp (List.all_eq_true.mp hkinds shape hshape) with hany | hnever
  · exact hshows.unended (of_decide_eq_true hany)
  · have hrole := hshows.has.role
    have hclosed : shape.role.role.mayBeOpen = false := by simpa using hnever
    cases n with
    | method m =>
        generalize shape.role.role = role at hclosed hrole
        cases role <;> contradiction
    | _ => rfl

end Rule

/-! ### Machines -/

namespace Machine

variable {p : ParserSetup} {m m' : Machine}

/-- The nodes are of the kinds that the symbols leave, and methods in progress are open. -/
abbrev Marked (m : Machine) : Prop := m.Stands NodeKind.Shows

theorem Marked.staged (h : m.Marked) : m.Staged := by
  obtain ⟨symbols, hspells, hfits⟩ := h
  refine ⟨symbols, hspells, ?_⟩
  have hhas := hfits.recast (g := id) (fun _ => rfl) fun _ _ _ hshows => hshows.has
  rwa [List.map_id] at hhas

/-- A reduction leaves the methods open that are still in progress. -/
theorem marked_reduce {dialect : Dialect} {lookahead : Span} {state production : Nat}
    {below : List Nat} {kind : TokenKind} (h : m.Marked) (hbalanced : m.Balanced False)
    (hstates : m.states = state :: below)
    (haction : Language.tables.action state kind = .reduce production)
    (hreduce : reduce dialect production lookahead m = .ok () m') : m'.Marked := by
  obtain ⟨symbols, hspells, hkinds⟩ := h
  obtain ⟨r, lower, upper, kept, _, hreplaces⟩ :=
    replaces_of_reduce (fun _ _ h => h.has) hspells hkinds hbalanced hstates haction hreduce
  obtain ⟨c, hact⟩ := hreplaces.acts
  obtain ⟨symbols', rest, hafter, hkept, hkinds'⟩ := hreplaces.spells
  refine ⟨symbols', hafter, ?_⟩
  rw [hkinds', hreplaces.after, r.lhs.put_kindContext]
  have hhas := hreplaces.fits.recast (g := id) (fun _ => rfl) fun _ _ _ hshows => hshows.has
  rw [List.map_id] at hhas
  have hstage := Rule.act_reaches hreplaces.mem hhas hact hreplaces.roles
  refine SegmentStack.Fits.onto ?_ hkept
  refine hreplaces.roles.recast (fun _ => rfl) fun shape n hn hrole => ⟨⟨hrole, hstage n hn⟩, ?_⟩
  exact fun hany => Rule.act_unended hreplaces.mem hany hreplaces.fits hact n hn

/-- **A step leaves methods open while they are in progress.** -/
theorem marked_step {progress : Progress} (h : m.Marked) (hbalanced : m.Balanced False)
    (hstep : step p m = .ok progress m') : m'.Marked :=
  stands_step (fun _ _ _ _ _ _ hstates haction hreduce =>
    marked_reduce h hbalanced hstates haction hreduce) h hstep

end Machine

theorem Parser.marked_start (p : Parser) (stream : TokenStream) : (p.start stream).Marked :=
  ⟨[], .start, .empty⟩

end AspectLang
