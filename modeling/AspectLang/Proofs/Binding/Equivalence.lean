import AspectLang.Proofs.Binding.Grounded

/-! # Structural equality is symmetric and transitive

A plain reference equals a parameterized type of its name, but not the other way round.  Where no
name belongs to both kinds (`NamesApart`), every rule of equality can be read backwards and every
two of them one after the other.  So the converse of a closed relation is closed, and so is the
composition of two, and the largest equality is symmetric and transitive.  The comparison of two
bindings holds if and only if their own rule holds of equal types (`bindings_hold_iff`), which
carries both laws over from types to methods and fields. -/

namespace AspectLang

/-! ### Plain references and parameterized types -/

namespace Environment

/-- The names of the plain references. -/
def plainNames (e : Environment) : List (List String) :=
  e.types.toList.filterMap fun
    | .reference r => some r.name
    | _ => none

/-- The names of the parameterized types. -/
def parameterizedNames (e : Environment) : List (List String) :=
  e.types.toList.filterMap fun
    | .parameterized r _ _ => some r.name
    | _ => none

end Environment

/-- No name is one of a plain reference in some environment and one of a parameterized type in
some environment. -/
def NamesApart (environments : List Environment) : Prop :=
  ∀ e ∈ environments, ∀ e' ∈ environments, ∀ name ∈ e.plainNames, name ∉ e'.parameterizedNames

instance (environments : List Environment) : Decidable (NamesApart environments) :=
  inferInstanceAs (Decidable (∀ e ∈ environments, ∀ e' ∈ environments,
    ∀ name ∈ e.plainNames, name ∉ e'.parameterizedNames))

namespace EnvironmentPair

open Comparison

variable {p : EnvironmentPair} {R S : TypeId → TypeId → Prop} {e₁ e₂ e₃ : Environment}

/-- Two types about which both sides have the same rule. -/
structure Aligned (a b : TypeBinding) : Prop where
  uncaptured : ∀ v position wildcard sourceType, b ≠ .capture v position wildcard sourceType
  apart : ∀ r r' generic arguments, a = .reference r → b = .parameterized r' generic arguments →
    r.name ≠ r'.name

theorem aligned_of_namesApart {environments : List Environment} (h : NamesApart environments)
    (h₁ : e₁ ∈ environments) (h₂ : e₂ ∈ environments) (hlinked : e₂.Linked) {x y : Nat}
    {a b : TypeBinding} (ha : e₁.types[x]? = some a) (hb : e₂.types[y]? = some b) :
    Aligned a b where
  uncaptured := by
    rintro v position wildcard sourceType rfl
    exact hlinked.types y _ hb
  apart := by
    rintro r r' generic arguments rfl rfl hname
    refine h e₁ h₁ e₂ h₂ r.name ?_ ?_
    · exact List.mem_filterMap.mpr ⟨_, Array.mem_toList_iff.mpr (Array.mem_of_getElem? ha), rfl⟩
    · rw [hname]
      exact List.mem_filterMap.mpr ⟨_, Array.mem_toList_iff.mpr (Array.mem_of_getElem? hb), rfl⟩

/-- On aligned types the rule for plain and raw references compares types of one kind. -/
theorem Aligned.same_kind {l r : TypeBinding} {a b : ReferenceBinding} (h : Aligned l r)
    (hl : l = .raw a ∨ l = .reference a) (hr : r.reference? = some b) (hname : a.name = b.name)
    (hgeneric : r.isGeneric = false) (hraw : l.isRaw = r.isRaw) :
    (l = .raw a ∧ r = .raw b) ∨ (l = .reference a ∧ r = .reference b) := by
  cases r with
  | raw =>
      obtain rfl := Option.some.inj hr
      rcases hl with rfl | rfl
      · exact .inl ⟨rfl, rfl⟩
      · cases hraw
  | reference =>
      obtain rfl := Option.some.inj hr
      rcases hl with rfl | rfl
      · cases hraw
      · exact .inr ⟨rfl, rfl⟩
  | parameterized r' generic arguments =>
      obtain rfl := Option.some.inj hr
      rcases hl with rfl | rfl
      · cases hraw
      · exact absurd hname (h.apart a _ generic arguments rfl rfl)
  | generic => cases hgeneric
  | _ => cases hr

/-! ### Rules read backwards -/

/-- The two environments in the other order. -/
def swap (p : EnvironmentPair) : EnvironmentPair := ⟨p.right, p.left⟩

theorem optionRel_flip {l r : Option TypeId} (h : Option.Rel R l r) :
    Option.Rel (flip R) r l := by
  cases h with
  | none => exact .none
  | some hlr => exact .some hlr

theorem SameReference.symm {l r : ReferenceBinding} (h : SameReference l r) : SameReference r l :=
  ⟨h.name.symm, h.modifiers.symm⟩

theorem MethodRule.converse {l r : MethodBinding} (h : MethodRule R l r) :
    MethodRule (flip R) r l where
  selector := h.selector.symm
  returnType := optionRel_flip h.returnType
  throws := h.throws.flip
  declaringClass := optionRel_flip h.declaringClass
  typeVariables := h.typeVariables.flip
  parameters := h.parameters.flip

theorem DeclaringRule.converse {l r : Option VariableOwner} (h : DeclaringRule p R l r) :
    DeclaringRule p.swap (flip R) r l := by
  cases h with
  | nowhere => exact .nowhere
  | type htype => exact .type htype
  | method ha hb hmethod => exact .method hb ha hmethod.converse

theorem VariableRule.converse {l r : VariableType} (h : VariableRule p R l r) :
    VariableRule p.swap (flip R) r l where
  name := h.name.symm
  declaring := h.declaring.converse
  superclass := optionRel_flip h.superclass
  interfaces := h.interfaces.flip

theorem TypeRule.converse {l r : TypeBinding} (haligned : Aligned l r) (h : TypeRule p R l r) :
    TypeRule p.swap (flip R) r l := by
  cases h with
  | base id name name' => exact .base id name' name
  | array dims hleaf => exact .array dims hleaf
  | parameterized hsame harguments => exact .parameterized hsame.symm harguments.flip
  | wildcard kind hbound => exact .wildcard kind (optionRel_flip hbound)
  | typeVariable hv => exact .typeVariable hv.converse
  | capturedVariable position w s hv => exact absurd rfl (haligned.uncaptured _ position w s)
  | capture position hw hs => exact absurd rfl (haligned.uncaptured _ position _ _)
  | generic hsame hvariables => exact .generic hsame.symm hvariables.flip
  | default hl hr hsame hpool hgeneric hraw =>
      rcases haligned.same_kind hl hr hsame.name hgeneric hraw with ⟨rfl, rfl⟩ | ⟨rfl, rfl⟩
      · exact .default (.inl rfl) rfl hsame.symm hpool.symm rfl rfl
      · exact .default (.inr rfl) rfl hsame.symm hpool.symm rfl rfl

/-- **The converse of a closed relation is closed.** -/
theorem Equal.symm (haligned : ∀ (x y : Nat) a b, p.left.types[x]? = some a →
    p.right.types[y]? = some b → Aligned a b) {x y : TypeId} (h : p.Equal x y) :
    p.swap.Equal y x := by
  obtain ⟨R, hxy, hR⟩ := h
  refine ⟨flip R, hxy, fun y x hyx => ?_⟩
  obtain ⟨a, b, ha, hb, hrule⟩ := hR x y hyx
  exact ⟨b, a, hb, ha, hrule.converse (haligned x y a b ha hb)⟩

/-! ### Rules one after the other -/

theorem optionRel_comp {a b c : Option TypeId} (h : Option.Rel R a b) (h' : Option.Rel S b c) :
    Option.Rel (Relation.Comp R S) a c := by
  cases h with
  | none =>
      cases h' with
      | none => exact .none
  | some hab =>
      cases h' with
      | some hbc => exact .some ⟨_, hab, hbc⟩

theorem forall₂_comp {as bs cs : List TypeId} (h : List.Forall₂ R as bs)
    (h' : List.Forall₂ S bs cs) : List.Forall₂ (Relation.Comp R S) as cs := by
  induction h generalizing cs with
  | nil =>
      cases h' with
      | nil => exact .nil
  | cons hab _ ih =>
      cases h' with
      | cons hbc htail => exact .cons ⟨_, hab, hbc⟩ (ih htail)

theorem SameReference.trans {a b c : ReferenceBinding} (h : SameReference a b)
    (h' : SameReference b c) : SameReference a c :=
  ⟨h.name.trans h'.name, h.modifiers.trans h'.modifiers⟩

theorem MethodRule.comp {a b c : MethodBinding} (h : MethodRule R a b) (h' : MethodRule S b c) :
    MethodRule (Relation.Comp R S) a c where
  selector := h.selector.trans h'.selector
  returnType := optionRel_comp h.returnType h'.returnType
  throws := forall₂_comp h.throws h'.throws
  declaringClass := optionRel_comp h.declaringClass h'.declaringClass
  typeVariables := forall₂_comp h.typeVariables h'.typeVariables
  parameters := forall₂_comp h.parameters h'.parameters

theorem DeclaringRule.comp {a b c : Option VariableOwner} (h : DeclaringRule ⟨e₁, e₂⟩ R a b)
    (h' : DeclaringRule ⟨e₂, e₃⟩ S b c) : DeclaringRule ⟨e₁, e₃⟩ (Relation.Comp R S) a c := by
  cases h with
  | nowhere =>
      cases h' with
      | nowhere => exact .nowhere
  | type hab =>
      cases h' with
      | type hbc => exact .type ⟨_, hab, hbc⟩
  | method ha hb hmethod =>
      cases h' with
      | method hb' hc hmethod' =>
          obtain rfl := Option.some.inj (hb.symm.trans hb')
          exact .method ha hc (hmethod.comp hmethod')

theorem VariableRule.comp {a b c : VariableType} (h : VariableRule ⟨e₁, e₂⟩ R a b)
    (h' : VariableRule ⟨e₂, e₃⟩ S b c) : VariableRule ⟨e₁, e₃⟩ (Relation.Comp R S) a c where
  name := h.name.trans h'.name
  declaring := h.declaring.comp h'.declaring
  superclass := optionRel_comp h.superclass h'.superclass
  interfaces := forall₂_comp h.interfaces h'.interfaces

/-- After a plain or raw reference comes what its own rule allows. -/
theorem TypeRule.default_inv {l r : TypeBinding} {a : ReferenceBinding} (h : TypeRule p R l r)
    (hl : l = .raw a ∨ l = .reference a) : ∃ b, r.reference? = some b ∧ SameReference a b ∧
      a.poolName = b.poolName ∧ r.isGeneric = false ∧ l.isRaw = r.isRaw := by
  cases h with
  | default hl' hr hsame hpool hgeneric hraw =>
      rename_i a' b
      have heq : a = a' := by
        rcases hl with rfl | rfl <;> rcases hl' with hl' | hl' <;> cases hl' <;> rfl
      subst heq
      exact ⟨b, hr, hsame, hpool, hgeneric, hraw⟩
  | _ => rcases hl with hl | hl <;> cases hl

theorem TypeRule.comp {a b c : TypeBinding} (haligned : Aligned a b)
    (h : TypeRule ⟨e₁, e₂⟩ R a b) (h' : TypeRule ⟨e₂, e₃⟩ S b c) :
    TypeRule ⟨e₁, e₃⟩ (Relation.Comp R S) a c := by
  cases h with
  | base id name name' =>
      cases h' with
      | base _ _ name'' => exact .base id name name''
      | default hl => rcases hl with hl | hl <;> cases hl
  | array dims hleaf =>
      cases h' with
      | array _ hleaf' => exact .array dims ⟨_, hleaf, hleaf'⟩
      | default hl => rcases hl with hl | hl <;> cases hl
  | parameterized hsame harguments =>
      cases h' with
      | parameterized hsame' harguments' =>
          exact .parameterized (hsame.trans hsame') (forall₂_comp harguments harguments')
      | default hl => rcases hl with hl | hl <;> cases hl
  | wildcard kind hbound =>
      cases h' with
      | wildcard _ hbound' => exact .wildcard kind (optionRel_comp hbound hbound')
      | default hl => rcases hl with hl | hl <;> cases hl
  | typeVariable hv =>
      cases h' with
      | typeVariable hv' => exact .typeVariable (hv.comp hv')
      | capturedVariable position w s hv' => exact .capturedVariable position w s (hv.comp hv')
      | default hl => rcases hl with hl | hl <;> cases hl
  | capturedVariable position w s hv => exact absurd rfl (haligned.uncaptured _ position w s)
  | capture position hw hs => exact absurd rfl (haligned.uncaptured _ position _ _)
  | generic hsame hvariables =>
      cases h' with
      | generic hsame' hvariables' =>
          exact .generic (hsame.trans hsame') (forall₂_comp hvariables hvariables')
      | default hl => rcases hl with hl | hl <;> cases hl
  | default hl hr hsame hpool hgeneric hraw =>
      have hkind := haligned.same_kind hl hr hsame.name hgeneric hraw
      obtain ⟨d, hd, hsame', hpool', hgeneric', hraw'⟩ :=
        h'.default_inv (hkind.imp And.right And.right)
      exact .default hl hd (hsame.trans hsame') (hpool.trans hpool') hgeneric' (hraw.trans hraw')

/-- **The composition of two closed relations is closed.** -/
theorem Equal.trans (haligned : ∀ (x y : Nat) a b, e₁.types[x]? = some a →
    e₂.types[y]? = some b → Aligned a b) {x y z : TypeId} (h : Equal ⟨e₁, e₂⟩ x y)
    (h' : Equal ⟨e₂, e₃⟩ y z) : Equal ⟨e₁, e₃⟩ x z := by
  obtain ⟨R, hxy, hR⟩ := h
  obtain ⟨S, hyz, hS⟩ := h'
  refine ⟨Relation.Comp R S, ⟨y, hxy, hyz⟩, ?_⟩
  rintro x z ⟨y, hxy, hyz⟩
  obtain ⟨a, b, ha, hb, hrule⟩ := hR x y hxy
  obtain ⟨b', c, hb', hc, hrule'⟩ := hS y z hyz
  obtain rfl := Option.some.inj (hb.symm.trans hb')
  exact ⟨a, c, ha, hc, hrule.comp (haligned x y a b ha hb) hrule'⟩

/-! ### Bindings -/

/-- Fields are equal in flags and name, and component by component. -/
structure FieldRule (R : TypeId → TypeId → Prop) (l r : FieldBinding) : Prop where
  flags : l.modifiers &&& Modifiers.classFileMask = r.modifiers &&& Modifiers.classFileMask
  name : l.name = r.name
  type : Option.Rel R l.type r.type
  declaringClass : Option.Rel R l.declaringClass r.declaringClass

/-- Local variables are equal in flags, name, type and position. -/
structure LocalRule (R : TypeId → TypeId → Prop) (l r : VariableBinding) : Prop where
  flags : l.modifiers &&& Modifiers.classFileMask = r.modifiers &&& Modifiers.classFileMask
  name : l.name = r.name
  type : Option.Rel R l.type r.type
  position : l.position = r.position

/-- When two bindings are equal, given the equality of types. -/
inductive BindingRule (p : EnvironmentPair) (R : TypeId → TypeId → Prop) :
    Binding → Binding → Prop
  | type {l r : TypeId} : R l r → BindingRule p R (.type l) (.type r)
  | method {l r : MethodId} {a b : MethodBinding} : p.left.methods[l]? = some a →
      p.right.methods[r]? = some b → MethodRule R a b → BindingRule p R (.method l) (.method r)
  | field {l r : FieldId} {a b : FieldBinding} : p.left.fields[l]? = some a →
      p.right.fields[r]? = some b → FieldRule R a b → BindingRule p R (.field l) (.field r)
  | localVariable {l r : VariableId} {a b : VariableBinding} : p.left.locals[l]? = some a →
      p.right.locals[r]? = some b → LocalRule R a b →
        BindingRule p R (.localVariable l) (.localVariable r)
  | package (name : List String) : BindingRule p R (.package name) (.package name)
  | importing (name : List String) (isStatic onDemand : Bool) :
      BindingRule p R (.importing name isStatic onDemand) (.importing name isStatic onDemand)

section

variable {T : MetPairs → MetPairs → Prop} {met after : MetPairs} (h : Traces T p.compareTypes)

include h

theorem compareFields_passes {l r : FieldBinding}
    (hpass : (p.compareFields l r).Passes met after) :
    T met after ∧ FieldRule (Via T p.compareTypes met after) l r := by
  unfold compareFields at hpass
  simp only [guarded_passes, andThen_passes, Bool.and_eq_true, beq_iff_eq,
    Modifiers.agreeInFlags] at hpass
  obtain ⟨⟨hflags, hname⟩, between, h₁, h₂⟩ := hpass
  obtain ⟨t₁, htype⟩ := h.optional h₁
  obtain ⟨t₂, hclass⟩ := h.optional h₂
  exact ⟨h.trans _ _ _ t₁ t₂, hflags, hname,
    optionRel_mono (fun _ _ => h.widen (h.refl _) t₂) htype,
    optionRel_mono (fun _ _ => h.widen t₁ (h.refl _)) hclass⟩

theorem compareVariables_passes {l r : VariableBinding}
    (hpass : (p.compareVariables l r).Passes met after) :
    T met after ∧ LocalRule (Via T p.compareTypes met after) l r := by
  unfold compareVariables at hpass
  simp only [guarded_passes, andThen_passes, pure_passes, Bool.and_eq_true, beq_iff_eq,
    Modifiers.agreeInFlags] at hpass
  obtain ⟨⟨hflags, hname⟩, between, h₁, hposition, rfl⟩ := hpass
  obtain ⟨t₁, htype⟩ := h.optional h₁
  exact ⟨t₁, hflags, hname, htype, hposition⟩

theorem compareBindings_passes {l r : Binding}
    (hpass : (p.compareBindings l r).Passes met after) :
    T met after ∧ BindingRule p (Via T p.compareTypes met after) l r := by
  unfold compareBindings stepMethodId at hpass
  split at hpass
  · obtain ⟨hT, hvia⟩ := h.single hpass
    exact ⟨hT, .type hvia⟩
  · split at hpass
    · rename_i ha hb
      obtain ⟨hT, hrule⟩ := stepMethod_passes h hpass
      exact ⟨hT, .method ha hb hrule⟩
    · cases (pure_passes.mp hpass).1
  · split at hpass
    · rename_i ha hb
      obtain ⟨hT, hrule⟩ := compareFields_passes h hpass
      exact ⟨hT, .field ha hb hrule⟩
    · cases (pure_passes.mp hpass).1
  · split at hpass
    · rename_i ha hb
      obtain ⟨hT, hrule⟩ := compareVariables_passes h hpass
      exact ⟨hT, .localVariable ha hb hrule⟩
    · cases (pure_passes.mp hpass).1
  · obtain ⟨heq, rfl⟩ := pure_passes.mp hpass
    rw [beq_iff_eq] at heq
    subst heq
    exact ⟨h.refl _, .package _⟩
  · obtain ⟨heq, rfl⟩ := pure_passes.mp hpass
    simp only [Bool.and_eq_true, beq_iff_eq] at heq
    obtain ⟨⟨rfl, rfl⟩, rfl⟩ := heq
    exact ⟨h.refl _, .importing _ _ _⟩
  · cases (pure_passes.mp hpass).1

end

theorem BindingRule.mono {l r : Binding} (h : BindingRule p R l r)
    (hR : ∀ x y, R x y → S x y) : BindingRule p S l r := by
  cases h with
  | type htype => exact .type (hR _ _ htype)
  | method ha hb hrule => exact .method ha hb (hrule.mono hR)
  | field ha hb hrule =>
      exact .field ha hb ⟨hrule.flags, hrule.name, optionRel_mono hR hrule.type,
        optionRel_mono hR hrule.declaringClass⟩
  | localVariable ha hb hrule =>
      exact .localVariable ha hb ⟨hrule.flags, hrule.name, optionRel_mono hR hrule.type,
        hrule.position⟩
  | package name => exact .package name
  | importing name isStatic onDemand => exact .importing name isStatic onDemand

theorem sure_compareBindings {P : MetPairs → Prop} {l r : Binding}
    (h : BindingRule p (fun x y => (p.compareTypes x y).Sure P) l r) :
    (p.compareBindings l r).Sure P := by
  cases h with
  | type htype => exact htype
  | method ha hb hrule =>
      unfold compareBindings stepMethodId
      dsimp only
      rw [ha, hb]
      exact sure_stepMethod hrule
  | field ha hb hrule =>
      unfold compareBindings compareFields
      dsimp only
      rw [ha, hb]
      refine .guarded ?_ ((sure_optional hrule.type).andThen (sure_optional hrule.declaringClass))
      simp [Modifiers.agreeInFlags, hrule.flags, hrule.name]
  | localVariable ha hb hrule =>
      unfold compareBindings compareVariables
      dsimp only
      rw [ha, hb]
      refine .guarded ?_ ((sure_optional hrule.type).andThen (sure_pure ?_))
      · simp [Modifiers.agreeInFlags, hrule.flags, hrule.name]
      · simp [hrule.position]
  | package name => exact sure_pure (by simp)
  | importing name isStatic onDemand => exact sure_pure (by simp)

/-- **Comparisons of bindings decide the rule of bindings** over equal types. -/
theorem bindings_hold_iff (hleft : p.left.Grounded) {l r : Binding} :
    (p.compareBindings l r).holds = true ↔ BindingRule p p.Equal l r := by
  rw [holds_iff_passes]
  constructor
  · rintro ⟨V, hpass⟩
    have htraces : Traces (p.Justifies V) p.compareTypes :=
      ⟨justifies_refl, fun _ _ _ => Justifies.trans, fun _ _ _ _ => justified⟩
    obtain ⟨hjustifies, hrule⟩ := compareBindings_passes htraces hpass
    refine hrule.mono ?_
    rintro x y ⟨before, then', _, hthen, hxy⟩
    exact ⟨p.PassesWith V, ⟨p.depthLimit, replay hxy hthen.1⟩, closed_of_justifies hjustifies⟩
  · intro hrule
    have hsure := sure_compareBindings (hrule.mono fun _ _ => sure_of_equal hleft)
    obtain ⟨after, hpass, _⟩ := hsure [] notes_nil
    exact ⟨after, hpass⟩

theorem BindingRule.converse {l r : Binding} (h : BindingRule p R l r) :
    BindingRule p.swap (flip R) r l := by
  cases h with
  | type htype => exact .type htype
  | method ha hb hrule => exact .method hb ha hrule.converse
  | field ha hb hrule =>
      exact .field hb ha ⟨hrule.flags.symm, hrule.name.symm, optionRel_flip hrule.type,
        optionRel_flip hrule.declaringClass⟩
  | localVariable ha hb hrule =>
      exact .localVariable hb ha ⟨hrule.flags.symm, hrule.name.symm, optionRel_flip hrule.type,
        hrule.position.symm⟩
  | package name => exact .package name
  | importing name isStatic onDemand => exact .importing name isStatic onDemand

theorem BindingRule.comp {a b c : Binding} (h : BindingRule ⟨e₁, e₂⟩ R a b)
    (h' : BindingRule ⟨e₂, e₃⟩ S b c) : BindingRule ⟨e₁, e₃⟩ (Relation.Comp R S) a c := by
  cases h with
  | type hab =>
      cases h' with
      | type hbc => exact .type ⟨_, hab, hbc⟩
  | method ha hb hrule =>
      cases h' with
      | method hb' hc hrule' =>
          obtain rfl := Option.some.inj (hb.symm.trans hb')
          exact .method ha hc (hrule.comp hrule')
  | field ha hb hrule =>
      cases h' with
      | field hb' hc hrule' =>
          obtain rfl := Option.some.inj (hb.symm.trans hb')
          exact .field ha hc ⟨hrule.flags.trans hrule'.flags, hrule.name.trans hrule'.name,
            optionRel_comp hrule.type hrule'.type,
            optionRel_comp hrule.declaringClass hrule'.declaringClass⟩
  | localVariable ha hb hrule =>
      cases h' with
      | localVariable hb' hc hrule' =>
          obtain rfl := Option.some.inj (hb.symm.trans hb')
          exact .localVariable ha hc ⟨hrule.flags.trans hrule'.flags,
            hrule.name.trans hrule'.name, optionRel_comp hrule.type hrule'.type,
            hrule.position.trans hrule'.position⟩
  | package name =>
      cases h' with
      | package => exact .package name
  | importing name isStatic onDemand =>
      cases h' with
      | importing => exact .importing name isStatic onDemand

end EnvironmentPair

/-! ### Units -/

open EnvironmentPair

section

variable {u₁ u₂ u₃ : CompilationUnit} {environments : List Environment}
  (h : NamesApart environments)

include h

theorem aligned_of_resolve (h₁ : u₁.resolve ∈ environments) (h₂ : u₂.resolve ∈ environments)
    (x y : Nat) (a b : TypeBinding) (ha : u₁.resolve.types[x]? = some a)
    (hb : u₂.resolve.types[y]? = some b) : Aligned a b :=
  aligned_of_namesApart h h₁ h₂ u₂.resolve_linked ha hb

theorem bindingsEqual_of_converse (h₁ : u₁.resolve ∈ environments)
    (h₂ : u₂.resolve ∈ environments) {a b : Binding}
    (hab : bindingsEqual u₁.resolve a u₂.resolve b = true) :
    bindingsEqual u₂.resolve b u₁.resolve a = true := by
  have hrule := (bindings_hold_iff (p := ⟨u₁.resolve, u₂.resolve⟩) u₁.resolve_grounded).mp hab
  refine (bindings_hold_iff (p := ⟨u₂.resolve, u₁.resolve⟩) u₂.resolve_grounded).mpr ?_
  exact hrule.converse.mono fun _ _ => Equal.symm (aligned_of_resolve h h₁ h₂)

theorem bindingsEqual_symm (h₁ : u₁.resolve ∈ environments) (h₂ : u₂.resolve ∈ environments)
    (a b : Binding) :
    bindingsEqual u₁.resolve a u₂.resolve b = bindingsEqual u₂.resolve b u₁.resolve a :=
  Bool.eq_iff_iff.mpr
    ⟨bindingsEqual_of_converse h h₁ h₂, bindingsEqual_of_converse h h₂ h₁⟩

theorem bindingsEqual_trans (h₁ : u₁.resolve ∈ environments) (h₂ : u₂.resolve ∈ environments)
    {a b c : Binding} (hab : bindingsEqual u₁.resolve a u₂.resolve b = true)
    (hbc : bindingsEqual u₂.resolve b u₃.resolve c = true) :
    bindingsEqual u₁.resolve a u₃.resolve c = true := by
  have hrule := (bindings_hold_iff (p := ⟨u₁.resolve, u₂.resolve⟩) u₁.resolve_grounded).mp hab
  have hrule' := (bindings_hold_iff (p := ⟨u₂.resolve, u₃.resolve⟩) u₂.resolve_grounded).mp hbc
  refine (bindings_hold_iff (p := ⟨u₁.resolve, u₃.resolve⟩) u₁.resolve_grounded).mpr ?_
  refine (hrule.comp hrule').mono ?_
  rintro x z ⟨y, hxy, hyz⟩
  exact hxy.trans (aligned_of_resolve h h₁ h₂) hyz

end

/-- **Equality of bindings is symmetric and transitive** over units in which no name belongs to
both a plain reference and a parameterized type. -/
theorem equality_symmetric_transitive (u₁ u₂ u₃ : CompilationUnit)
    (h : NamesApart [u₁.resolve, u₂.resolve, u₃.resolve]) :
    (∀ a b : TypeId, typesEqual u₁.resolve a u₂.resolve b = typesEqual u₂.resolve b u₁.resolve a) ∧
    (∀ a b c : TypeId, typesEqual u₁.resolve a u₂.resolve b = true →
      typesEqual u₂.resolve b u₃.resolve c = true →
        typesEqual u₁.resolve a u₃.resolve c = true) ∧
    (∀ a b : Binding,
      bindingsEqual u₁.resolve a u₂.resolve b = bindingsEqual u₂.resolve b u₁.resolve a) ∧
    (∀ a b c : Binding, bindingsEqual u₁.resolve a u₂.resolve b = true →
      bindingsEqual u₂.resolve b u₃.resolve c = true →
        bindingsEqual u₁.resolve a u₃.resolve c = true) := by
  have h₁ : u₁.resolve ∈ [u₁.resolve, u₂.resolve, u₃.resolve] := by simp
  have h₂ : u₂.resolve ∈ [u₁.resolve, u₂.resolve, u₃.resolve] := by simp
  have hsymm := bindingsEqual_symm h h₁ h₂
  have htrans : ∀ a b c : Binding, bindingsEqual u₁.resolve a u₂.resolve b = true →
      bindingsEqual u₂.resolve b u₃.resolve c = true →
        bindingsEqual u₁.resolve a u₃.resolve c = true :=
    fun _ _ _ => bindingsEqual_trans h h₁ h₂
  exact ⟨fun a b => hsymm (.type a) (.type b),
    fun a b c => htrans (.type a) (.type b) (.type c), hsymm, htrans⟩

/-! ### An example -/

/-- The type `T`. -/
def variableT : TypeRef := ⟨[⟨"T", [], {}⟩], 0, false, {}⟩

/-- Classes without members and then `class Box<T extends Comparable<T>> { T get(); }`. -/
def boxes (others : List String) : CompilationUnit where
  types := others.map (fun name => { TypeDecl.new .classType with name }) ++
    [{ TypeDecl.new .classType with
      name := "Box"
      typeParameters := [⟨"T", [⟨[⟨"Comparable", [.type variableT], {}⟩], 0, false, {}⟩], {}⟩]
      members := [.method { kind := .method, selector := "get", returnType := some variableT }] }]

theorem boxes_symmetric_transitive :
    NamesApart [(boxes ["A"]).resolve, (boxes []).resolve, (boxes ["B", "C"]).resolve] ∧
    typesEqual (boxes []).resolve 0 (boxes ["A"]).resolve 1 = true ∧
    bindingsEqual (boxes ["A"]).resolve (.method 0) (boxes ["B", "C"]).resolve (.method 0) =
      true := by
  have hapart : NamesApart
      [(boxes ["A"]).resolve, (boxes []).resolve, (boxes ["B", "C"]).resolve] := by
    decide +kernel
  obtain ⟨hsymm, _, _, htrans⟩ :=
    equality_symmetric_transitive (boxes ["A"]) (boxes []) (boxes ["B", "C"]) hapart
  refine ⟨hapart, ?_, ?_⟩
  · rw [← hsymm 1 0]
    decide +kernel
  · exact htrans (.method 0) (.method 0) (.method 0) (by decide +kernel) (by decide +kernel)

end AspectLang

/-! ## Lists of types compared at once

A comparison of two lists goes from pair to pair with the notes of all pairs before.  That a pair
was noted says only that it was taken for equal, but the comparison comes to the next pair only if
all of the pairs before passed; so when the lists pass, every note is justified by a rule of types
that pass with all of the notes, and each pair is equal by itself
(`EnvironmentPair.lists_hold_iff`).  Conversely equal types pass whatever was noted before them. -/

namespace AspectLang

namespace EnvironmentPair

open Comparison

variable {p : EnvironmentPair} {ls rs : List TypeId}

/-- **Comparisons of lists decide the equality of their types**, pair by pair. -/
theorem lists_hold_iff (hleft : p.left.Grounded) :
    (lists p.compareTypes ls rs).holds = true ↔ List.Forall₂ p.Equal ls rs := by
  rw [holds_iff_passes]
  constructor
  · rintro ⟨V, hpass⟩
    have htraces : Traces (p.Justifies V) p.compareTypes :=
      ⟨justifies_refl, fun _ _ _ => Justifies.trans, fun _ _ _ _ => justified⟩
    obtain ⟨hjustifies, hpairs⟩ := htraces.lists hpass
    have hclosed : p.Closed (p.PassesWith V) := closed_of_justifies hjustifies
    refine hpairs.imp ?_
    rintro l r ⟨before, after, _, hafter, hpair⟩
    exact ⟨p.PassesWith V, ⟨p.depthLimit, replay hpair hafter.1⟩, hclosed⟩
  · intro hpairs
    have hsure : (lists p.compareTypes ls rs).Sure p.Notes :=
      sure_lists (hpairs.imp fun _ _ => sure_of_equal hleft)
    obtain ⟨after, hpass, _⟩ := hsure [] notes_nil
    exact ⟨after, hpass⟩

end EnvironmentPair

variable {e e' : Environment} {ls rs : List TypeId}

/-- Bindings of types are compared one by one, each from the start. -/
theorem bindingListsEqual_types :
    bindingListsEqual (ls.map fun l => (e, .type l)) (rs.map fun r => (e', .type r)) = true ↔
      List.Forall₂ (fun l r => typesEqual e l e' r = true) ls rs := by
  induction ls generalizing rs with
  | nil =>
      cases rs with
      | nil => simp [bindingListsEqual]
      | cons r rs => simp [bindingListsEqual]
  | cons l ls ih =>
      cases rs with
      | nil => simp [bindingListsEqual]
      | cons r rs =>
          rw [List.map_cons, List.map_cons, bindingListsEqual, Bool.and_eq_true, ih,
            List.forall₂_cons]
          exact Iff.rfl

/-- **One comparison of two lists of types agrees with one comparison for each pair**, each of which
starts without notes, and with the comparison of the types as bindings. -/
theorem type_lists_compared_apart (u u' : CompilationUnit) (ls rs : List TypeId) :
    (typeListsEqual u.resolve ls u'.resolve rs = true ↔ ls.length = rs.length ∧
      ∀ pair ∈ ls.zip rs, typesEqual u.resolve pair.1 u'.resolve pair.2 = true) ∧
    typeListsEqual u.resolve ls u'.resolve rs =
      bindingListsEqual (ls.map fun l => (u.resolve, .type l))
        (rs.map fun r => (u'.resolve, .type r)) := by
  have hpairs : typeListsEqual u.resolve ls u'.resolve rs = true ↔
      List.Forall₂ (fun l r => typesEqual u.resolve l u'.resolve r = true) ls rs := by
    have hgrounded := u.resolve_grounded
    refine (EnvironmentPair.lists_hold_iff (p := ⟨u.resolve, u'.resolve⟩) hgrounded).trans ?_
    exact Iff.of_eq <| congrArg (List.Forall₂ · ls rs) <| funext fun l => funext fun r =>
      propext (EnvironmentPair.holds_iff_equal (p := ⟨u.resolve, u'.resolve⟩) hgrounded).symm
  refine ⟨?_, Bool.eq_iff_iff.mpr (hpairs.trans bindingListsEqual_types.symm)⟩
  rw [hpairs, List.forall₂_iff_zip]
  exact and_congr_right fun _ => ⟨fun h pair => h, fun h _ _ => h (_, _)⟩

end AspectLang
