import AspectLang.Binding.Comparison
import Mathlib.Data.List.Forall2
import Mathlib.Data.Option.Basic
import Mathlib.Data.Option.Defs

/-! # The rules of structural equality

`EnvironmentPair.TypeRule` states, rule by rule, when two types are equal given which of their
components are.  A comparison that holds `Passes` from the pairs it had met to those it has met
then.  When a comparison by components passes, its rule holds of components that passed on the way
(`body_passes`); and when a rule holds of components that are sure to pass, so does the comparison
(`body_sure`). -/

namespace AspectLang

/-! ### Rules -/

namespace EnvironmentPair

/-- Methods are equal component by component. -/
structure MethodRule (R : TypeId → TypeId → Prop) (l r : MethodBinding) : Prop where
  selector : l.selector = r.selector
  returnType : Option.Rel R l.returnType r.returnType
  throws : List.Forall₂ R l.throws r.throws
  declaringClass : Option.Rel R l.declaringClass r.declaringClass
  typeVariables : List.Forall₂ R l.typeVariables r.typeVariables
  parameters : List.Forall₂ R l.parameters r.parameters

/-- Places where type variables are declared are equal types or equal methods. -/
inductive DeclaringRule (p : EnvironmentPair) (R : TypeId → TypeId → Prop) :
    Option VariableOwner → Option VariableOwner → Prop
  | nowhere : DeclaringRule p R none none
  | type {l r : TypeId} : R l r → DeclaringRule p R (some (.type l)) (some (.type r))
  | method {l r : MethodId} {a b : MethodBinding} : p.left.methods[l]? = some a →
      p.right.methods[r]? = some b → MethodRule R a b →
        DeclaringRule p R (some (.method l)) (some (.method r))

/-- Type variables are equal in name, place of declaration and bounds. -/
structure VariableRule (p : EnvironmentPair) (R : TypeId → TypeId → Prop) (l r : VariableType) :
    Prop where
  name : l.name = r.name
  declaring : DeclaringRule p R l.declaring r.declaring
  superclass : Option.Rel R l.superclass r.superclass
  interfaces : List.Forall₂ R l.interfaces r.interfaces

/-- References with the same name and the same modifiers where it matters. -/
structure SameReference (l r : ReferenceBinding) : Prop where
  name : l.name = r.name
  modifiers : l.modifiers &&& Modifiers.equalityMask = r.modifiers &&& Modifiers.equalityMask

/-- When two types are equal, given the equality of their components. -/
inductive TypeRule (p : EnvironmentPair) (R : TypeId → TypeId → Prop) :
    TypeBinding → TypeBinding → Prop
  | base (id : Nat) (name name' : String) : TypeRule p R (.base id name) (.base id name')
  | array {leaf leaf' : TypeId} (dims : Nat) : R leaf leaf' →
      TypeRule p R (.array leaf dims) (.array leaf' dims)
  | parameterized {l r : ReferenceBinding} {generic generic' : Option TypeId}
      {arguments arguments' : List TypeId} : SameReference l r →
        List.Forall₂ R arguments arguments' →
          TypeRule p R (.parameterized l generic arguments) (.parameterized r generic' arguments')
  | wildcard (kind : WildcardKind) {bound bound' : Option TypeId} : Option.Rel R bound bound' →
      TypeRule p R (.wildcard kind bound) (.wildcard kind bound')
  | typeVariable {l r : VariableType} : VariableRule p R l r →
      TypeRule p R (.typeVariable l) (.typeVariable r)
  | capturedVariable {l r : VariableType} (position : Nat) (wildcard sourceType : Option TypeId) :
      VariableRule p R l r → TypeRule p R (.typeVariable l) (.capture r position wildcard sourceType)
  | capture {l r : VariableType} (position : Nat) {wildcard wildcard' : Option TypeId}
      {sourceType sourceType' : Option TypeId} : Option.Rel R wildcard wildcard' →
        Option.Rel R sourceType sourceType' →
          TypeRule p R (.capture l position wildcard sourceType)
            (.capture r position wildcard' sourceType')
  | generic {l r : ReferenceBinding} : SameReference l r →
      List.Forall₂ R l.typeVariables r.typeVariables → TypeRule p R (.generic l) (.generic r)
  /-- A plain or raw reference only asks that the other side is no generic declaration. -/
  | default {l r : TypeBinding} {a b : ReferenceBinding} : l = .raw a ∨ l = .reference a →
      r.reference? = some b → SameReference a b → a.poolName = b.poolName → r.isGeneric = false →
        l.isRaw = r.isRaw → TypeRule p R l r

/-- Two types, by number, are equal by one rule. -/
def Steps (p : EnvironmentPair) (R : TypeId → TypeId → Prop) (l r : TypeId) : Prop :=
  ∃ a b, p.left.types[l]? = some a ∧ p.right.types[r]? = some b ∧ TypeRule p R a b

end EnvironmentPair

/-! ### Comparisons that hold -/

namespace Comparison

/-- The comparison holds; it takes the pairs met from `met` to `after`. -/
def Passes (c : Comparison) (met after : MetPairs) : Prop := c met = some (true, after)

variable {a b c : Comparison} {met after : MetPairs} {test : Bool}

@[simp]
theorem pure_passes : Passes (pure test) met after ↔ test = true ∧ after = met := by
  change some (test, met) = some (true, after) ↔ _
  simp [eq_comm]

@[simp]
theorem guarded_passes : (guarded test a).Passes met after ↔ test = true ∧ a.Passes met after := by
  cases test with
  | true => simp [guarded]
  | false => simp [guarded]

@[simp]
theorem andThen_passes :
    (a.andThen b).Passes met after ↔ ∃ between, a.Passes met between ∧ b.Passes between after := by
  unfold Passes andThen
  simp only [bind, StateT.bind, Option.bind]
  cases ha : a met with
  | none => simp
  | some out =>
      obtain ⟨answer, between⟩ := out
      cases answer with
      | false =>
          simp only [Bool.false_eq_true, if_false, Option.some.injEq, Prod.mk.injEq, false_and,
            exists_false, iff_false]
          intro h
          cases h
      | true => simp

@[simp]
theorem meeting_passes {pair : TypeId × TypeId} : (meeting pair a).Passes met after ↔
    (pair ∈ met ∧ after = met) ∨ (pair ∉ met ∧ a.Passes (pair :: met) after) := by
  have h : meeting pair a met = if met.contains pair then some (true, met) else a (pair :: met) := by
    unfold meeting
    simp only [bind, StateT.bind, Option.bind, get, getThe, MonadStateOf.get, StateT.get, pure,
      modify, modifyGet, MonadStateOf.modifyGet]
    split <;> rfl
  unfold Passes
  rw [h]
  by_cases hpair : pair ∈ met
  · simp [hpair, eq_comm]
  · simp [hpair]

/-- The comparison holds from any pairs with a property, and keeps the property. -/
def Sure (P : MetPairs → Prop) (c : Comparison) : Prop :=
  ∀ met, P met → ∃ after, c.Passes met after ∧ P after

theorem Sure.andThen {P : MetPairs → Prop} (ha : a.Sure P) (hb : b.Sure P) :
    (a.andThen b).Sure P := by
  intro met hmet
  obtain ⟨between, hpass, hbetween⟩ := ha met hmet
  obtain ⟨after, hpass', hafter⟩ := hb between hbetween
  exact ⟨after, andThen_passes.mpr ⟨between, hpass, hpass'⟩, hafter⟩

theorem Sure.guarded {P : MetPairs → Prop} (htest : test = true) (ha : a.Sure P) :
    (Comparison.guarded test a).Sure P := by
  intro met hmet
  obtain ⟨after, hpass, hafter⟩ := ha met hmet
  exact ⟨after, guarded_passes.mpr ⟨htest, hpass⟩, hafter⟩

theorem sure_pure {P : MetPairs → Prop} (htest : test = true) : Sure P (pure test) :=
  fun met hmet => ⟨met, pure_passes.mpr ⟨htest, rfl⟩, hmet⟩

/-! ### Components that pass on the way -/

/-- A component passes somewhere between `met` and `after`; `T` says what comes of a part of a
comparison. -/
def Via (T : MetPairs → MetPairs → Prop) (compare : TypeId → TypeId → Comparison)
    (met after : MetPairs) (l r : TypeId) : Prop :=
  ∃ before then', T met before ∧ T then' after ∧ (compare l r).Passes before then'

/-- What holds from the pairs met before a component passes to those met after it, and so of
parts of a comparison that follow each other. -/
structure Traces (T : MetPairs → MetPairs → Prop) (compare : TypeId → TypeId → Comparison) :
    Prop where
  refl : ∀ met, T met met
  trans : ∀ met between after, T met between → T between after → T met after
  passes : ∀ l r met after, (compare l r).Passes met after → T met after

section

variable {T : MetPairs → MetPairs → Prop} {compare : TypeId → TypeId → Comparison}
  (h : Traces T compare)

include h

theorem Traces.widen {met' after' : MetPairs} (hmet : T met' met) (hafter : T after after')
    {l r : TypeId} (hvia : Via T compare met after l r) : Via T compare met' after' l r := by
  obtain ⟨before, then', hbefore, hthen, hpass⟩ := hvia
  exact ⟨before, then', h.trans _ _ _ hmet hbefore, h.trans _ _ _ hthen hafter, hpass⟩

theorem Traces.single {l r : TypeId} (hpass : (compare l r).Passes met after) :
    T met after ∧ Via T compare met after l r :=
  ⟨h.passes l r met after hpass, met, after, h.refl met, h.refl after, hpass⟩

theorem Traces.pairwise {ls rs : List TypeId}
    (hpass : (Comparison.pairwise compare ls rs).Passes met after) :
    T met after ∧ List.Forall₂ (Via T compare met after) ls rs := by
  induction ls generalizing rs met with
  | nil =>
      cases rs with
      | nil =>
          obtain ⟨_, rfl⟩ := pure_passes.mp hpass
          exact ⟨h.refl _, .nil⟩
      | cons r rs => cases (pure_passes.mp hpass).1
  | cons l ls ih =>
      cases rs with
      | nil => cases (pure_passes.mp hpass).1
      | cons r rs =>
          obtain ⟨between, hhead, htail⟩ := andThen_passes.mp hpass
          obtain ⟨hrest, hforall⟩ := ih htail
          have hfirst := h.passes l r met between hhead
          refine ⟨h.trans _ _ _ hfirst hrest, .cons ?_ ?_⟩
          · exact ⟨met, between, h.refl met, hrest, hhead⟩
          · exact hforall.imp fun _ _ hvia => h.widen hfirst (h.refl _) hvia

theorem Traces.lists {ls rs : List TypeId}
    (hpass : (Comparison.lists compare ls rs).Passes met after) :
    T met after ∧ List.Forall₂ (Via T compare met after) ls rs :=
  h.pairwise (guarded_passes.mp hpass).2

theorem Traces.optional {l r : Option TypeId}
    (hpass : (Comparison.optional compare l r).Passes met after) :
    T met after ∧ Option.Rel (Via T compare met after) l r := by
  cases l with
  | none =>
      cases r with
      | none =>
          obtain ⟨_, rfl⟩ := pure_passes.mp hpass
          exact ⟨h.refl _, .none⟩
      | some r => cases (pure_passes.mp hpass).1
  | some l =>
      cases r with
      | none => cases (pure_passes.mp hpass).1
      | some r =>
          obtain ⟨hT, hvia⟩ := h.single hpass
          exact ⟨hT, .some hvia⟩

end

/-! ### Components that are sure to pass -/

section

variable {P : MetPairs → Prop} {compare : TypeId → TypeId → Comparison}

theorem sure_pairwise {ls rs : List TypeId}
    (h : List.Forall₂ (fun l r => (compare l r).Sure P) ls rs) :
    (pairwise compare ls rs).Sure P := by
  induction h with
  | nil => exact sure_pure rfl
  | cons hhead _ ih => exact hhead.andThen ih

theorem sure_lists {ls rs : List TypeId}
    (h : List.Forall₂ (fun l r => (compare l r).Sure P) ls rs) : (lists compare ls rs).Sure P :=
  .guarded (by simp [h.length_eq]) (sure_pairwise h)

theorem sure_optional {l r : Option TypeId}
    (h : Option.Rel (fun l r => (compare l r).Sure P) l r) : (optional compare l r).Sure P := by
  cases h with
  | none => exact sure_pure rfl
  | some hsome => exact hsome

end

end Comparison

/-! ### Rules and comparisons by components -/

namespace EnvironmentPair

open Comparison

variable {p : EnvironmentPair} {R R' : TypeId → TypeId → Prop}

theorem optionRel_mono {α β : Type} {S S' : α → β → Prop} {a : Option α} {b : Option β}
    (hS : ∀ a b, S a b → S' a b) (h : Option.Rel S a b) : Option.Rel S' a b := by
  cases h with
  | none => exact .none
  | some hab => exact .some (hS _ _ hab)

theorem MethodRule.mono {l r : MethodBinding} (h : MethodRule R l r)
    (hR : ∀ x y, R x y → R' x y) : MethodRule R' l r where
  selector := h.selector
  returnType := optionRel_mono hR h.returnType
  throws := h.throws.imp hR
  declaringClass := optionRel_mono hR h.declaringClass
  typeVariables := h.typeVariables.imp hR
  parameters := h.parameters.imp hR

theorem DeclaringRule.mono {l r : Option VariableOwner} (h : DeclaringRule p R l r)
    (hR : ∀ x y, R x y → R' x y) : DeclaringRule p R' l r := by
  cases h with
  | nowhere => exact .nowhere
  | type htype => exact .type (hR _ _ htype)
  | method ha hb hmethod => exact .method ha hb (hmethod.mono hR)

theorem VariableRule.mono {l r : VariableType} (h : VariableRule p R l r)
    (hR : ∀ x y, R x y → R' x y) : VariableRule p R' l r where
  name := h.name
  declaring := h.declaring.mono hR
  superclass := optionRel_mono hR h.superclass
  interfaces := h.interfaces.imp hR

theorem TypeRule.mono {l r : TypeBinding} (h : TypeRule p R l r) (hR : ∀ x y, R x y → R' x y) :
    TypeRule p R' l r := by
  cases h with
  | base id name name' => exact .base id name name'
  | array dims hleaf => exact .array dims (hR _ _ hleaf)
  | parameterized hsame harguments => exact .parameterized hsame (harguments.imp hR)
  | wildcard kind hbound => exact .wildcard kind (optionRel_mono hR hbound)
  | typeVariable hv => exact .typeVariable (hv.mono hR)
  | capturedVariable position w s hv => exact .capturedVariable position w s (hv.mono hR)
  | capture position hw hs =>
      exact .capture position (optionRel_mono hR hw) (optionRel_mono hR hs)
  | generic hsame hvariables => exact .generic hsame (hvariables.imp hR)
  | default hl hr hsame hpool hgeneric hraw => exact .default hl hr hsame hpool hgeneric hraw

theorem Steps.mono {l r : TypeId} (h : p.Steps R l r) (hR : ∀ x y, R x y → R' x y) :
    p.Steps R' l r := by
  obtain ⟨a, b, ha, hb, hrule⟩ := h
  exact ⟨a, b, ha, hb, hrule.mono hR⟩

/-- Whether a comparison notes the pair when it meets such a type on the left. -/
def isGuarded : TypeBinding → Bool
  | .typeVariable _ | .capture .. => true
  | _ => false

/-- The comparison by components, without a note of the pair. -/
def body (p : EnvironmentPair) (compare : TypeId → TypeId → Comparison) (l r : TypeBinding) :
    Comparison :=
  match l with
  | .typeVariable v =>
    match r with
    | .typeVariable other | .capture other _ _ _ => p.stepVariable compare v other
    | _ => pure false
  | .capture _ position wildcard sourceType =>
    match r with
    | .capture _ otherPosition otherWildcard otherSourceType =>
      guarded (position == otherPosition) <|
        (optional compare wildcard otherWildcard).andThen <|
        optional compare sourceType otherSourceType
    | _ => pure false
  | _ => p.stepBinding compare (0, 0) l r

theorem stepBinding_eq (compare : TypeId → TypeId → Comparison) (pair : TypeId × TypeId)
    (l r : TypeBinding) : p.stepBinding compare pair l r =
      if isGuarded l then meeting pair (p.body compare l r) else p.body compare l r := by
  cases l <;> rfl

theorem ReferenceBinding.agree_iff {a b : ReferenceBinding} :
    a.agree b = true ↔ SameReference a b := by
  unfold ReferenceBinding.agree Modifiers.agree
  rw [Bool.and_eq_true, beq_iff_eq, beq_iff_eq]
  exact ⟨fun h => ⟨h.1, h.2⟩, fun h => ⟨h.name, h.modifiers⟩⟩

theorem defaultRule_iff {l r : TypeBinding} {a : ReferenceBinding}
    (hl : l = .raw a ∨ l = .reference a) : defaultRule a l r = true ↔ TypeRule p R l r := by
  unfold defaultRule
  constructor
  · intro h
    cases hr : r.reference? with
    | none => simp [hr] at h
    | some b =>
        simp only [hr, Bool.and_eq_true, beq_iff_eq, Bool.not_eq_true', Modifiers.agree] at h
        obtain ⟨⟨⟨⟨hname, hpool⟩, hgeneric⟩, hraw⟩, hmodifiers⟩ := h
        exact .default hl hr ⟨hname, hmodifiers⟩ hpool hgeneric hraw
  · intro h
    cases h with
    | @default _ _ a' b hl' hr hsame hpool hgeneric hraw =>
        have heq : a = a' := by
          rcases hl with rfl | rfl <;> rcases hl' with hl' | hl' <;> cases hl' <;> rfl
        subst heq
        simp only [hr, Bool.and_eq_true, beq_iff_eq, Bool.not_eq_true', Modifiers.agree]
        exact ⟨⟨⟨⟨hsame.name, hpool⟩, hgeneric⟩, hraw⟩, hsame.modifiers⟩
    | _ => rcases hl with hl | hl <;> cases hl

section

variable {T : MetPairs → MetPairs → Prop} {compare : TypeId → TypeId → Comparison}
  {met after : MetPairs} (h : Traces T compare)

include h

theorem stepMethod_passes {l r : MethodBinding} (hpass : (stepMethod compare l r).Passes met after) :
    T met after ∧ MethodRule (Via T compare met after) l r := by
  unfold stepMethod at hpass
  simp only [guarded_passes, andThen_passes, beq_iff_eq] at hpass
  obtain ⟨hselector, m₁, h₁, m₂, h₂, m₃, h₃, m₄, h₄, h₅⟩ := hpass
  obtain ⟨t₁, hreturn⟩ := h.optional h₁
  obtain ⟨t₂, hthrows⟩ := h.lists h₂
  obtain ⟨t₃, hclass⟩ := h.optional h₃
  obtain ⟨t₄, hvariables⟩ := h.lists h₄
  obtain ⟨t₅, hparameters⟩ := h.lists h₅
  have t₁₂ := h.trans _ _ _ t₁ t₂
  have t₁₃ := h.trans _ _ _ t₁₂ t₃
  have t₁₄ := h.trans _ _ _ t₁₃ t₄
  have t₄₅ := h.trans _ _ _ t₄ t₅
  have t₃₅ := h.trans _ _ _ t₃ t₄₅
  have t₂₅ := h.trans _ _ _ t₂ t₃₅
  exact ⟨h.trans _ _ _ t₁ t₂₅, hselector,
    optionRel_mono (fun _ _ => h.widen (h.refl _) t₂₅) hreturn,
    hthrows.imp fun _ _ => h.widen t₁ t₃₅,
    optionRel_mono (fun _ _ => h.widen t₁₂ t₄₅) hclass,
    hvariables.imp fun _ _ => h.widen t₁₃ t₅,
    hparameters.imp fun _ _ => h.widen t₁₄ (h.refl _)⟩

theorem stepDeclaring_passes {l r : Option VariableOwner}
    (hpass : (p.stepDeclaring compare l r).Passes met after) :
    T met after ∧ DeclaringRule p (Via T compare met after) l r := by
  unfold stepDeclaring at hpass
  split at hpass
  · obtain ⟨_, rfl⟩ := pure_passes.mp hpass
    exact ⟨h.refl _, .nowhere⟩
  · obtain ⟨hT, hvia⟩ := h.single hpass
    exact ⟨hT, .type hvia⟩
  · unfold stepMethodId at hpass
    split at hpass
    · rename_i ha hb
      obtain ⟨hT, hrule⟩ := stepMethod_passes h hpass
      exact ⟨hT, .method ha hb hrule⟩
    · cases (pure_passes.mp hpass).1
  · cases (pure_passes.mp hpass).1

theorem stepVariable_passes {l r : VariableType}
    (hpass : (p.stepVariable compare l r).Passes met after) :
    T met after ∧ VariableRule p (Via T compare met after) l r := by
  unfold stepVariable at hpass
  simp only [guarded_passes, andThen_passes, beq_iff_eq] at hpass
  obtain ⟨hname, m₁, h₁, m₂, h₂, h₃⟩ := hpass
  obtain ⟨t₁, hdeclaring⟩ := stepDeclaring_passes h h₁
  obtain ⟨t₂, hsuperclass⟩ := h.optional h₂
  obtain ⟨t₃, hinterfaces⟩ := h.lists h₃
  have t₁₂ := h.trans _ _ _ t₁ t₂
  have t₂₃ := h.trans _ _ _ t₂ t₃
  exact ⟨h.trans _ _ _ t₁ t₂₃, hname,
    hdeclaring.mono fun _ _ => h.widen (h.refl _) t₂₃,
    optionRel_mono (fun _ _ => h.widen t₁ t₃) hsuperclass,
    hinterfaces.imp fun _ _ => h.widen t₁₂ (h.refl _)⟩

/-- **A comparison by components that holds follows a rule**, whose components pass on the way. -/
theorem body_passes {l r : TypeBinding} (hpass : (p.body compare l r).Passes met after) :
    T met after ∧ TypeRule p (Via T compare met after) l r := by
  cases l with
  | base id name =>
      cases r with
      | base id' name' =>
          obtain ⟨heq, rfl⟩ := pure_passes.mp hpass
          rw [beq_iff_eq] at heq
          subst heq
          exact ⟨h.refl _, .base id name name'⟩
      | _ => cases (pure_passes.mp hpass).1
  | array leaf dims =>
      cases r with
      | array leaf' dims' =>
          obtain ⟨heq, hleaf⟩ := guarded_passes.mp hpass
          rw [beq_iff_eq] at heq
          subst heq
          obtain ⟨hT, hvia⟩ := h.single hleaf
          exact ⟨hT, .array dims hvia⟩
      | _ => cases (pure_passes.mp hpass).1
  | parameterized reference generic arguments =>
      cases r with
      | parameterized reference' generic' arguments' =>
          obtain ⟨hagree, harguments⟩ := guarded_passes.mp hpass
          obtain ⟨hT, hvia⟩ := h.lists harguments
          exact ⟨hT, .parameterized (ReferenceBinding.agree_iff.mp hagree) hvia⟩
      | _ => cases (pure_passes.mp hpass).1
  | wildcard kind bound =>
      cases r with
      | wildcard kind' bound' =>
          obtain ⟨between, hbound, hkind⟩ := andThen_passes.mp hpass
          obtain ⟨heq, rfl⟩ := pure_passes.mp hkind
          rw [beq_iff_eq] at heq
          subst heq
          obtain ⟨hT, hvia⟩ := h.optional hbound
          exact ⟨hT, .wildcard kind hvia⟩
      | _ => cases (pure_passes.mp hpass).1
  | typeVariable v =>
      cases r with
      | typeVariable v' =>
          obtain ⟨hT, hrule⟩ := stepVariable_passes h hpass
          exact ⟨hT, .typeVariable hrule⟩
      | capture v' position wildcard sourceType =>
          obtain ⟨hT, hrule⟩ := stepVariable_passes h hpass
          exact ⟨hT, .capturedVariable position wildcard sourceType hrule⟩
      | _ => cases (pure_passes.mp hpass).1
  | capture v position wildcard sourceType =>
      cases r with
      | capture v' position' wildcard' sourceType' =>
          obtain ⟨heq, hrest⟩ := guarded_passes.mp hpass
          rw [beq_iff_eq] at heq
          subst heq
          obtain ⟨between, hwildcard, hsource⟩ := andThen_passes.mp hrest
          obtain ⟨hT, hvia⟩ := h.optional hwildcard
          obtain ⟨hT', hvia'⟩ := h.optional hsource
          exact ⟨h.trans _ _ _ hT hT', .capture position
            (optionRel_mono (fun _ _ => h.widen (h.refl _) hT') hvia)
            (optionRel_mono (fun _ _ => h.widen hT (h.refl _)) hvia')⟩
      | _ => cases (pure_passes.mp hpass).1
  | generic reference =>
      cases r with
      | generic reference' =>
          obtain ⟨hagree, hvariables⟩ := guarded_passes.mp hpass
          obtain ⟨hT, hvia⟩ := h.lists hvariables
          exact ⟨hT, .generic (ReferenceBinding.agree_iff.mp hagree) hvia⟩
      | _ => cases (pure_passes.mp hpass).1
  | raw reference =>
      obtain ⟨hrule, rfl⟩ := pure_passes.mp hpass
      exact ⟨h.refl _, (defaultRule_iff (.inl rfl)).mp hrule⟩
  | reference reference =>
      obtain ⟨hrule, rfl⟩ := pure_passes.mp hpass
      exact ⟨h.refl _, (defaultRule_iff (.inr rfl)).mp hrule⟩

end

section

variable {P : MetPairs → Prop} {compare : TypeId → TypeId → Comparison}

theorem sure_stepMethod {l r : MethodBinding}
    (h : MethodRule (fun l r => (compare l r).Sure P) l r) : (stepMethod compare l r).Sure P :=
  .guarded (by simp [h.selector]) <|
    (sure_optional h.returnType).andThen <| (sure_lists h.throws).andThen <|
    (sure_optional h.declaringClass).andThen <| (sure_lists h.typeVariables).andThen <|
    sure_lists h.parameters

theorem sure_stepDeclaring {l r : Option VariableOwner}
    (h : DeclaringRule p (fun l r => (compare l r).Sure P) l r) :
    (p.stepDeclaring compare l r).Sure P := by
  cases h with
  | nowhere => exact sure_pure rfl
  | type htype => exact htype
  | method ha hb hmethod =>
      unfold stepDeclaring stepMethodId
      dsimp only
      rw [ha, hb]
      exact sure_stepMethod hmethod

theorem sure_stepVariable {l r : VariableType}
    (h : VariableRule p (fun l r => (compare l r).Sure P) l r) :
    (p.stepVariable compare l r).Sure P :=
  .guarded (by simp [h.name]) <| (sure_stepDeclaring h.declaring).andThen <|
    (sure_optional h.superclass).andThen <| sure_lists h.interfaces

/-- **A rule of components that are sure to pass makes the comparison pass.** -/
theorem body_sure {l r : TypeBinding} (h : TypeRule p (fun l r => (compare l r).Sure P) l r) :
    (p.body compare l r).Sure P := by
  cases h with
  | base id name name' => exact sure_pure (by simp)
  | array dims hleaf => exact .guarded (by simp) hleaf
  | parameterized hsame harguments =>
      exact .guarded (ReferenceBinding.agree_iff.mpr hsame) (sure_lists harguments)
  | wildcard kind hbound => exact (sure_optional hbound).andThen (sure_pure (by simp))
  | typeVariable hv => exact sure_stepVariable hv
  | capturedVariable position w s hv => exact sure_stepVariable hv
  | capture position hw hs =>
      exact .guarded (by simp) ((sure_optional hw).andThen (sure_optional hs))
  | generic hsame hvariables =>
      exact .guarded (ReferenceBinding.agree_iff.mpr hsame) (sure_lists hvariables)
  | default hl hr hsame hpool hgeneric hraw =>
      have hrule := (defaultRule_iff (p := p) (R := fun l r => (compare l r).Sure P) hl).mpr
        (.default hl hr hsame hpool hgeneric hraw)
      rcases hl with rfl | rfl
      · exact sure_pure hrule
      · exact sure_pure hrule

end

end EnvironmentPair

end AspectLang
