import AspectLang.Proofs.Binding.Scopes
import AspectLang.Proofs.Binding.Equivalence

/-! # Changes of modifiers

A resolved declaration has the modifiers of its declaration, and an interface the flag of interfaces
besides (`CompilationUnit.modifiers_resolve`).  The rules for types and fields ask for the same
flags under `Modifiers.equalityMask`, so a change of these is seen (`BindingRule.modifiers`).  The
rule for methods does not look at modifiers at all: what a comparison answers is the same when the
methods of both environments are stripped of them (`bindingsEqual_stripMethods`). -/

namespace AspectLang

/-! ### Modifiers of declarations -/

/-- The modifiers of a type; an interface has the flag of interfaces, which no text writes. -/
def TypeDecl.flags (t : TypeDecl) : Modifiers :=
  match t.kind with
  | .interfaceType => t.modifiers ||| Modifiers.interfaceFlag
  | .classType => t.modifiers

/-- The modifiers of the declaration that a binding of a unit stands for, by its number. -/
def CompilationUnit.modifiers? (unit : CompilationUnit) : Binding → Option Modifiers
  | .type i => unit.declarations[i]?.map fun x => x.2.flags
  | .field k => (fieldHeadings unit.declarations)[k]?.map fun x => x.2.2
  | .method k => (methodHeadings unit.declarations)[k]?.map fun x => x.2.2
  | _ => none

/-- The modifiers of a declared type, a field or a method of an environment. -/
def Environment.modifiers? (e : Environment) : Binding → Option Modifiers
  | .type id => (e.types[id]?.bind TypeBinding.declared?).map ReferenceBinding.modifiers
  | .field id => e.fields[id]?.map FieldBinding.modifiers
  | .method id => e.methods[id]?.map MethodBinding.modifiers
  | _ => none

/-- What a declared type is given later does not change its modifiers. -/
theorem modifiers_of_bare_eq_declaration {package name : List String} {t : TypeDecl}
    {b : TypeBinding} (h : b.bare = Resolve.declaration package name t) :
    b.declared?.map ReferenceBinding.modifiers = some t.flags := by
  have hflags : (Resolve.declaration package name t).declared?.map ReferenceBinding.modifiers =
      some t.flags := by
    unfold Resolve.declaration
    dsimp only
    split <;> rfl
  rw [← h] at hflags
  cases b with
  | generic | reference => exact hflags
  | _ => cases hflags

/-- **A resolved declaration has the modifiers of its declaration.** -/
theorem CompilationUnit.modifiers_resolve (unit : CompilationUnit) {b : Binding} {m : Modifiers}
    (h : unit.modifiers? b = some m) : unit.resolve.modifiers? b = some m := by
  obtain ⟨r, hr, henv⟩ := unit.exists_progress
  rw [← henv]
  cases b with
  | type i =>
      obtain ⟨⟨path, t⟩, hentry, rfl⟩ := Option.map_eq_some_iff.mp h
      rw [← List.append_nil unit.declarations] at hentry
      obtain ⟨b, hb, hbare⟩ := hr.declared i path t hentry
      unfold Environment.modifiers?
      dsimp only
      rw [hb]
      exact modifiers_of_bare_eq_declaration hbare
  | field k =>
      rw [modifiers?, ← hr.fields, List.getElem?_map, Array.getElem?_toList, Option.map_map] at h
      exact h
  | method k =>
      rw [modifiers?, ← hr.methods, List.getElem?_map, Array.getElem?_toList, Option.map_map] at h
      exact h
  | _ => cases h

/-! ### What the rules ask of modifiers -/

namespace EnvironmentPair

variable {p : EnvironmentPair} {R : TypeId → TypeId → Prop}

theorem TypeRule.sameReference {l r : TypeBinding} {a b : ReferenceBinding} (h : TypeRule p R l r)
    (ha : l.declared? = some a) (hb : r.declared? = some b) : SameReference a b := by
  cases h with
  | generic hsame =>
      cases ha
      cases hb
      exact hsame
  | default hl hr hsame =>
      rcases hl with rfl | rfl
      · cases ha
      · cases ha
        cases r with
        | generic | reference =>
            cases hb
            cases hr
            exact hsame
        | _ => cases hb
  | _ => cases ha

/-- **Declared types and fields that are equal by a rule have the same flags.** -/
theorem BindingRule.modifiers {l r : Binding} {m m' : Modifiers} (h : BindingRule p p.Equal l r)
    (hmethod : ∀ id, l ≠ .method id) (hm : p.left.modifiers? l = some m)
    (hm' : p.right.modifiers? r = some m') :
    m &&& Modifiers.equalityMask = m' &&& Modifiers.equalityMask := by
  cases h with
  | type hequal =>
      obtain ⟨R, hlr, hclosed⟩ := hequal
      obtain ⟨a, b, ha, hb, hrule⟩ := hclosed _ _ hlr
      rw [Environment.modifiers?, ha] at hm
      rw [Environment.modifiers?, hb] at hm'
      obtain ⟨x, hx, rfl⟩ := Option.map_eq_some_iff.mp hm
      obtain ⟨y, hy, rfl⟩ := Option.map_eq_some_iff.mp hm'
      exact (hrule.sameReference hx hy).modifiers
  | method => exact absurd rfl (hmethod _)
  | field ha hb hrule =>
      rw [Environment.modifiers?, ha] at hm
      rw [Environment.modifiers?, hb] at hm'
      cases hm
      cases hm'
      exact hrule.flags
  | _ => cases hm

end EnvironmentPair

/-- **A change of the modifiers of a type or a field is seen**: where two units declare a type or a
field each, with different flags, their bindings are not equal. -/
theorem modifier_changes_detected (u u' : CompilationUnit) (l r : Binding) (m m' : Modifiers)
    (hmethod : ∀ id, l ≠ .method id) (hm : u.modifiers? l = some m)
    (hm' : u'.modifiers? r = some m')
    (hchange : m &&& Modifiers.equalityMask ≠ m' &&& Modifiers.equalityMask) :
    bindingsEqual u.resolve l u'.resolve r = false := by
  rw [Bool.eq_false_iff]
  intro hequal
  have hrule := (EnvironmentPair.bindings_hold_iff (p := ⟨u.resolve, u'.resolve⟩)
    u.resolve_grounded).mp hequal
  exact hchange (hrule.modifiers hmethod (u.modifiers_resolve hm) (u'.modifiers_resolve hm'))

/-- The class `A` with a field `f`, a method `m` and an interface `I`, each with modifiers. -/
def modified (type field method interface : Modifiers) : CompilationUnit where
  types := [{ TypeDecl.new .classType with
    name := "A"
    modifiers := type
    members := [
      .field {
        name := "f", modifiers := field, annotations := [], initializer := none, extent := {}
        type := ⟨[⟨"X", [], {}⟩], 0, false, {}⟩ },
      .method { kind := .method, selector := "m", modifiers := method },
      .type { TypeDecl.new .interfaceType with name := "I", modifiers := interface }] }]

/-- A type becomes abstract, an interface public, and a field final. -/
theorem modifier_changes_of_modified :
    bindingsEqual (modified 1 2 1 0).resolve (.type 0) (modified 0x401 2 1 0).resolve (.type 0) =
      false ∧
    bindingsEqual (modified 1 2 1 0).resolve (.type 1) (modified 1 2 1 1).resolve (.type 1) =
      false ∧
    bindingsEqual (modified 1 2 1 0).resolve (.field 0) (modified 1 0x12 1 0).resolve (.field 0) =
      false :=
  ⟨modifier_changes_detected _ _ _ _ 1 0x401 nofun rfl rfl (by decide),
    modifier_changes_detected _ _ _ _ 0x200 0x201 nofun rfl rfl (by decide),
    modifier_changes_detected _ _ _ _ 2 0x12 nofun rfl rfl (by decide)⟩

/-! ### Methods -/

/-- The method without its modifiers. -/
def MethodBinding.strip (m : MethodBinding) : MethodBinding := { m with modifiers := 0 }

/-- The environment with its methods without their modifiers. -/
def Environment.stripMethods (e : Environment) : Environment :=
  { e with methods := e.methods.map MethodBinding.strip }

namespace EnvironmentPair

variable (p : EnvironmentPair)

/-- Two environments with their methods without their modifiers. -/
def stripMethods : EnvironmentPair := ⟨p.left.stripMethods, p.right.stripMethods⟩

theorem stepMethodId_stripMethods (compare : TypeId → TypeId → Comparison) (l r : MethodId) :
    p.stripMethods.stepMethodId compare l r = p.stepMethodId compare l r := by
  unfold stepMethodId stripMethods Environment.stripMethods
  dsimp only
  rw [Array.getElem?_map, Array.getElem?_map]
  cases p.left.methods[l]? with
  | none => rfl
  | some a =>
      cases p.right.methods[r]? with
      | none => rfl
      | some b => rfl

theorem stepVariable_stripMethods (compare : TypeId → TypeId → Comparison) (l r : VariableType) :
    p.stripMethods.stepVariable compare l r = p.stepVariable compare l r := by
  have hdeclaring : ∀ x y, p.stripMethods.stepDeclaring compare x y =
      p.stepDeclaring compare x y := by
    intro x y
    unfold stepDeclaring
    split
    · rfl
    · rfl
    · exact p.stepMethodId_stripMethods compare _ _
    · rfl
  unfold stepVariable
  rw [hdeclaring]

theorem stepType_stripMethods (compare : TypeId → TypeId → Comparison) (l r : TypeId) :
    p.stripMethods.stepType compare l r = p.stepType compare l r := by
  have hbinding : ∀ pair a b, p.stripMethods.stepBinding compare pair a b =
      p.stepBinding compare pair a b := by
    intro pair a b
    cases a with
    | typeVariable v =>
        unfold stepBinding
        dsimp only
        simp only [stepVariable_stripMethods]
    | _ => rfl
  unfold stepType
  simp only [hbinding]
  rfl

theorem compareTypes_stripMethods (l r : TypeId) :
    p.stripMethods.compareTypes l r = p.compareTypes l r := by
  have hwithin : ∀ depth, p.stripMethods.compareWithin depth = p.compareWithin depth := by
    intro depth
    induction depth with
    | zero => rfl
    | succ depth ih =>
        funext l r
        unfold compareWithin
        rw [ih, stepType_stripMethods]
  exact congrFun (congrFun (hwithin p.depthLimit) l) r

end EnvironmentPair

/-- **Comparisons do not look at the modifiers of methods.** -/
theorem bindingsEqual_stripMethods (e e' : Environment) (l r : Binding) :
    bindingsEqual e.stripMethods l e'.stripMethods r = bindingsEqual e l e' r := by
  let p : EnvironmentPair := ⟨e, e'⟩
  have htypes : p.stripMethods.compareTypes = p.compareTypes :=
    funext fun x => funext fun y => p.compareTypes_stripMethods x y
  have hbindings : p.stripMethods.compareBindings l r = p.compareBindings l r := by
    unfold EnvironmentPair.compareBindings EnvironmentPair.compareFields
      EnvironmentPair.compareVariables
    rw [htypes]
    split
    · rfl
    · exact p.stepMethodId_stripMethods _ _ _
    all_goals rfl
  exact congrArg Comparison.holds hbindings

/-- **A change of the modifiers of a method is not seen**: a method that becomes public equals what
it was. -/
theorem method_change_unseen :
    (modified 1 2 0 0).modifiers? (.method 0) = some 0 ∧
    (modified 1 2 1 0).modifiers? (.method 0) = some Modifiers.publicFlag ∧
    (0 : Modifiers) &&& Modifiers.equalityMask ≠
      Modifiers.publicFlag &&& Modifiers.equalityMask ∧
    bindingsEqual (modified 1 2 0 0).resolve (.method 0) (modified 1 2 1 0).resolve (.method 0) =
      true :=
  ⟨rfl, rfl, by decide, by decide +kernel⟩

end AspectLang
