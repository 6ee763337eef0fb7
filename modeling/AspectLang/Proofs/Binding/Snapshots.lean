import AspectLang.Proofs.Binding.Equivalence

/-! # Snapshots of the same declarations

The skeleton of a unit keeps what it declares: names, modifiers, type parameters, types and
members.  It drops positions, annotations, extensions, bodies and initializers.  Resolving a unit
is resolving its skeleton (`resolve_skeleton`), one lemma for each function of resolving; so two
units with one skeleton have the same bindings.  Whatever a resolved unit names is there, hence the
identity on its types is closed under the rules of equality, and every binding equals itself. -/

namespace AspectLang

/-! ### Skeletons -/

mutual

/-- The type without positions. -/
def TypeRef.skeleton : TypeRef → TypeRef
  | ⟨segments, dims, primitive, _⟩ => ⟨skeletonSegments segments, dims, primitive, {}⟩

/-- The segments of a type without positions. -/
def skeletonSegments : List TypeSegment → List TypeSegment
  | [] => []
  | s :: rest => s.skeleton :: skeletonSegments rest

/-- The segment without positions. -/
def TypeSegment.skeleton : TypeSegment → TypeSegment
  | ⟨name, arguments, _⟩ => ⟨name, skeletonArguments arguments, {}⟩

/-- Type arguments without positions. -/
def skeletonArguments : List TypeArgument → List TypeArgument
  | [] => []
  | a :: rest => a.skeleton :: skeletonArguments rest

/-- The type argument without positions. -/
def TypeArgument.skeleton : TypeArgument → TypeArgument
  | .type t => .type t.skeleton
  | .wildcard kind none _ => .wildcard kind none {}
  | .wildcard kind (some bound) _ => .wildcard kind (some bound.skeleton) {}

end

/-- The word without its position. -/
def Identifier.skeleton (i : Identifier) : Identifier := { i with span := {} }

/-- The name without positions. -/
def QualifiedName.skeleton (n : QualifiedName) : QualifiedName :=
  ⟨n.segments.map Identifier.skeleton⟩

/-- The type parameter without positions. -/
def TypeParameter.skeleton (p : TypeParameter) : TypeParameter :=
  ⟨p.name, p.bounds.map TypeRef.skeleton, {}⟩

/-- The parameter without annotations and positions. -/
def Parameter.skeleton (p : Parameter) : Parameter :=
  { p with name := p.name.skeleton, type := p.type.skeleton, annotations := [], span := {} }

/-- The field without annotations, initializer and positions. -/
def FieldDecl.skeleton (f : FieldDecl) : FieldDecl :=
  { f with annotations := [], type := f.type.skeleton, initializer := none, extent := {} }

/-- The method without annotations, body, extension and positions. -/
def MethodDecl.skeleton (m : MethodDecl) : MethodDecl where
  kind := m.kind
  selector := m.selector
  modifiers := m.modifiers
  typeParameters := m.typeParameters.map TypeParameter.skeleton
  returnType := m.returnType.map TypeRef.skeleton
  parameters := m.parameters.map Parameter.skeleton
  throws := m.throws.map TypeRef.skeleton

mutual

/-- The type without annotations, initializers, extension and positions. -/
def TypeDecl.skeleton : TypeDecl → TypeDecl
  | ⟨kind, name, modifiers, _, typeParameters, superclass, interfaces, members, _, _, _, _⟩ =>
    ⟨kind, name, modifiers, [], typeParameters.map TypeParameter.skeleton,
      superclass.map TypeRef.skeleton, interfaces.map TypeRef.skeleton, skeletonMembers members,
      {}, none, none, none⟩

/-- The skeletons of the members that declare something. -/
def skeletonMembers : List Member → List Member
  | [] => []
  | .field f :: rest => .field f.skeleton :: skeletonMembers rest
  | .method m :: rest => .method m.skeleton :: skeletonMembers rest
  | .type t :: rest => .type t.skeleton :: skeletonMembers rest
  | .initializer _ :: rest => skeletonMembers rest

end

/-- What a unit declares. -/
def CompilationUnit.skeleton (u : CompilationUnit) : CompilationUnit where
  package := u.package.map fun p => ⟨p.name.skeleton, {}⟩
  imports := u.imports.map fun i => ⟨i.name.skeleton, i.isStatic, i.onDemand, {}⟩
  types := u.types.map TypeDecl.skeleton

theorem TypeSegment.name_skeleton (s : TypeSegment) : s.skeleton.name = s.name := by
  cases s
  simp [TypeSegment.skeleton]

theorem skeletonSegments_eq (segments : List TypeSegment) :
    skeletonSegments segments = segments.map TypeSegment.skeleton := by
  induction segments with
  | nil => simp [skeletonSegments]
  | cons s rest ih => simp [skeletonSegments, ih]

@[simp]
theorem map_name_skeletonSegments (segments : List TypeSegment) :
    (skeletonSegments segments).map TypeSegment.name = segments.map TypeSegment.name := by
  simp [skeletonSegments_eq, TypeSegment.name_skeleton]

@[simp]
theorem QualifiedName.words_skeleton (n : QualifiedName) : n.skeleton.words = n.words := by
  simp [QualifiedName.skeleton, QualifiedName.words, Identifier.skeleton]

theorem TypeDecl.name_skeleton (t : TypeDecl) : t.skeleton.name = t.name := by
  cases t
  simp only [TypeDecl.skeleton]

theorem TypeDecl.fields_skeleton (t : TypeDecl) :
    t.skeleton.fields = t.fields.map FieldDecl.skeleton := by
  obtain ⟨_, _, _, _, _, _, _, members, _, _, _, _⟩ := t
  simp only [TypeDecl.skeleton, TypeDecl.fields]
  induction members with
  | nil => simp [skeletonMembers]
  | cons m rest ih => cases m <;> simp [skeletonMembers, ih]

theorem TypeDecl.methods_skeleton (t : TypeDecl) :
    t.skeleton.methods = t.methods.map MethodDecl.skeleton := by
  obtain ⟨_, _, _, _, _, _, _, members, _, _, _, _⟩ := t
  simp only [TypeDecl.skeleton, TypeDecl.methods]
  induction members with
  | nil => simp [skeletonMembers]
  | cons m rest ih => cases m <;> simp [skeletonMembers, ih]

/-! ### Resolving a skeleton -/

namespace Resolve

theorem wordVariable?_skeleton (segments : List TypeSegment) (r : Resolver) :
    wordVariable? (skeletonSegments segments) r = wordVariable? segments r := by
  rcases segments with _ | ⟨⟨word, arguments, span⟩, _ | ⟨next, rest⟩⟩
  · simp [skeletonSegments]
  · cases arguments <;>
      simp [skeletonSegments, TypeSegment.skeleton, skeletonArguments, wordVariable?]
  · simp [skeletonSegments, wordVariable?]

mutual

theorem resolveType_skeleton : (t : TypeRef) → resolveType t.skeleton = resolveType t
  | ⟨segments, dims, primitive, _⟩ => by
    have hlast : (skeletonSegments segments).getLast?.map TypeSegment.name =
        segments.getLast?.map TypeSegment.name := by
      rw [← List.getLast?_map, ← List.getLast?_map, map_name_skeletonSegments]
    unfold TypeRef.skeleton resolveType
    simp only [hlast, wordVariable?_skeleton, map_name_skeletonSegments,
      resolveLast_skeleton segments]

theorem resolveLast_skeleton : (segments : List TypeSegment) →
    resolveLast (skeletonSegments segments) = resolveLast segments
  | [] => by simp [skeletonSegments]
  | [⟨_, arguments, _⟩] => by
    simp only [skeletonSegments, TypeSegment.skeleton, resolveLast,
      resolveArguments_skeleton arguments]
  | ⟨_, _, _⟩ :: next :: rest => by
    have ih := resolveLast_skeleton (next :: rest)
    simp only [skeletonSegments, TypeSegment.skeleton, resolveLast] at ih ⊢
    exact ih

theorem resolveArguments_skeleton : (arguments : List TypeArgument) →
    resolveArguments (skeletonArguments arguments) = resolveArguments arguments
  | [] => by simp [skeletonArguments]
  | argument :: rest => by
    simp only [skeletonArguments, resolveArguments, resolveArgument_skeleton argument,
      resolveArguments_skeleton rest]

theorem resolveArgument_skeleton : (argument : TypeArgument) →
    resolveArgument argument.skeleton = resolveArgument argument
  | .type t => by simp only [TypeArgument.skeleton, resolveArgument, resolveType_skeleton t]
  | .wildcard kind none _ => by simp only [TypeArgument.skeleton, resolveArgument]
  | .wildcard kind (some bound) _ => by
    simp only [TypeArgument.skeleton, resolveArgument, resolveType_skeleton bound]

end

theorem mapM_skeleton {α : Type} {skeleton : α → α} {step : α → Resolve TypeId}
    (h : ∀ x, step (skeleton x) = step x) (xs : List α) :
    (xs.map skeleton).mapM step = xs.mapM step := by
  induction xs with
  | nil => rfl
  | cons x xs ih => rw [List.map_cons, List.mapM_cons, List.mapM_cons, h, ih]

theorem forM_skeleton {α : Type} {skeleton : α → α} {step : α → Resolve Unit}
    (h : ∀ x, step (skeleton x) = step x) (xs : List α) :
    (xs.map skeleton).forM step = xs.forM step := by
  induction xs with
  | nil => rfl
  | cons x xs ih =>
      change (step (skeleton x) >>= fun _ => (xs.map skeleton).forM step) =
        (step x >>= fun _ => xs.forM step)
      rw [h, ih]

theorem resolveOptional_skeleton (t : Option TypeRef) :
    resolveOptional (t.map TypeRef.skeleton) = resolveOptional t := by
  cases t with
  | none => rfl
  | some t => simp only [Option.map_some, resolveOptional, resolveType_skeleton]

theorem bindTypeParameters_skeleton (parameters : List TypeParameter) (declaring : VariableOwner) :
    bindTypeParameters (parameters.map TypeParameter.skeleton) declaring =
      bindTypeParameters parameters declaring := by
  have hloop (ids : List TypeId) :
      (forIn ((parameters.map TypeParameter.skeleton).zip ids) PUnit.unit fun x _ => do
        setBounds x.2 (← x.1.bounds.mapM resolveType)
        return ForInStep.yield PUnit.unit : Resolve PUnit) =
      (forIn (parameters.zip ids) PUnit.unit fun x _ => do
        setBounds x.2 (← x.1.bounds.mapM resolveType)
        return ForInStep.yield PUnit.unit) := by
    rw [List.zip_map_left, List.forIn_map]
    simp only [Prod.map_fst, Prod.map_snd, TypeParameter.skeleton, id_eq,
      mapM_skeleton resolveType_skeleton]
  have hnames : (parameters.map TypeParameter.skeleton).map TypeParameter.name =
      parameters.map TypeParameter.name := by
    simp [TypeParameter.skeleton]
  let addVariable (p : TypeParameter) : Resolve TypeId :=
    addType (.typeVariable { name := p.name, declaring := some declaring })
  have hvariable : ∀ p : TypeParameter, addVariable p.skeleton = addVariable p := fun _ => rfl
  have hvariables := mapM_skeleton hvariable parameters
  unfold bindTypeParameters
  rw [hnames, hvariables]
  refine bind_congr fun ids => bind_congr fun _ => ?_
  exact congrArg (· >>= fun _ => pure ids) (hloop ids)

theorem resolveField_skeleton (owner : TypeId) (f : FieldDecl) :
    resolveField owner f.skeleton = resolveField owner f := by
  simp only [resolveField, FieldDecl.skeleton, resolveType_skeleton]

theorem resolveParameter_skeleton (p : Parameter) :
    resolveParameter p.skeleton = resolveParameter p := by
  unfold resolveParameter
  rw [show p.skeleton.type = p.type.skeleton from rfl, resolveType_skeleton]
  rfl

theorem resolveMethod_skeleton (owner : TypeId) (m : MethodDecl) :
    resolveMethod owner m.skeleton = resolveMethod owner m := by
  simp only [resolveMethod, MethodDecl.skeleton, bindTypeParameters_skeleton,
    resolveOptional_skeleton, mapM_skeleton resolveParameter_skeleton,
    mapM_skeleton resolveType_skeleton]

theorem declaration_skeleton (package name : List String) (t : TypeDecl) :
    declaration package name t.skeleton = declaration package name t := by
  obtain ⟨_, _, _, _, typeParameters, _, _, _, _, _, _, _⟩ := t
  simp only [declaration, TypeDecl.skeleton, List.isEmpty_map]

theorem declareType_skeleton (name : List String) (t : TypeDecl) :
    declareType name t.skeleton = declareType name t := by
  unfold declareType
  simp only [declaration_skeleton, TypeDecl.name_skeleton]

mutual

theorem declareAll_skeleton : (t : TypeDecl) → (outer : List String) →
    declareAll outer t.skeleton = declareAll outer t
  | ⟨kind, name, modifiers, annotations, typeParameters, superclass, interfaces, members, extent,
      bodyStart, bodyEnd, extension⟩, outer => by
    have hdeclare := declareType_skeleton (outer ++ [name]) ⟨kind, name, modifiers, annotations,
      typeParameters, superclass, interfaces, members, extent, bodyStart, bodyEnd, extension⟩
    simp only [TypeDecl.skeleton] at hdeclare
    simp only [TypeDecl.skeleton, declareAll, hdeclare,
      declareMembers_skeleton members (outer ++ [name])]

theorem declareMembers_skeleton : (members : List Member) → (outer : List String) →
    declareMembers outer (skeletonMembers members) = declareMembers outer members
  | [], _ => by simp only [skeletonMembers]
  | .type t :: rest, outer => by
    simp only [skeletonMembers, declareMembers, declareAll_skeleton t outer,
      declareMembers_skeleton rest outer]
  | .field _ :: rest, outer => by
    simp only [skeletonMembers, declareMembers, declareMembers_skeleton rest outer]
  | .method _ :: rest, outer => by
    simp only [skeletonMembers, declareMembers, declareMembers_skeleton rest outer]
  | .initializer _ :: rest, outer => by
    simp only [skeletonMembers, declareMembers, declareMembers_skeleton rest outer]

end

theorem resolveHeader_skeleton (id : TypeId) (t : TypeDecl) :
    resolveHeader id t.skeleton = resolveHeader id t := by
  have hfields := forM_skeleton (resolveField_skeleton id) t.fields
  have hmethods := forM_skeleton (resolveMethod_skeleton id) t.methods
  rw [← TypeDecl.fields_skeleton] at hfields
  rw [← TypeDecl.methods_skeleton] at hmethods
  unfold resolveHeader
  rw [hfields, hmethods]
  obtain ⟨_, _, _, _, _, _, _, _, _, _, _, _⟩ := t
  simp only [TypeDecl.skeleton, bindTypeParameters_skeleton, resolveOptional_skeleton,
    mapM_skeleton resolveType_skeleton]

mutual

theorem resolveAll_skeleton : (t : TypeDecl) → resolveAll t.skeleton = resolveAll t
  | ⟨kind, name, modifiers, annotations, typeParameters, superclass, interfaces, members, extent,
      bodyStart, bodyEnd, extension⟩ => by
    have hheader := fun id => resolveHeader_skeleton id ⟨kind, name, modifiers, annotations,
      typeParameters, superclass, interfaces, members, extent, bodyStart, bodyEnd, extension⟩
    simp only [TypeDecl.skeleton] at hheader
    simp only [TypeDecl.skeleton, resolveAll, hheader, resolveMembers_skeleton members]

theorem resolveMembers_skeleton : (members : List Member) →
    resolveMembers (skeletonMembers members) = resolveMembers members
  | [] => by simp only [skeletonMembers]
  | .type t :: rest => by
    simp only [skeletonMembers, resolveMembers, resolveAll_skeleton t,
      resolveMembers_skeleton rest]
  | .field _ :: rest => by
    simp only [skeletonMembers, resolveMembers, resolveMembers_skeleton rest]
  | .method _ :: rest => by
    simp only [skeletonMembers, resolveMembers, resolveMembers_skeleton rest]
  | .initializer _ :: rest => by
    simp only [skeletonMembers, resolveMembers, resolveMembers_skeleton rest]

end

theorem singleImports_skeleton (u : CompilationUnit) :
    singleImports u.skeleton = singleImports u := by
  simp [singleImports, CompilationUnit.skeleton, List.filter_map, Function.comp_def]

theorem resolveUnit_skeleton (u : CompilationUnit) : resolveUnit u.skeleton = resolveUnit u := by
  simp only [resolveUnit, CompilationUnit.skeleton,
    forM_skeleton fun t => declareAll_skeleton t _, forM_skeleton resolveAll_skeleton]

end Resolve

/-- **Resolving sees only what a unit declares.** -/
theorem CompilationUnit.resolve_skeleton (u : CompilationUnit) : u.skeleton.resolve = u.resolve := by
  have hpackage : (u.skeleton.package.map fun p => p.name.words).getD [] =
      (u.package.map fun p => p.name.words).getD [] := by
    simp [CompilationUnit.skeleton, Function.comp_def]
  unfold CompilationUnit.resolve
  rw [hpackage, Resolve.singleImports_skeleton, Resolve.resolveUnit_skeleton]

/-! ### Every binding equals itself -/

namespace EnvironmentPair

variable {e : Environment}

/-- A type equals itself when it is there. -/
def Same (e : Environment) (l r : TypeId) : Prop := l = r ∧ l < e.types.size

theorem optionRel_same {x : Option TypeId} (h : ∀ y ∈ x, y < e.types.size) :
    Option.Rel (Same e) x x := by
  cases x with
  | none => exact .none
  | some y => exact .some ⟨rfl, h y rfl⟩

theorem forall₂_same {xs : List TypeId} (h : ∀ y ∈ xs, y < e.types.size) :
    List.Forall₂ (Same e) xs xs := List.forall₂_same.mpr fun y hy => ⟨rfl, h y hy⟩

theorem SameReference.refl (r : ReferenceBinding) : SameReference r r := ⟨rfl, rfl⟩

theorem methodRule_same {m : MethodBinding} (h : ∀ x ∈ m.components, x < e.types.size) :
    MethodRule (Same e) m m where
  selector := rfl
  returnType := optionRel_same fun y hy => h y (by simp_all [MethodBinding.components])
  throws := forall₂_same fun y hy => h y (by simp_all [MethodBinding.components])
  declaringClass := optionRel_same fun y hy => h y (by simp_all [MethodBinding.components])
  typeVariables := forall₂_same fun y hy => h y (by simp_all [MethodBinding.components])
  parameters := forall₂_same fun y hy => h y (by simp_all [MethodBinding.components])

theorem fieldRule_same {f : FieldBinding} (h : ∀ x ∈ f.components, x < e.types.size) :
    FieldRule (Same e) f f where
  flags := rfl
  name := rfl
  type := optionRel_same fun y hy => h y (by simp_all [FieldBinding.components])
  declaringClass := optionRel_same fun y hy => h y (by simp_all [FieldBinding.components])

theorem declaringRule_same (he : e.Linked) {owner : Option VariableOwner}
    (h : ∀ o ∈ owner, e.HasOwner o) : DeclaringRule ⟨e, e⟩ (Same e) owner owner := by
  cases owner with
  | none => exact .nowhere
  | some o =>
      have ho := h o rfl
      cases o with
      | type id => exact .type ⟨rfl, ho⟩
      | method id =>
          have hget : e.methods[id]? = some e.methods[id] := Array.getElem?_eq_getElem ho
          exact .method hget hget (methodRule_same (he.methods id _ hget))

theorem typeRule_same (he : e.Linked) {t : TypeBinding} (h : e.Builds t) :
    TypeRule ⟨e, e⟩ (Same e) t t := by
  cases t with
  | base id name => exact .base id name name
  | array leaf dims => exact .array dims ⟨rfl, h⟩
  | parameterized r generic arguments => exact .parameterized (.refl r) (forall₂_same h)
  | wildcard kind bound => exact .wildcard kind (optionRel_same h)
  | typeVariable v =>
      exact .typeVariable ⟨rfl, declaringRule_same he h.declaring,
        optionRel_same h.superclass, forall₂_same h.interfaces⟩
  | capture => exact h.elim
  | generic r => exact .generic (.refl r) (forall₂_same fun x hx => (h x hx).lt)
  | raw r => exact .default (.inl rfl) rfl (.refl r) rfl rfl rfl
  | reference r => exact .default (.inr rfl) rfl (.refl r) rfl rfl rfl

/-- **The identity on the types of a linked environment is closed under the rules.** -/
theorem equal_same (he : e.Linked) {l r : TypeId} (h : Same e l r) : Equal ⟨e, e⟩ l r := by
  refine ⟨Same e, h, ?_⟩
  rintro x _ ⟨rfl, hx⟩
  have hget : e.types[x]? = some e.types[x] := Array.getElem?_eq_getElem hx
  exact ⟨_, _, hget, hget, typeRule_same he (he.types x _ hget)⟩

end EnvironmentPair

open EnvironmentPair

/-- A type, method or field of an environment. -/
def Environment.Has (e : Environment) : Binding → Prop
  | .type id => id < e.types.size
  | .method id => id < e.methods.size
  | .field id => id < e.fields.size
  | _ => False

theorem CompilationUnit.bindingsEqual_self (u : CompilationUnit) {b : Binding}
    (hb : u.resolve.Has b) : bindingsEqual u.resolve b u.resolve b = true := by
  have hlinked := u.resolve_linked
  refine (bindings_hold_iff (p := ⟨u.resolve, u.resolve⟩) u.resolve_grounded).mpr ?_
  refine BindingRule.mono (R := Same u.resolve) ?_ fun _ _ => equal_same hlinked
  cases b with
  | type id => exact .type ⟨rfl, hb⟩
  | method id =>
      have hget : u.resolve.methods[id]? = some u.resolve.methods[id] :=
        Array.getElem?_eq_getElem hb
      exact .method hget hget (methodRule_same (hlinked.methods id _ hget))
  | field id =>
      have hget : u.resolve.fields[id]? = some u.resolve.fields[id] :=
        Array.getElem?_eq_getElem hb
      exact .field hget hget (fieldRule_same (hlinked.fields id _ hget))
  | _ => exact hb.elim

/-- **Two snapshots of the same declarations have the same bindings**, and every type, method and
field of the one equals the one with its number in the other. -/
theorem snapshots_equal (u u' : CompilationUnit) (h : u.skeleton = u'.skeleton) :
    u.resolve = u'.resolve ∧
    (∀ id < u.resolve.types.size, typesEqual u.resolve id u'.resolve id = true) ∧
    ∀ b : Binding, u.resolve.Has b → bindingsEqual u.resolve b u'.resolve b = true := by
  have hresolve : u.resolve = u'.resolve :=
    calc u.resolve = u.skeleton.resolve := u.resolve_skeleton.symm
      _ = u'.skeleton.resolve := by rw [h]
      _ = u'.resolve := u'.resolve_skeleton
  rw [← hresolve]
  exact ⟨rfl, fun id hid => u.bindingsEqual_self (b := .type id) hid,
    fun b hb => u.bindingsEqual_self hb⟩

/-- The class `C<T extends Comparable<T>>` with a field of type `T` and a method, in two versions
that differ in positions, the initializer and the body. -/
def snapshot (version : Nat) : CompilationUnit where
  types := [{ TypeDecl.new .classType with
    name := "C"
    typeParameters := [⟨"T", [⟨[⟨"Comparable", [.type variableT], {}⟩], 0, false, {}⟩], {}⟩]
    members := [
      .field {
        name := "f", modifiers := 0, annotations := [], type := variableT
        initializer := if version = 0 then none else some (.name ⟨[⟨"x", ⟨version, version⟩⟩]⟩)
        extent := ⟨⟨version, version⟩, ⟨version, version⟩⟩ },
      .method {
        kind := .method, selector := "get", returnType := some variableT
        statements := if version = 0 then none else some [] }]
    extent := ⟨⟨version, version⟩, ⟨version, version⟩⟩ }]

theorem snapshot_versions_equal :
    (snapshot 0).skeleton = (snapshot 7).skeleton ∧
    (snapshot 0).resolve = (snapshot 7).resolve ∧
    typesEqual (snapshot 0).resolve 1 (snapshot 7).resolve 1 = true ∧
    bindingsEqual (snapshot 0).resolve (.field 0) (snapshot 7).resolve (.field 0) = true := by
  have hskeleton : (snapshot 0).skeleton = (snapshot 7).skeleton := by rfl
  obtain ⟨hresolve, htypes, hbindings⟩ := snapshots_equal (snapshot 0) (snapshot 7) hskeleton
  refine ⟨hskeleton, hresolve, htypes 1 (by decide +kernel), hbindings (.field 0) ?_⟩
  show 0 < (snapshot 0).resolve.fields.size
  decide +kernel

end AspectLang
