import AspectLang.Proofs.Binding.Scopes
import AspectLang.Proofs.Binding.Snapshots

/-! # What resolving keeps of a type as it is written

A name that is neither declared nor imported and no type variable in scope becomes a reference with
the words of the name (`CompilationUnit.isFree`).  Of the type arguments around it only those of the
last segment are resolved, and a base type is known by its last word; `TypeRef.kept` is what is left
of a type then.  `Environment.Spells` says that a type of an environment is built as such a type is
written.

Resolving a type of free names gives a type that spells it (`Resolve.spells_resolveType`).  That
holds wherever a resolver has the table of the declared names, the imports of the unit and the base
types that it met (`Resolver.Sees`), and no step of the second pass takes these away
(`Resolver.Steady`). -/

namespace AspectLang

/-! ### Types as they are kept -/

/-- The last word of the name of a type. -/
def lastWord (segments : List TypeSegment) : String :=
  (segments.getLast?.map TypeSegment.name).getD ""

/-- The name of the base type that a word stands for. -/
def baseName (word : String) : String := if (baseTypeId? word).isSome then word else "<unknown>"

/-- The base type of a given name. -/
def baseBinding (name : String) : TypeBinding := .base ((baseTypeId? name).getD 0) name

mutual

/-- What resolving keeps of a type: neither positions nor the arguments of segments before the last
one, and of a base type the last word only. -/
def TypeRef.kept : TypeRef → TypeRef
  | ⟨segments, dims, true, _⟩ => ⟨[⟨baseName (lastWord segments), [], {}⟩], dims, true, {}⟩
  | ⟨segments, dims, false, _⟩ => ⟨keptSegments segments, dims, false, {}⟩

/-- The words of segments, and the arguments of the last one. -/
def keptSegments : List TypeSegment → List TypeSegment
  | [] => []
  | [⟨name, arguments, _⟩] => [⟨name, keptArguments arguments, {}⟩]
  | ⟨name, _, _⟩ :: rest => ⟨name, [], {}⟩ :: keptSegments rest

/-- What resolving keeps of type arguments. -/
def keptArguments : List TypeArgument → List TypeArgument
  | [] => []
  | argument :: rest => argument.kept :: keptArguments rest

/-- What resolving keeps of a type argument. -/
def TypeArgument.kept : TypeArgument → TypeArgument
  | .type t => .type t.kept
  | .wildcard kind none _ => .wildcard kind none {}
  | .wildcard kind (some bound) _ => .wildcard kind (some bound.kept) {}

end

mutual

/-- Whether resolving keeps all of a type but its positions: it has arguments in last segments only,
and its base types are single words that stand for one. -/
def TypeRef.isPlain : TypeRef → Bool
  | ⟨segments, _, true, _⟩ =>
    match segments with
    | [⟨word, [], _⟩] => (baseTypeId? word).isSome
    | _ => false
  | ⟨segments, _, false, _⟩ => plainSegments segments

/-- Whether only the last one of some segments has arguments, and all of these are plain. -/
def plainSegments : List TypeSegment → Bool
  | [] => true
  | [⟨_, arguments, _⟩] => plainArguments arguments
  | ⟨_, arguments, _⟩ :: rest => arguments.isEmpty && plainSegments rest

/-- Whether type arguments are plain. -/
def plainArguments : List TypeArgument → Bool
  | [] => true
  | argument :: rest => argument.isPlain && plainArguments rest

/-- Whether a type argument is plain. -/
def TypeArgument.isPlain : TypeArgument → Bool
  | .type t => t.isPlain
  | .wildcard _ none _ => true
  | .wildcard _ (some bound) _ => bound.isPlain

end

mutual

theorem TypeRef.kept_of_isPlain : (t : TypeRef) → t.isPlain = true → t.kept = t.skeleton
  | ⟨segments, dims, true, _⟩, h => by
    unfold TypeRef.isPlain at h
    split at h
    · rename_i word _
      simp [TypeRef.kept, TypeRef.skeleton, skeletonSegments, TypeSegment.skeleton,
        skeletonArguments, lastWord, baseName, h]
    · cases h
  | ⟨segments, dims, false, _⟩, h => by
    unfold TypeRef.isPlain at h
    unfold TypeRef.kept TypeRef.skeleton
    rw [kept_of_plainSegments segments h]

theorem kept_of_plainSegments : (segments : List TypeSegment) → plainSegments segments = true →
    keptSegments segments = skeletonSegments segments
  | [], _ => by
    unfold keptSegments skeletonSegments
    rfl
  | [⟨_, arguments, _⟩], h => by
    unfold plainSegments at h
    unfold keptSegments skeletonSegments skeletonSegments TypeSegment.skeleton
    rw [kept_of_plainArguments arguments h]
  | ⟨_, arguments, _⟩ :: next :: rest, h => by
    unfold plainSegments at h
    obtain ⟨hnone, hrest⟩ := Bool.and_eq_true_iff.mp h
    obtain rfl := List.isEmpty_iff.mp hnone
    unfold keptSegments skeletonSegments TypeSegment.skeleton skeletonArguments
    rw [kept_of_plainSegments (next :: rest) hrest]

theorem kept_of_plainArguments : (arguments : List TypeArgument) →
    plainArguments arguments = true → keptArguments arguments = skeletonArguments arguments
  | [], _ => by
    unfold keptArguments skeletonArguments
    rfl
  | argument :: rest, h => by
    unfold plainArguments at h
    obtain ⟨hargument, hrest⟩ := Bool.and_eq_true_iff.mp h
    unfold keptArguments skeletonArguments
    rw [TypeArgument.kept_of_isPlain argument hargument, kept_of_plainArguments rest hrest]

theorem TypeArgument.kept_of_isPlain : (argument : TypeArgument) → argument.isPlain = true →
    argument.kept = argument.skeleton
  | .type t, h => by
    unfold TypeArgument.isPlain at h
    unfold TypeArgument.kept TypeArgument.skeleton
    rw [t.kept_of_isPlain h]
  | .wildcard _ none _, _ => by
    unfold TypeArgument.kept TypeArgument.skeleton
    rfl
  | .wildcard _ (some bound) _, h => by
    unfold TypeArgument.isPlain at h
    unfold TypeArgument.kept TypeArgument.skeleton
    rw [bound.kept_of_isPlain h]

end

/-! ### Free names -/

/-- Whether words at a site are the name of no declared type, of no single import and of no type
variable in scope. -/
def CompilationUnit.isFree (unit : CompilationUnit) (p : Site) (words : List String) : Bool :=
  (unit.lastCalled? words).isNone &&
    ((Resolve.singleImports unit).lookup (".".intercalate words)).isNone &&
    p.typeVariables.all fun word => words != [word]

section

variable (unit : CompilationUnit) (p : Site)

mutual

/-- Whether all names in a type are free. -/
def TypeRef.isFree : TypeRef → Bool
  | ⟨_, _, true, _⟩ => true
  | ⟨segments, _, false, _⟩ =>
    unit.isFree p (segments.map TypeSegment.name) && freeSegments segments

/-- Whether all names in the arguments of segments are free. -/
def freeSegments : List TypeSegment → Bool
  | [] => true
  | ⟨_, arguments, _⟩ :: rest => freeArguments arguments && freeSegments rest

/-- Whether all names in type arguments are free. -/
def freeArguments : List TypeArgument → Bool
  | [] => true
  | argument :: rest => argument.isFree && freeArguments rest

/-- Whether all names in a type argument are free. -/
def TypeArgument.isFree : TypeArgument → Bool
  | .type t => t.isFree
  | .wildcard _ none _ => true
  | .wildcard _ (some bound) _ => bound.isFree

end

end

/-! ### Types that spell what is written -/

/-- A type without dimensions has the words and the type arguments. -/
inductive TypeBinding.Spells (words : List String) : List TypeId → TypeBinding → Prop
  | plain {r : ReferenceBinding} : r.bare = ReferenceBinding.of words 0 →
      Spells words [] (.reference r)
  | parameterized {arguments : List TypeId} : arguments ≠ [] →
      Spells words arguments (.parameterized (ReferenceBinding.of words 0) none arguments)

theorem TypeBinding.Spells.isArray {words : List String} {arguments : List TypeId}
    {b : TypeBinding} (h : b.Spells words arguments) : b.isArray = false := by
  cases h <;> rfl

namespace Environment

/-- A type is another one with so many dimensions. -/
inductive HasDims (e : Environment) : Nat → TypeId → TypeId → Prop
  | none (leaf : TypeId) : HasDims e 0 leaf leaf
  | array {dims : Nat} {leaf id : TypeId} : dims ≠ 0 →
      e.types[id]? = some (.array leaf dims) → HasDims e dims leaf id

variable (e : Environment)

mutual

/-- A type is built as a type of free names is written. -/
def Spells : TypeRef → TypeId → Prop
  | ⟨segments, dims, true, _⟩, id => ∃ leaf, e.HasDims dims leaf id ∧
      e.types[leaf]? = some (baseBinding (baseName (lastWord segments)))
  | ⟨segments, dims, false, _⟩, id => ∃ leaf arguments b, e.HasDims dims leaf id ∧
      e.types[leaf]? = some b ∧ b.Spells (segments.map TypeSegment.name) arguments ∧
      SpellsLast segments arguments

/-- Types are built as the arguments of the last segment are written. -/
def SpellsLast : List TypeSegment → List TypeId → Prop
  | [], ids => ids = []
  | [⟨_, arguments, _⟩], ids => SpellsArguments arguments ids
  | _ :: rest, ids => SpellsLast rest ids

/-- Types are built as type arguments are written. -/
def SpellsArguments : List TypeArgument → List TypeId → Prop
  | [], ids => ids = []
  | argument :: rest, ids =>
    ∃ id more, ids = id :: more ∧ SpellsArgument argument id ∧ SpellsArguments rest more

/-- A type is built as a type argument is written. -/
def SpellsArgument : TypeArgument → TypeId → Prop
  | .type type, id => Spells type id
  | .wildcard kind none _, id => e.types[id]? = some (.wildcard kind none)
  | .wildcard kind (some bound) _, id =>
    ∃ x, e.types[id]? = some (.wildcard kind (some x)) ∧ Spells bound x

end

variable {e} {e' : Environment}

theorem HasDims.later {dims : Nat} {leaf id : TypeId} (h : e.HasDims dims leaf id)
    (he : e.Revised e') : e'.HasDims dims leaf id := by
  cases h with
  | none => exact .none leaf
  | array hdims harray => exact .array hdims (he.of_some harray rfl)

theorem spells_later {words : List String} {arguments : List TypeId} {id : TypeId}
    {b : TypeBinding} (hb : e.types[id]? = some b) (h : b.Spells words arguments)
    (he : e.Revised e') : ∃ b', e'.types[id]? = some b' ∧ b'.Spells words arguments := by
  cases h with
  | plain hr =>
      obtain ⟨b', hb', hbare⟩ := he id _ hb
      cases b' with
      | reference r' =>
          exact ⟨_, hb', .plain ((TypeBinding.reference.inj hbare).trans hr)⟩
      | _ => cases hbare
  | parameterized hne => exact ⟨_, he.of_some hb rfl, .parameterized hne⟩

mutual

theorem Spells.later : (t : TypeRef) → (id : TypeId) → e.Spells t id → e.Revised e' →
    e'.Spells t id
  | ⟨_, _, true, _⟩, id, h, he => by
    unfold Spells at h ⊢
    obtain ⟨leaf, hdims, hleaf⟩ := h
    exact ⟨leaf, hdims.later he, he.of_some hleaf rfl⟩
  | ⟨segments, _, false, _⟩, id, h, he => by
    unfold Spells at h ⊢
    obtain ⟨leaf, arguments, b, hdims, hleaf, hb, hlast⟩ := h
    obtain ⟨b', hleaf', hb'⟩ := spells_later hleaf hb he
    exact ⟨leaf, arguments, b', hdims.later he, hleaf', hb',
      SpellsLast.later segments arguments hlast he⟩

theorem SpellsLast.later : (segments : List TypeSegment) → (ids : List TypeId) →
    e.SpellsLast segments ids → e.Revised e' → e'.SpellsLast segments ids
  | [], _, h, _ => by
    unfold SpellsLast at h ⊢
    exact h
  | [⟨_, arguments, _⟩], ids, h, he => by
    unfold SpellsLast at h ⊢
    exact SpellsArguments.later arguments ids h he
  | ⟨_, _, _⟩ :: next :: rest, ids, h, he => by
    unfold SpellsLast at h ⊢
    exact SpellsLast.later (next :: rest) ids h he

theorem SpellsArguments.later : (arguments : List TypeArgument) → (ids : List TypeId) →
    e.SpellsArguments arguments ids → e.Revised e' → e'.SpellsArguments arguments ids
  | [], _, h, _ => by
    unfold SpellsArguments at h ⊢
    exact h
  | argument :: rest, ids, h, he => by
    unfold SpellsArguments at h ⊢
    obtain ⟨id, more, hids, hargument, hrest⟩ := h
    exact ⟨id, more, hids, SpellsArgument.later argument id hargument he,
      SpellsArguments.later rest more hrest he⟩

theorem SpellsArgument.later : (argument : TypeArgument) → (id : TypeId) →
    e.SpellsArgument argument id → e.Revised e' → e'.SpellsArgument argument id
  | .type type, id, h, he => by
    unfold SpellsArgument at h ⊢
    exact Spells.later type id h he
  | .wildcard _ none _, id, h, he => by
    unfold SpellsArgument at h ⊢
    exact he.of_some h rfl
  | .wildcard kind (some bound) _, id, h, he => by
    unfold SpellsArgument at h ⊢
    obtain ⟨x, hx, hbound⟩ := h
    exact ⟨x, he.of_some hx rfl, Spells.later bound x hbound he⟩

end

end Environment

/-! ### Steps that leave the tables -/

/-- The base types met so far are types of the environment. -/
def Resolver.HasBase (r : Resolver) : Prop := ∀ name type, (name, type) ∈ r.base →
  r.env.types[type]? = some (baseBinding name)

/-- From one moment to a later one the tables are left as they were, the types keep what they are,
and no field was added. -/
structure Resolver.Steady (r r' : Resolver) : Prop where
  declared : r'.declared = r.declared
  imported : r'.imported = r.imported
  scopes : r'.scopes = r.scopes
  fields : r'.env.fields = r.env.fields
  revised : r.env.Revised r'.env
  base : r.HasBase → r'.HasBase

namespace Resolver.Steady

variable {r r' r'' : Resolver}

theorem refl (r : Resolver) : r.Steady r := ⟨rfl, rfl, rfl, rfl, .refl _, id⟩

theorem trans (h : r.Steady r') (h' : r'.Steady r'') : r.Steady r'' where
  declared := h'.declared.trans h.declared
  imported := h'.imported.trans h.imported
  scopes := h'.scopes.trans h.scopes
  fields := h'.fields.trans h.fields
  revised := h.revised.trans h'.revised
  base hbase := h'.base (h.base hbase)

/-- The environment changes, but what its types are does not. -/
theorem of_revised {e : Environment} (hrevised : r.env.Revised e)
    (hfields : e.fields = r.env.fields) : r.Steady { r with env := e } where
  declared := rfl
  imported := rfl
  scopes := rfl
  fields := hfields
  revised := hrevised
  base hbase name type hmem := hrevised.of_some (hbase name type hmem) rfl

/-- The scopes change on both sides. -/
theorem with_scopes (h : r.Steady r') (scopes : List (List (String × TypeId))) :
    Steady { r with scopes } { r' with scopes } := { h with scopes := rfl }

end Resolver.Steady

namespace Resolve

variable {α β γ : Type} {a : Resolve α} {f : α → Resolve β}

/-- Wherever the step starts, it is steady. -/
def IsSteady (a : Resolve α) : Prop := ∀ r : Resolver, r.Steady (a r).2

theorem steady_pure {b : α} : IsSteady (pure b) := fun r => .refl r

theorem IsSteady.bind (ha : IsSteady a) (hf : ∀ b, IsSteady (f b)) : IsSteady (a >>= f) :=
  fun r => (ha r).trans (hf _ _)

theorem IsSteady.get_bind {f : Resolver → Resolve β} (hf : ∀ r, IsSteady (f r)) :
    IsSteady (get >>= f) := fun r => hf r r

theorem steady_mapM {step : γ → Resolve α} (hstep : ∀ x, IsSteady (step x)) (xs : List γ) :
    IsSteady (xs.mapM step) := by
  induction xs with
  | nil => exact steady_pure
  | cons x xs ih =>
      rw [List.mapM_cons]
      exact .bind (hstep x) fun _ => .bind ih fun _ => steady_pure

theorem steady_forM {step : γ → Resolve PUnit} (hstep : ∀ x, IsSteady (step x)) (xs : List γ) :
    IsSteady (xs.forM step) := by
  induction xs with
  | nil => exact steady_pure
  | cons x xs ih => exact .bind (hstep x) fun _ => ih

theorem steady_addType (t : TypeBinding) : IsSteady (addType t) := fun _ =>
  .of_revised Environment.revised_push rfl

theorem steady_addMethod (m : MethodBinding) : IsSteady (addMethod m) := fun _ =>
  .of_revised (fun _ t ht => ⟨t, ht, rfl⟩) rfl

theorem steady_arrayOf (leaf dims : Nat) : IsSteady (arrayOf leaf dims) :=
  .get_bind fun _ => by
    split
    · exact steady_addType _
    · exact steady_addType _

/-- A base type is added with its number, unless it was met before. -/
theorem baseType_eq (word : String) (r : Resolver) :
    baseType word r = match r.base.lookup (baseName word) with
      | some type => (type, r)
      | none => (r.env.types.size, { r with
          env := (r.env.addType (baseBinding (baseName word))).2
          base := (baseName word, r.env.types.size) :: r.base }) := by
  unfold baseType baseBinding baseName
  cases hid : baseTypeId? word with
  | none =>
      change (match r.base.lookup "<unknown>" with
        | some type => pure type
        | none => _ : Resolve TypeId) r = _
      rw [Option.isSome_none, if_neg Bool.false_ne_true]
      cases r.base.lookup "<unknown>" <;> rfl
  | some id =>
      change (match r.base.lookup word with
        | some type => pure type
        | none => _ : Resolve TypeId) r = _
      rw [Option.isSome_some, if_pos rfl, hid]
      cases r.base.lookup word <;> rfl

theorem steady_baseType (word : String) : IsSteady (baseType word) := by
  intro r
  rw [baseType_eq]
  split
  · exact .refl r
  · refine { Resolver.Steady.of_revised (r := r) Environment.revised_push rfl with
      base := fun hbase name type hmem => ?_ }
    rcases List.mem_cons.mp hmem with heq | hmem
    · cases heq
      exact Array.getElem?_push_size
    · exact Environment.revised_push.of_some (hbase name type hmem) rfl

theorem steady_plainType (declared : Option TypeId) (reference : ReferenceBinding) :
    IsSteady (plainType declared reference) := by
  unfold plainType
  split
  · exact steady_addType _
  · refine .get_bind fun r => ?_
    split
    · exact steady_addType _
    · exact steady_pure

mutual

theorem steady_resolveType : (t : TypeRef) → IsSteady (resolveType t)
  | ⟨segments, dims, primitive, _⟩ => by
    unfold resolveType
    extract_lets finish
    have hfinish : ∀ leaf, IsSteady (finish leaf) := by
      intro leaf
      dsimp only [finish]
      split
      · exact steady_pure
      · exact steady_arrayOf leaf dims
    split
    · exact .bind (steady_baseType _) hfinish
    · refine .get_bind fun r => ?_
      split
      · exact hfinish _
      · refine .bind (steady_resolveLast segments) fun arguments => ?_
        split
        · exact .bind (steady_plainType _ _) hfinish
        · exact .bind (steady_addType _) hfinish

theorem steady_resolveLast : (segments : List TypeSegment) → IsSteady (resolveLast segments)
  | [] => steady_pure
  | [⟨_, arguments, _⟩] => steady_resolveArguments arguments
  | ⟨_, _, _⟩ :: next :: rest => by
    unfold resolveLast
    exact steady_resolveLast (next :: rest)

theorem steady_resolveArguments : (arguments : List TypeArgument) →
    IsSteady (resolveArguments arguments)
  | [] => steady_pure
  | argument :: rest =>
    .bind (steady_resolveArgument argument) fun _ =>
      .bind (steady_resolveArguments rest) fun _ => steady_pure

theorem steady_resolveArgument : (argument : TypeArgument) → IsSteady (resolveArgument argument)
  | .type type => steady_resolveType type
  | .wildcard _ none _ => steady_addType _
  | .wildcard _ (some bound) _ => .bind (steady_resolveType bound) fun _ => steady_addType _

end

theorem steady_resolveOptional (t : Option TypeRef) : IsSteady (resolveOptional t) := by
  cases t with
  | none => exact steady_pure
  | some t => exact fun r => steady_resolveType t r

theorem steady_resolveParameter (q : Parameter) : IsSteady (resolveParameter q) :=
  .bind (steady_resolveType q.type) fun type => by
    split
    · exact steady_arrayOf type 1
    · exact steady_pure

theorem steady_setBounds (id : TypeId) (bounds : List TypeId) : IsSteady (setBounds id bounds) := by
  intro r
  obtain ⟨change, heq, hbare, _⟩ := setBounds_eq id bounds r
  rw [heq]
  exact .of_revised (Environment.revised_updateType hbare) rfl

theorem steady_setSupertypes (id : TypeId) (superclass : Option TypeId)
    (interfaces typeVariables : List TypeId) :
    IsSteady (setSupertypes id superclass interfaces typeVariables) := by
  intro r
  obtain ⟨change, heq, hbare, _⟩ := setSupertypes_eq id superclass interfaces typeVariables r
  rw [heq]
  exact .of_revised (Environment.revised_updateType hbare) rfl

theorem steady_boundLoop (pairs : List (TypeParameter × TypeId)) :
    IsSteady (forIn pairs PUnit.unit fun x _ => do
      setBounds x.2 (← x.1.bounds.mapM resolveType)
      return ForInStep.yield PUnit.unit) := by
  induction pairs with
  | nil => exact steady_pure
  | cons x pairs ih =>
      rw [List.forIn_cons]
      have hturn := (steady_mapM steady_resolveType x.1.bounds).bind (steady_setBounds x.2)
      exact fun r => (hturn r).trans (ih _)

/-- Type parameters open one scope, in which no other names are found. -/
theorem steady_bindTypeParameters (parameters : List TypeParameter) (owner : VariableOwner)
    (r : Resolver) : ∃ scope : List (String × TypeId),
      (∀ entry ∈ scope, entry.1 ∈ parameters.map TypeParameter.name) ∧
      Resolver.Steady { r with scopes := scope :: r.scopes }
        (bindTypeParameters parameters owner r).2 := by
  let news : Resolve (List TypeId) := parameters.mapM fun q =>
    addType (.typeVariable { name := q.name, declaring := some owner })
  have hnews : r.Steady (news r).2 := steady_mapM (fun _ => steady_addType _) parameters r
  refine ⟨((parameters.map TypeParameter.name).zip (news r).1).reverse, fun entry hentry => ?_, ?_⟩
  · exact (List.of_mem_zip (List.mem_reverse.mp hentry)).1
  · have hopened := hnews.with_scopes
      (((parameters.map TypeParameter.name).zip (news r).1).reverse :: r.scopes)
    rw [← hnews.scopes] at hopened ⊢
    exact hopened.trans (steady_boundLoop (parameters.zip (news r).1) _)

/-- A method leaves the scopes as they were. -/
theorem steady_resolveMethod (owner : TypeId) (m : MethodDecl) :
    IsSteady (resolveMethod owner m) := by
  intro r
  let blank : MethodBinding :=
    { selector := m.selector, modifiers := m.modifiers, declaringClass := some owner }
  let r₁ : Resolver := { r with env := (r.env.addMethod blank).2 }
  have h₁ : r.Steady r₁ := steady_addMethod blank r
  suffices hends : Ends r (resolveMethod owner m) fun _ r' => r.Steady r' from hends
  refine .bind (a := addMethod blank) (P := fun id r' => r' = r₁) rfl ?_
  rintro id _ rfl
  refine .bind
    (P := fun _ r₂ => ∃ scope, Resolver.Steady { r₁ with scopes := scope :: r₁.scopes } r₂)
    ?_ ?_
  · obtain ⟨scope, _, h₂⟩ := steady_bindTypeParameters m.typeParameters (.method id) r₁
    exact ⟨scope, h₂⟩
  rintro typeVariables r₂ ⟨scope, h₂⟩
  refine .bind (P := fun _ r₃ => r₂.Steady r₃) (steady_resolveOptional m.returnType r₂) ?_
  rintro returnType r₃ h₃
  refine .bind (P := fun _ r₄ => r₃.Steady r₄)
    (steady_mapM steady_resolveParameter m.parameters r₃) ?_
  rintro parameters r₄ h₄
  refine .bind (P := fun _ r₅ => r₄.Steady r₅) (steady_mapM steady_resolveType m.throws r₄) ?_
  rintro throws r₅ h₅
  have hopen := ((h₂.trans h₃).trans h₄).trans h₅
  have hclosed : r₁.Steady { r₅ with scopes := r₅.scopes.tail } := by
    rw [hopen.scopes]
    exact hopen.with_scopes r₁.scopes
  exact (h₁.trans hclosed).trans (.of_revised (fun _ t ht => ⟨t, ht, rfl⟩) rfl)

end Resolve

/-! ### Resolving free names -/

/-- At a site a resolver has the tables of a unit, and no type variables but those in scope. -/
structure Resolver.Sees (unit : CompilationUnit) (p : Site) (r : Resolver) : Prop where
  declared : r.declared = Resolve.nameTable unit.packageWords unit.declarations 0
  imported : r.imported = Resolve.singleImports unit
  scopes : ∀ scope ∈ r.scopes, ∀ entry ∈ scope, entry.1 ∈ p.typeVariables
  base : r.HasBase

theorem Resolver.Sees.later {unit : CompilationUnit} {p : Site} {r r' : Resolver}
    (h : r.Sees unit p) (hr : r.Steady r') : r'.Sees unit p where
  declared := hr.declared.trans h.declared
  imported := hr.imported.trans h.imported
  scopes := by
    rw [hr.scopes]
    exact h.scopes
  base := hr.base h.base

namespace Resolve

variable {α : Type} {unit : CompilationUnit} {p : Site} {r : Resolver} {a : Resolve α}

/-- A free name is no type variable. -/
theorem wordVariable?_of_isFree (h : r.Sees unit p) {segments : List TypeSegment}
    (hfree : unit.isFree p (segments.map TypeSegment.name) = true) :
    wordVariable? segments r = none := by
  unfold wordVariable?
  split
  · rename_i word _
    unfold typeVariable?
    rw [List.findSome?_eq_none_iff]
    intro scope hscope
    rw [List.lookup_eq_none_iff]
    intro entry hentry
    have hmem := h.scopes scope hscope entry hentry
    have hne := List.all_eq_true.mp (Bool.and_eq_true_iff.mp hfree).2 entry.1 hmem
    rw [bne_iff_ne] at hne ⊢
    rintro rfl
    exact hne rfl
  · rfl

/-- A free name is known by its words alone. -/
theorem lookupName_of_isFree (h : r.Sees unit p) {words : List String}
    (hfree : unit.isFree p words = true) :
    lookupName words r = (none, ReferenceBinding.of words 0) := by
  unfold CompilationUnit.isFree at hfree
  simp only [Bool.and_eq_true, Option.isNone_iff_eq_none] at hfree
  unfold lookupName
  dsimp only
  rw [h.declared, lookup_nameTable, h.imported, hfree.1.1, hfree.1.2]
  rfl

theorem Ends.get_bind {P : α → Resolver → Prop} {f : Resolver → Resolve α} (h : Ends r (f r) P) :
    Ends r (get >>= f) P := h

/-- From a step to what it ends in, with the tables as they were. -/
theorem IsSteady.ends {P : α → Resolver → Prop} (ha : IsSteady a) (h : Ends r a P) :
    Ends r a fun b r' => r.Steady r' ∧ P b r' := ⟨ha r, h⟩

theorem ends_baseType (hbase : r.HasBase) (word : String) :
    Ends r (baseType word) fun type r' =>
      r'.env.types[type]? = some (baseBinding (baseName word)) := by
  unfold Ends
  rw [baseType_eq]
  cases hlookup : r.base.lookup (baseName word) with
  | none => exact Array.getElem?_push_size
  | some type =>
      obtain ⟨before, after, heq, _⟩ := List.lookup_eq_some_iff.mp hlookup
      exact hbase _ type (by simp [heq])

/-- Dimensions are put around a type that is no array. -/
theorem hasDims_arrayOf {leaf dims : Nat} {b : TypeBinding} (hb : r.env.types[leaf]? = some b)
    (harray : b.isArray = false) (hdims : dims ≠ 0) :
    Ends r (arrayOf leaf dims) fun id r' => r'.env.HasDims dims leaf id := by
  apply Ends.get_bind
  split
  · rename_i hget
    rw [hb] at hget
    cases hget
    cases harray
  · exact .array hdims Array.getElem?_push_size

mutual

/-- **A type of free names becomes a type that spells it.** -/
theorem spells_resolveType : (t : TypeRef) → (r : Resolver) → r.Sees unit p →
    t.isFree unit p = true → Ends r (resolveType t) fun id r' => r'.env.Spells t id
  | ⟨segments, dims, primitive, span⟩, r, hsees, hfree => by
    unfold resolveType
    extract_lets finish
    -- the type without its dimensions is there, and is no array
    have hfinish : ∀ leaf r₁ b, r₁.env.types[leaf]? = some b → b.isArray = false →
        (∀ id (r₂ : Resolver), r₁.env.Revised r₂.env → r₂.env.HasDims dims leaf id →
          r₂.env.Spells ⟨segments, dims, primitive, span⟩ id) →
        Ends r₁ (finish leaf) fun id r' =>
          r'.env.Spells ⟨segments, dims, primitive, span⟩ id := by
      intro leaf r₁ b hb harray hspells
      dsimp only [finish]
      split
      · rename_i hdims
        subst hdims
        exact hspells leaf r₁ (.refl _) (.none leaf)
      · exact hspells _ _ (steady_arrayOf leaf dims r₁).revised (hasDims_arrayOf hb harray ‹_›)
    cases primitive with
    | true =>
        rw [if_pos rfl]
        refine .bind (P := fun leaf r₁ => r₁.env.types[leaf]? =
          some (baseBinding (baseName (lastWord segments)))) ?_ ?_
        · exact ends_baseType hsees.base _
        · intro leaf r₁ hleaf
          refine hfinish leaf r₁ _ hleaf rfl fun id r₂ hrevised hdims => ?_
          unfold Environment.Spells
          exact ⟨leaf, hdims, hrevised.of_some hleaf rfl⟩
    | false =>
        unfold TypeRef.isFree at hfree
        obtain ⟨hwords, hsegments⟩ := Bool.and_eq_true_iff.mp hfree
        rw [if_neg Bool.false_ne_true]
        apply Ends.get_bind
        rw [wordVariable?_of_isFree hsees hwords]
        dsimp only
        rw [lookupName_of_isFree hsees hwords]
        refine .bind ((steady_resolveLast segments).ends
          (spells_resolveLast segments r hsees hsegments)) ?_
        rintro arguments r₁ ⟨hsteady, hlast⟩
        -- either way a new type is made
        have hnew : ∀ b, b.Spells (segments.map TypeSegment.name) arguments →
            Ends r₁ (addType b >>= finish) fun id r' =>
              r'.env.Spells ⟨segments, dims, false, span⟩ id := by
          intro b hb
          refine .bind ((steady_addType b).ends (P := fun leaf r₂ =>
            r₂.env.types[leaf]? = some b) Array.getElem?_push_size) ?_
          rintro leaf r₂ ⟨hsteady₂, hleaf⟩
          refine hfinish leaf r₂ b hleaf hb.isArray fun id r₃ hrevised hdims => ?_
          obtain ⟨b', hleaf', hb'⟩ := Environment.spells_later hleaf hb hrevised
          unfold Environment.Spells
          exact ⟨leaf, arguments, b', hdims, hleaf', hb',
            hlast.later segments arguments (hsteady₂.revised.trans hrevised)⟩
        cases arguments with
        | nil => exact hnew _ (.plain rfl)
        | cons id more => exact hnew _ (.parameterized (List.cons_ne_nil id more))

theorem spells_resolveLast : (segments : List TypeSegment) → (r : Resolver) → r.Sees unit p →
    freeSegments unit p segments = true →
      Ends r (resolveLast segments) fun ids r' => r'.env.SpellsLast segments ids
  | [], r, _, _ => by
    unfold Environment.SpellsLast
    rfl
  | [⟨_, arguments, _⟩], r, hsees, hfree => by
    unfold freeSegments at hfree
    unfold Environment.SpellsLast
    exact spells_resolveArguments arguments r hsees (Bool.and_eq_true_iff.mp hfree).1
  | ⟨_, _, _⟩ :: next :: rest, r, hsees, hfree => by
    unfold freeSegments at hfree
    unfold resolveLast Environment.SpellsLast
    exact spells_resolveLast (next :: rest) r hsees (Bool.and_eq_true_iff.mp hfree).2

theorem spells_resolveArguments : (arguments : List TypeArgument) → (r : Resolver) →
    r.Sees unit p → freeArguments unit p arguments = true →
      Ends r (resolveArguments arguments) fun ids r' => r'.env.SpellsArguments arguments ids
  | [], r, _, _ => by
    unfold Environment.SpellsArguments
    rfl
  | argument :: rest, r, hsees, hfree => by
    unfold freeArguments at hfree
    obtain ⟨hargument, hrest⟩ := Bool.and_eq_true_iff.mp hfree
    unfold resolveArguments Environment.SpellsArguments
    refine .bind ((steady_resolveArgument argument).ends
      (spells_resolveArgument argument r hsees hargument)) ?_
    rintro id r₁ ⟨hsteady₁, hid⟩
    refine .bind ((steady_resolveArguments rest).ends
      (spells_resolveArguments rest r₁ (hsees.later hsteady₁) hrest)) ?_
    rintro ids r₂ ⟨hsteady₂, hids⟩
    exact ⟨id, ids, rfl, hid.later argument id hsteady₂.revised, hids⟩

theorem spells_resolveArgument : (argument : TypeArgument) → (r : Resolver) → r.Sees unit p →
    argument.isFree unit p = true →
      Ends r (resolveArgument argument) fun id r' => r'.env.SpellsArgument argument id
  | .type type, r, hsees, hfree => by
    unfold TypeArgument.isFree at hfree
    unfold Environment.SpellsArgument
    exact spells_resolveType type r hsees hfree
  | .wildcard kind none _, r, _, _ => by
    unfold Environment.SpellsArgument
    exact Array.getElem?_push_size
  | .wildcard kind (some bound) _, r, hsees, hfree => by
    unfold TypeArgument.isFree at hfree
    unfold Environment.SpellsArgument
    refine .bind (spells_resolveType bound r hsees hfree) ?_
    intro id r₁ hid
    exact ⟨id, Array.getElem?_push_size, hid.later bound id Environment.revised_push⟩

end

end Resolve

end AspectLang
