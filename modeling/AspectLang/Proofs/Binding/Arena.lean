import AspectLang.Proofs.Binding.Grounded

/-! # What resolving does to the types that are there

Resolving a type, a bound or a list of arguments only appends types to the environment, none of
them a type variable (`Resolve.makes_resolveType`).  What is given to a type later, its supertypes
and its type variables, and to a variable, its bounds, does not change what the type is apart from
these (`TypeBinding.bare`).  `Resolver.Frame` says what is left as it was between two moments, and
`Environment.Sound` what holds of every type at every moment: all that it names is there, and an
array has at least one dimension and a leaf that is no array. -/

namespace AspectLang

/-! ### What a type is from the start -/

/-- The class or interface without what it is given later. -/
def ReferenceBinding.bare (r : ReferenceBinding) : ReferenceBinding :=
  { r with superclass := none, interfaces := [], typeVariables := [] }

/-- The type variable without its bounds. -/
def VariableType.bare (v : VariableType) : VariableType :=
  { v with superclass := none, interfaces := [] }

namespace TypeBinding

/-- The type without what it is given later. -/
def bare : TypeBinding → TypeBinding
  | .typeVariable v => .typeVariable v.bare
  | .generic r => .generic r.bare
  | .reference r => .reference r.bare
  | t => t

/-- Whether the type is an array. -/
def isArray : TypeBinding → Bool
  | .array .. => true
  | _ => false

/-- Whether the type is a type variable. -/
def isVariable : TypeBinding → Bool
  | .typeVariable _ => true
  | _ => false

theorem isArray_bare (t : TypeBinding) : t.bare.isArray = t.isArray := by
  cases t <;> rfl

theorem declaring_of_bare {t : TypeBinding} {v' : VariableType}
    (h : TypeBinding.bare (.typeVariable v') = t.bare) :
    ∃ v, t = .typeVariable v ∧ v'.declaring = v.declaring := by
  cases t with
  | typeVariable v =>
      have hbare : v'.bare = v.bare := TypeBinding.typeVariable.inj h
      exact ⟨v, rfl, show v'.bare.declaring = v.bare.declaring by rw [hbare]⟩
  | _ => cases h

end TypeBinding

/-! ### What a type names -/

/-- The types that a class or interface names. -/
def ReferenceBinding.typeIds (r : ReferenceBinding) : List TypeId :=
  r.superclass.toList ++ r.interfaces ++ r.typeVariables

namespace VariableOwner

/-- The type that declares a variable. -/
def typeId? : VariableOwner → Option TypeId
  | .type id => some id
  | .method _ => none

/-- The method that declares a variable. -/
def methodId? : VariableOwner → Option MethodId
  | .type _ => none
  | .method id => some id

end VariableOwner

/-- The types that a type variable names. -/
def VariableType.typeIds (v : VariableType) : List TypeId :=
  v.superclass.toList ++ v.interfaces ++ (v.declaring.bind VariableOwner.typeId?).toList

namespace TypeBinding

/-- The types that a type names. -/
def typeIds : TypeBinding → List TypeId
  | .base .. => []
  | .array leaf _ => [leaf]
  | .parameterized r declared arguments => r.typeIds ++ declared.toList ++ arguments
  | .wildcard _ bound => bound.toList
  | .typeVariable v => v.typeIds
  | .capture v _ captured source => v.typeIds ++ captured.toList ++ source.toList
  | .generic r | .raw r | .reference r => r.typeIds

/-- The methods that a type names. -/
def methodIds : TypeBinding → List MethodId
  | .typeVariable v | .capture v .. => (v.declaring.bind VariableOwner.methodId?).toList
  | _ => []

theorem typeIds_reference? {t : TypeBinding} {r : ReferenceBinding} (h : t.reference? = some r) :
    ∀ x ∈ r.typeIds, x ∈ t.typeIds := by
  intro x hx
  cases t with
  | parameterized => cases h; simp [typeIds, hx]
  | generic | raw | reference => cases h; exact hx
  | _ => cases h

end TypeBinding

namespace Environment

variable {e e' : Environment} {t : TypeBinding}

/-- What a type names is there; an array has a dimension, and its leaf is no array. -/
structure Fits (e : Environment) (t : TypeBinding) : Prop where
  types : ∀ x ∈ t.typeIds, x < e.types.size
  methods : ∀ m ∈ t.methodIds, m < e.methods.size
  array : ∀ leaf dims, t = .array leaf dims →
    1 ≤ dims ∧ ∃ b, e.types[leaf]? = some b ∧ b.isArray = false

/-- Every type of the environment fits into it. -/
def Sound (e : Environment) : Prop := ∀ (id : TypeId) (t : TypeBinding),
  e.types[id]? = some t → e.Fits t

/-- The types of an earlier environment are in a later one, apart from what they were given. -/
def Revised (e e' : Environment) : Prop := ∀ (id : TypeId) (t : TypeBinding),
  e.types[id]? = some t → ∃ t', e'.types[id]? = some t' ∧ t'.bare = t.bare

theorem Revised.refl (e : Environment) : e.Revised e := fun _ t ht => ⟨t, ht, rfl⟩

theorem Revised.trans {e'' : Environment} (h : e.Revised e') (h' : e'.Revised e'') :
    e.Revised e'' := by
  intro id t ht
  obtain ⟨t', ht', hbare⟩ := h id t ht
  obtain ⟨t'', ht'', hbare'⟩ := h' id t' ht'
  exact ⟨t'', ht'', hbare'.trans hbare⟩

theorem Revised.lt {id : Nat} (h : e.Revised e') (hid : id < e.types.size) :
    id < e'.types.size := by
  obtain ⟨_, ht', _⟩ := h id _ (Array.getElem?_eq_getElem hid)
  exact (Array.getElem?_eq_some_iff.mp ht').1

theorem Revised.size_le (h : e.Revised e') : e.types.size ≤ e'.types.size :=
  Nat.le_of_not_lt fun hlt => Nat.lt_irrefl _ (h.lt hlt)

theorem Fits.later (h : e.Fits t) (he : e.Revised e') (hmethods : e.methods.size ≤ e'.methods.size) :
    e'.Fits t where
  types x hx := he.lt (h.types x hx)
  methods m hm := (h.methods m hm).trans_le hmethods
  array leaf dims harray := by
    obtain ⟨hdims, b, hb, hleaf⟩ := h.array leaf dims harray
    obtain ⟨b', hb', hbare⟩ := he leaf b hb
    exact ⟨hdims, b', hb', by rw [← b'.isArray_bare, hbare, b.isArray_bare, hleaf]⟩

theorem revised_push : e.Revised { e with types := e.types.push t } := by
  intro id t' ht'
  have hid : id < e.types.size := (Array.getElem?_eq_some_iff.mp ht').1
  exact ⟨t', by rw [Array.getElem?_push_lt hid, ← ht', Array.getElem?_eq_getElem hid], rfl⟩

theorem sound_push (h : e.Sound) (ht : e.Fits t) : Sound { e with types := e.types.push t } := by
  intro id t' hid
  have hfits : e.Fits t' := by
    rcases getElem?_push hid with hid | ⟨rfl, rfl⟩
    · exact h id t' hid
    · exact ht
  exact hfits.later revised_push (Nat.le_refl _)

variable {change : TypeBinding → TypeBinding} {target : TypeId}

theorem revised_updateType (hchange : ∀ t, (change t).bare = t.bare) :
    e.Revised (e.updateType target change) := by
  intro id t ht
  unfold updateType
  dsimp only
  rw [Array.getElem?_modify, ht]
  split
  · exact ⟨change t, rfl, hchange t⟩
  · exact ⟨t, rfl, rfl⟩

theorem sound_updateType (h : e.Sound) (hchange : ∀ t, (change t).bare = t.bare)
    (hfits : ∀ t, e.Fits t → e.Fits (change t)) : (e.updateType target change).Sound := by
  intro id t' ht'
  have he : e.Fits t' := by
    unfold updateType at ht'
    dsimp only at ht'
    rw [Array.getElem?_modify] at ht'
    split at ht'
    · obtain ⟨t, ht, rfl⟩ := Option.map_eq_some_iff.mp ht'
      exact hfits t (h id t ht)
    · exact h id t' ht'
  exact he.later (revised_updateType hchange) (Nat.le_refl _)

/-- A sound environment whose methods alone change. -/
theorem Sound.withMethods (h : e.Sound) (htypes : e'.types = e.types)
    (hmethods : e.methods.size ≤ e'.methods.size) : e'.Sound := by
  intro id t ht
  have hrevised : e.Revised e' := by
    intro id t ht
    exact ⟨t, htypes ▸ ht, rfl⟩
  rw [htypes] at ht
  exact (h id t ht).later hrevised hmethods

end Environment

/-! ### What stays as it was -/

/-- From one moment to a later one the types below `n` are the same; the others keep what they are
apart from what they are given; every type variable was there before or is one of the `fresh` ones
of its owner; and the methods and fields are the same. -/
structure Resolver.Frame (n : Nat) (fresh : VariableOwner → TypeId → Prop) (r r' : Resolver) :
    Prop where
  package : r'.package = r.package
  pending : r'.pending = r.pending
  methods : r'.env.methods = r.env.methods
  fields : r'.env.fields = r.env.fields
  locals : r'.env.locals = r.env.locals
  revised : r.env.Revised r'.env
  old : ∀ id < n, r'.env.types[id]? = r.env.types[id]?
  typeVariables : ∀ (id : TypeId) (v' : VariableType), r'.env.types[id]? = some (.typeVariable v') →
    (∃ v, r.env.types[id]? = some (.typeVariable v) ∧ v'.declaring = v.declaring) ∨
      ∃ owner, v'.declaring = some owner ∧ fresh owner id

namespace Resolver.Frame

variable {n n' : Nat} {fresh fresh' : VariableOwner → TypeId → Prop} {r r' r'' : Resolver}

theorem refl (r : Resolver) : Frame n fresh r r where
  package := rfl
  pending := rfl
  methods := rfl
  fields := rfl
  locals := rfl
  revised := .refl _
  old _ _ := rfl
  typeVariables _ v hv := .inl ⟨v, hv, rfl⟩

theorem trans (h : Frame n fresh r r') (h' : Frame n fresh r' r'') : Frame n fresh r r'' where
  package := h'.package.trans h.package
  pending := h'.pending.trans h.pending
  methods := h'.methods.trans h.methods
  fields := h'.fields.trans h.fields
  locals := h'.locals.trans h.locals
  revised := h.revised.trans h'.revised
  old id hid := (h'.old id hid).trans (h.old id hid)
  typeVariables id v'' hv'' := by
    rcases h'.typeVariables id v'' hv'' with ⟨v', hv', hsame'⟩ | hfresh
    · rcases h.typeVariables id v' hv' with ⟨v, hv, hsame⟩ | ⟨owner, howner, hfresh⟩
      · exact .inl ⟨v, hv, hsame'.trans hsame⟩
      · exact .inr ⟨owner, hsame'.trans howner, hfresh⟩
    · exact .inr hfresh

theorem mono (h : Frame n fresh r r') (hn : n' ≤ n)
    (hfresh : ∀ owner id, fresh owner id → fresh' owner id) : Frame n' fresh' r r' where
  package := h.package
  pending := h.pending
  methods := h.methods
  fields := h.fields
  locals := h.locals
  revised := h.revised
  old id hid := h.old id (hid.trans_le hn)
  typeVariables id v' hv' := by
    rcases h.typeVariables id v' hv' with hold | ⟨owner, howner, hid⟩
    · exact .inl hold
    · exact .inr ⟨owner, howner, hfresh owner id hid⟩

/-- Adding a type leaves the others as they are. -/
theorem addType {t : TypeBinding}
    (ht : ∀ v, t = .typeVariable v → ∃ owner, v.declaring = some owner ∧
      fresh owner r.env.types.size) :
    Frame r.env.types.size fresh r { r with env := (r.env.addType t).2 } where
  package := rfl
  pending := rfl
  methods := rfl
  fields := rfl
  locals := rfl
  revised := Environment.revised_push
  old id hid := by
    rw [Environment.addType, Array.getElem?_push_lt hid, Array.getElem?_eq_getElem hid]
  typeVariables id v' hv' := by
    rcases Environment.getElem?_push hv' with hv' | ⟨rfl, rfl⟩
    · exact .inl ⟨v', hv', rfl⟩
    · exact .inr (ht v' rfl)

/-- Giving something to a type leaves the others as they are. -/
theorem updateType {change : TypeBinding → TypeBinding} {target : TypeId} (hn : n ≤ target)
    (hchange : ∀ t, (change t).bare = t.bare) :
    Frame n fresh r { r with env := r.env.updateType target change } where
  package := rfl
  pending := rfl
  methods := rfl
  fields := rfl
  locals := rfl
  revised := Environment.revised_updateType hchange
  old id hid := by
    unfold Environment.updateType
    dsimp only
    rw [Array.getElem?_modify, if_neg (Nat.ne_of_gt (hid.trans_le hn))]
  typeVariables id v' hv' := by
    refine .inl ?_
    unfold Environment.updateType at hv'
    dsimp only at hv'
    rw [Array.getElem?_modify] at hv'
    split at hv'
    · obtain ⟨t, ht, hv⟩ := Option.map_eq_some_iff.mp hv'
      obtain ⟨v, rfl, hsame⟩ := TypeBinding.declaring_of_bare (hv ▸ hchange t)
      exact ⟨v, ht, hsame⟩
    · exact ⟨v', hv', rfl⟩

end Resolver.Frame

/-! ### Steps that only make types -/

namespace Resolve

variable {α β : Type} {r : Resolver} {a : Resolve α} {f : α → Resolve β}
  {Q : α → Environment → Prop}

/-- No type variable is made. -/
def NoFresh (_ : VariableOwner) (_ : TypeId) : Prop := False

/-- From `r`, a step makes types and no type variables, and leaves all types fitting. -/
structure Makes (r : Resolver) (a : Resolve α) : Prop where
  sound : (a r).2.env.Sound
  frame : Resolver.Frame r.env.types.size NoFresh r (a r).2

theorem Makes.pure {b : α} (hs : r.env.Sound) : Makes r (Pure.pure b) := ⟨hs, .refl _⟩

theorem Makes.bind (hgives : Gives r a Q) (ha : Makes r a)
    (hf : ∀ b r', r'.Valid → r'.env.Sound → r.env.Revised r'.env → Q b r'.env → Makes r' (f b)) :
    Makes r (a >>= f) := by
  obtain ⟨hsound, hframe⟩ := ha
  obtain ⟨hsound', hframe'⟩ := hf _ _ hgives.valid hsound hframe.revised hgives.result
  exact ⟨hsound', hframe.trans (hframe'.mono hframe.revised.size_le fun _ _ h => h)⟩

/-- A step that starts by looking at the resolver. -/
theorem Makes.get_bind {f : Resolver → Resolve β} (h : Makes r (f r)) : Makes r (get >>= f) :=
  ⟨h.sound, h.frame⟩

theorem makes_addType {t : TypeBinding} (hs : r.env.Sound) (ht : r.env.Fits t)
    (hvariable : t.isVariable = false) : Makes r (addType t) where
  sound := Environment.sound_push hs ht
  frame := .addType fun v hv => by rw [hv] at hvariable; cases hvariable

/-- A type without an array or a method fits if the types it names are there. -/
theorem fits_of_typeIds {t : TypeBinding} {e : Environment} (hmethods : t.methodIds = [])
    (harray : t.isArray = false) (h : ∀ x ∈ t.typeIds, x < e.types.size) : e.Fits t where
  types := h
  methods m hm := by
    rw [hmethods] at hm
    cases hm
  array leaf dims heq := by
    rw [heq] at harray
    cases harray

theorem makes_arrayOf {leaf dims : Nat} (hs : r.env.Sound) (hleaf : IsType leaf r.env)
    (hdims : 1 ≤ dims) : Makes r (arrayOf leaf dims) := by
  apply Makes.get_bind
  split
  · rename_i inner existing harray
    have hfits := hs leaf _ harray
    obtain ⟨_, hinner⟩ := hfits.array inner existing rfl
    refine makes_addType hs ⟨hfits.types, fun m hm => ?_, ?_⟩ rfl
    · cases hm
    · rintro _ _ ⟨⟩
      exact ⟨hdims.trans (Nat.le_add_left ..), hinner⟩
  · rename_i hnot
    refine makes_addType hs ⟨fun x hx => ?_, fun m hm => ?_, ?_⟩ rfl
    · obtain rfl : x = leaf := List.mem_singleton.mp hx
      exact hleaf
    · cases hm
    · rintro _ _ ⟨⟩
      have hget := Array.getElem?_eq_getElem hleaf
      refine ⟨hdims, _, hget, ?_⟩
      generalize r.env.types[leaf] = b at hget
      cases b with
      | array inner existing => exact absurd hget (hnot inner existing)
      | _ => rfl

theorem makes_baseType {word : String} (hr : r.Valid) (hs : r.env.Sound) :
    Makes r (baseType word) := by
  unfold baseType
  split
  rename_i number name _
  apply Makes.get_bind
  split
  · exact .pure hs
  · have hfits : r.env.Fits (.base number name) :=
      fits_of_typeIds rfl rfl (by simp [TypeBinding.typeIds])
    refine .bind (gives_newType hr trivial) (makes_addType hs hfits rfl) ?_
    intro type r' hr' hs' _ _
    exact ⟨hs', { Resolver.Frame.refl r' with }⟩

theorem typeIds_lookupName {words : List String} (hs : r.env.Sound) :
    ∀ x ∈ (lookupName words r).2.typeIds, x < r.env.types.size := by
  intro x hx
  unfold lookupName at hx
  dsimp only at hx
  cases hdeclared : ((r.declared.lookup (".".intercalate words)).bind
      fun id => r.env.types[id]?).bind TypeBinding.reference? with
  | none =>
      rw [hdeclared] at hx
      simp [ReferenceBinding.of, ReferenceBinding.typeIds] at hx
  | some reference =>
      rw [hdeclared] at hx
      obtain ⟨t, ht, hreference⟩ := Option.bind_eq_some_iff.mp hdeclared
      obtain ⟨id, _, hid⟩ := Option.bind_eq_some_iff.mp ht
      exact (hs id t hid).types x (TypeBinding.typeIds_reference? hreference x hx)

theorem makes_plainType {declared : Option TypeId} {reference : ReferenceBinding}
    (hs : r.env.Sound) (h : ∀ x ∈ reference.typeIds, x < r.env.types.size) :
    Makes r (plainType declared reference) := by
  unfold plainType
  split
  · exact makes_addType hs (fits_of_typeIds rfl rfl h) rfl
  · apply Makes.get_bind
    split
    · exact makes_addType hs (fits_of_typeIds rfl rfl h) rfl
    · exact .pure hs

mutual

theorem makes_resolveType : (t : TypeRef) → (r : Resolver) → r.Valid → r.env.Sound →
    Makes r (resolveType t)
  | ⟨segments, dims, primitive, _⟩, r, hr, hs => by
    unfold resolveType
    extract_lets finish
    have hfinish : ∀ leaf r', r'.Valid → r'.env.Sound → IsType leaf r'.env →
        Makes r' (finish leaf) := by
      intro leaf r' hr' hs' hleaf
      dsimp only [finish]
      split
      · exact .pure hs'
      · exact makes_arrayOf hs' hleaf (Nat.pos_of_ne_zero ‹_›)
    split
    · refine .bind (gives_baseType hr) (makes_baseType hr hs) fun leaf r' hr' hs' _ hleaf => ?_
      exact hfinish leaf r' hr' hs' hleaf
    · apply Makes.get_bind
      split
      · rename_i id hid
        exact hfinish id r hr hs (isType_of_wordVariable? hr hid)
      · refine .bind (gives_resolveLast segments r hr) (makes_resolveLast segments r hr hs) ?_
        intro arguments r' hr' hs' hrevised harguments
        have hreference : ∀ x ∈ (lookupName (segments.map TypeSegment.name) r).2.typeIds,
            x < r'.env.types.size := fun x hx => hrevised.lt (typeIds_lookupName hs x hx)
        split
        · refine .bind (gives_plainType hr' ?_) (makes_plainType hs' hreference)
            fun leaf r' hr' hs' _ hleaf => hfinish leaf r' hr' hs' hleaf
          exact fun id hid => hrevised.lt (areTypes_of_declared hr id hid)
        · refine .bind (gives_newType hr' harguments) (makes_addType hs' ?_ rfl)
            fun leaf r' hr' hs' _ hleaf => hfinish leaf r' hr' hs' hleaf
          refine fits_of_typeIds rfl rfl fun x hx => ?_
          rcases List.mem_append.mp hx with hx | hx
          · rcases List.mem_append.mp hx with hx | hx
            · exact hreference x hx
            · exact hrevised.lt (areTypes_of_declared hr x (Option.mem_toList.mp hx))
          · exact harguments x hx

theorem makes_resolveLast : (segments : List TypeSegment) → (r : Resolver) → r.Valid →
    r.env.Sound → Makes r (resolveLast segments)
  | [], r, _, hs => .pure hs
  | [⟨_, arguments, _⟩], r, hr, hs => makes_resolveArguments arguments r hr hs
  | ⟨_, _, _⟩ :: next :: rest, r, hr, hs => by
    unfold resolveLast
    exact makes_resolveLast (next :: rest) r hr hs

theorem makes_resolveArguments : (arguments : List TypeArgument) → (r : Resolver) → r.Valid →
    r.env.Sound → Makes r (resolveArguments arguments)
  | [], r, _, hs => .pure hs
  | argument :: rest, r, hr, hs => by
    refine .bind (gives_resolveArgument argument r hr) (makes_resolveArgument argument r hr hs) ?_
    intro id r' hr' hs' _ _
    refine .bind (gives_resolveArguments rest r' hr') (makes_resolveArguments rest r' hr' hs') ?_
    exact fun ids r'' _ hs'' _ _ => .pure hs''

theorem makes_resolveArgument : (argument : TypeArgument) → (r : Resolver) → r.Valid →
    r.env.Sound → Makes r (resolveArgument argument)
  | .type type, r, hr, hs => makes_resolveType type r hr hs
  | .wildcard kind none _, r, _, hs =>
    makes_addType hs (fits_of_typeIds rfl rfl (by simp [TypeBinding.typeIds])) rfl
  | .wildcard kind (some bound) _, r, hr, hs => by
    refine .bind (gives_resolveType bound r hr) (makes_resolveType bound r hr hs) ?_
    intro id r' _ hs' _ hid
    refine makes_addType hs' (fits_of_typeIds rfl rfl fun x hx => ?_) rfl
    obtain rfl : x = id := by simpa [TypeBinding.typeIds] using hx
    exact hid

end

theorem makes_mapM {γ : Type} {step : γ → Resolve TypeId}
    (hgives : ∀ x r, r.Valid → Gives r (step x) IsType)
    (hstep : ∀ x r, r.Valid → r.env.Sound → Makes r (step x)) (xs : List γ) (hr : r.Valid)
    (hs : r.env.Sound) : Makes r (xs.mapM step) := by
  induction xs generalizing r with
  | nil => exact .pure hs
  | cons x xs ih =>
      rw [List.mapM_cons]
      refine .bind (hgives x r hr) (hstep x r hr hs) fun id r' hr' hs' _ _ => ?_
      exact .bind (gives_mapM hgives xs hr') (ih hr' hs') fun ids r'' _ hs'' _ _ => .pure hs''

theorem makes_resolveTypes (types : List TypeRef) (hr : r.Valid) (hs : r.env.Sound) :
    Makes r (types.mapM resolveType) :=
  makes_mapM gives_resolveType makes_resolveType types hr hs

theorem makes_resolveOptional (t : Option TypeRef) (hr : r.Valid) (hs : r.env.Sound) :
    Makes r (resolveOptional t) := by
  cases t with
  | none => exact .pure hs
  | some t =>
      have h := makes_resolveType t r hr hs
      exact ⟨h.sound, h.frame⟩

theorem makes_resolveParameter (p : Parameter) (r : Resolver) (hr : r.Valid) (hs : r.env.Sound) :
    Makes r (resolveParameter p) := by
  refine .bind (gives_resolveType p.type r hr) (makes_resolveType p.type r hr hs) ?_
  intro type r' _ hs' _ htype
  split
  · exact makes_arrayOf hs' htype (Nat.le_refl 1)
  · exact .pure hs'

end Resolve

end AspectLang

/-! ## The arena of a unit

The types that a unit declares are numbered first, each before the types among its members
(`CompilationUnit.declarations`); whatever else the unit names comes after them.
`Environment.IsArena` says what holds of an environment that a unit resolves to.  Its last part,
that equality meets a type variable on every way back to where it was, follows from types being
built of earlier ones: a type that is no type variable goes on to type variables and to smaller
numbers only (`Environment.Follows.descends`). -/

namespace AspectLang

/-! ### The declared types of a unit -/

mutual

/-- The types that a type declares, itself first, then those among its members in order, each with
the names of the types around it and its own. -/
def TypeDecl.declarations (outer : List String) (t : TypeDecl) : List (List String × TypeDecl) :=
  (outer ++ [t.name], t) :: match t with
    | ⟨_, name, _, _, _, _, _, members, _, _, _, _⟩ => Member.declarations (outer ++ [name]) members

/-- The types that members declare. -/
def Member.declarations (outer : List String) (members : List Member) :
    List (List String × TypeDecl) :=
  match members with
  | [] => []
  | .type t :: rest => t.declarations outer ++ Member.declarations outer rest
  | _ :: rest => Member.declarations outer rest

end

namespace CompilationUnit

/-- The types that a unit declares. -/
def declarations (unit : CompilationUnit) : List (List String × TypeDecl) :=
  unit.types.flatMap (TypeDecl.declarations [])

/-- The words of the package of a unit. -/
def packageWords (unit : CompilationUnit) : List String :=
  (unit.package.map fun p => p.name.words).getD []

end CompilationUnit

/-! ### What an environment of a unit is -/

/-- What of a field does not depend on other types: the class it is declared in, its name and its
modifiers. -/
def FieldBinding.heading (f : FieldBinding) : Option TypeId × String × Modifiers :=
  (f.declaringClass, f.name, f.modifiers)

/-- What of a method does not depend on other types: the class it is declared in, its selector and
its modifiers. -/
def MethodBinding.heading (m : MethodBinding) : Option TypeId × String × Modifiers :=
  (m.declaringClass, m.selector, m.modifiers)

/-- The headings of the fields of types, by the numbers of the types. -/
def fieldHeadings (entries : List (List String × TypeDecl)) :
    List (Option TypeId × String × Modifiers) :=
  entries.zipIdx.flatMap fun x => x.1.2.fields.map fun f => (some x.2, f.name, f.modifiers)

/-- The headings of the methods of types, by the numbers of the types. -/
def methodHeadings (entries : List (List String × TypeDecl)) :
    List (Option TypeId × String × Modifiers) :=
  entries.zipIdx.flatMap fun x => x.1.2.methods.map fun m => (some x.2, m.selector, m.modifiers)

/-- The binding of a type that is declared in a package under the names of the types around it and
its own: generic if it has type parameters, with its qualified name and its binary name. -/
structure TypeBinding.Declares (package path : List String) (t : TypeDecl) (b : TypeBinding) :
    Prop where
  isGeneric : b.isGeneric = !t.typeParameters.isEmpty
  declared : ∃ r, b.declared? = some r ∧ r.name = package ++ path ∧
    r.poolName = "/".intercalate (package ++ ["$".intercalate path])

namespace Environment

/-- A type or a method lists a type variable as its own. -/
def Lists (e : Environment) : VariableOwner → TypeId → Prop
  | .type id, x => ∃ t r, e.types[id]? = some t ∧ t.declared? = some r ∧ x ∈ r.typeVariables
  | .method id, x => ∃ m, e.methods[id]? = some m ∧ x ∈ m.typeVariables

/-- Every type variable is listed where it is declared. -/
def Listed (e : Environment) : Prop := ∀ (id : TypeId) (v : VariableType),
  e.types[id]? = some (.typeVariable v) → ∃ owner, v.declaring = some owner ∧ e.Lists owner id

/-- Equality goes on from a type or a method to a component of it. -/
inductive Follows (e : Environment) : Binding → Binding → Prop
  | leaf {id leaf dims : Nat} : e.types[id]? = some (.array leaf dims) →
      Follows e (.type id) (.type leaf)
  | argument {id x : TypeId} {r : ReferenceBinding} {generic : Option TypeId}
      {arguments : List TypeId} : e.types[id]? = some (.parameterized r generic arguments) →
        x ∈ arguments → Follows e (.type id) (.type x)
  | wildcard {id bound : TypeId} {kind : WildcardKind} :
      e.types[id]? = some (.wildcard kind (some bound)) → Follows e (.type id) (.type bound)
  | generic {id x : TypeId} {r : ReferenceBinding} : e.types[id]? = some (.generic r) →
      x ∈ r.typeVariables → Follows e (.type id) (.type x)
  | variable {id x : TypeId} {v : VariableType} : e.types[id]? = some (.typeVariable v) →
      x ∈ v.typeIds → Follows e (.type id) (.type x)
  | declaringMethod {id : TypeId} {m : MethodId} {v : VariableType} :
      e.types[id]? = some (.typeVariable v) → v.declaring = some (.method m) →
        Follows e (.type id) (.method m)
  | component {id : MethodId} {x : TypeId} {m : MethodBinding} : e.methods[id]? = some m →
      x ∈ m.components → Follows e (.method id) (.type x)

/-- Whatever is named in an environment is there. -/
structure InRange (e : Environment) : Prop where
  types : ∀ t ∈ e.types, ∀ x ∈ t.typeIds, x < e.types.size
  owners : ∀ t ∈ e.types, ∀ m ∈ t.methodIds, m < e.methods.size
  methods : ∀ m ∈ e.methods, ∀ x ∈ m.components, x < e.types.size
  fields : ∀ f ∈ e.fields, ∀ x ∈ f.components, x < e.types.size
  locals : ∀ v ∈ e.locals, ∀ x ∈ v.type, x < e.types.size

/-- An environment is what a unit resolves to: its first types are the declared ones in order; its
fields and methods are theirs, in order and with their numbers; all that is named is there; an
array has a dimension, and its leaf is no array; every type variable is listed where it is declared;
and equality does not come back to where it was without meeting a type variable. -/
structure IsArena (unit : CompilationUnit) (e : Environment) : Prop where
  declared : ∀ (i : Nat) (path : List String) (t : TypeDecl),
    unit.declarations[i]? = some (path, t) →
      ∃ b, e.types[i]? = some b ∧ b.Declares unit.packageWords path t
  fields : e.fields.toList.map FieldBinding.heading = fieldHeadings unit.declarations
  methods : e.methods.toList.map MethodBinding.heading = methodHeadings unit.declarations
  inRange : e.InRange
  arrays : ∀ leaf dims, .array leaf dims ∈ e.types →
    1 ≤ dims ∧ ∃ b, e.types[leaf]? = some b ∧ b.isArray = false
  listed : e.Listed
  cycles : ∀ (b : Binding) (path : List Binding), (b :: path).IsChain e.Follows →
    path.getLast? = some b → ∃ id, .type id ∈ path ∧ e.IsVariable id

/-! ### Cycles -/

variable {e : Environment}

/-- The binding is a type variable. -/
def IsVariableRef (e : Environment) (b : Binding) : Prop := ∃ id, b = .type id ∧ e.IsVariable id

/-- What is no type variable goes on to type variables and to types with smaller numbers. -/
theorem Follows.descends (he : e.Grounded) {b b' : Binding} (h : e.Follows b b')
    (hb : ¬ e.IsVariableRef b) (hb' : ¬ e.IsVariableRef b') :
    ∃ x, b' = .type x ∧ ∀ id, b = .type id → x < id := by
  cases h with
  | leaf ht => exact ⟨_, rfl, by rintro _ ⟨⟩; exact he.array _ _ _ ht⟩
  | argument ht hx => exact ⟨_, rfl, by rintro _ ⟨⟩; exact he.parameterized _ _ _ _ ht _ hx⟩
  | wildcard ht => exact ⟨_, rfl, by rintro _ ⟨⟩; exact he.wildcard _ _ _ ht⟩
  | generic ht hx => exact absurd ⟨_, rfl, he.generic _ _ ht _ hx⟩ hb'
  | «variable» ht => exact absurd ⟨_, rfl, _, ht⟩ hb
  | declaringMethod ht => exact absurd ⟨_, rfl, _, ht⟩ hb
  | component => exact ⟨_, rfl, fun _ hid => by cases hid⟩

theorem descends_of_chain (he : e.Grounded) {path : List Binding} {b c : Binding}
    (hchain : (b :: path).IsChain e.Follows) (hb : ¬ e.IsVariableRef b)
    (hpath : ∀ x ∈ path, ¬ e.IsVariableRef x) (hlast : path.getLast? = some c) :
    ∃ x, c = .type x ∧ ∀ id, b = .type id → x < id := by
  induction path generalizing b with
  | nil => cases hlast
  | cons d path ih =>
      obtain ⟨hstep, hrest⟩ := List.isChain_cons_cons.mp hchain
      have hd := hpath d List.mem_cons_self
      obtain ⟨x, rfl, hx⟩ := hstep.descends he hb hd
      cases path with
      | nil =>
          cases hlast
          exact ⟨x, rfl, hx⟩
      | cons d' path =>
          obtain ⟨y, rfl, hy⟩ := ih hrest hd (fun z hz => hpath z (List.mem_cons_of_mem _ hz))
            (by rwa [List.getLast?_cons_cons] at hlast)
          exact ⟨y, rfl, fun id hid => (hy x rfl).trans (hx id hid)⟩

/-- Equality comes back to where it was by a type variable only. -/
theorem Grounded.cycle_has_variable (he : e.Grounded) {b : Binding} {path : List Binding}
    (hchain : (b :: path).IsChain e.Follows) (hlast : path.getLast? = some b) :
    ∃ id, .type id ∈ path ∧ e.IsVariable id := by
  apply Classical.byContradiction
  intro hnone
  have hpath : ∀ x ∈ path, ¬ e.IsVariableRef x := by
    rintro _ hx ⟨id, rfl, hid⟩
    exact hnone ⟨id, hx, hid⟩
  obtain ⟨x, rfl, hx⟩ :=
    descends_of_chain he hchain (hpath b (List.mem_of_getLast? hlast)) hpath hlast
  exact Nat.lt_irrefl x (hx x rfl)

end Environment

end AspectLang
