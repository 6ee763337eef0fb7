import AspectLang.Binding.Resolution
import AspectLang.Proofs.Binding.Coinduction

/-! # Resolved environments are grounded

While a unit is being resolved, every type that is added is built from types which are there
already, and a type that is changed later only gets other bounds, supertypes or type variables.
`Resolve.Gives` states what one step of resolving does to an environment of this kind; its lemmas
follow the functions of resolving one by one, up to `resolve_grounded`.  So comparisons decide the
largest equality between any two units (`types_equal_iff_related`).  On the same way nothing is
named that is not there (`resolve_linked`). -/

namespace AspectLang

/-- The types that a method names. -/
def MethodBinding.components (m : MethodBinding) : List TypeId :=
  m.returnType.toList ++ m.throws ++ m.declaringClass.toList ++ m.typeVariables ++ m.parameters

/-- The types that a field names. -/
def FieldBinding.components (f : FieldBinding) : List TypeId :=
  f.type.toList ++ f.declaringClass.toList

namespace Environment

variable {e e' e'' : Environment} {t t' : TypeBinding} {id target : Nat}
  {change : TypeBinding → TypeBinding}

/-- The type with a given number is a type variable. -/
def IsVariable (e : Environment) (id : TypeId) : Prop :=
  ∃ v, e.types[id]? = some (.typeVariable v)

theorem IsVariable.lt (h : e.IsVariable id) : id < e.types.size := by
  obtain ⟨v, hv⟩ := h
  exact (Array.getElem?_eq_some_iff.mp hv).1

/-- A later environment has the types of an earlier one, its type variables as such, and its
methods. -/
structure Extends (e e' : Environment) : Prop where
  size : e.types.size ≤ e'.types.size
  isVariable : ∀ id, e.IsVariable id → e'.IsVariable id
  methods : e.methods.size ≤ e'.methods.size

theorem Extends.refl (e : Environment) : e.Extends e :=
  ⟨Nat.le_refl _, fun _ h => h, Nat.le_refl _⟩

theorem Extends.trans (h : e.Extends e') (h' : e'.Extends e'') : e.Extends e'' :=
  ⟨h.size.trans h'.size, fun id hid => h'.isVariable id (h.isVariable id hid),
    h.methods.trans h'.methods⟩

/-- The place where a type variable is declared is there. -/
def HasOwner (e : Environment) : VariableOwner → Prop
  | .type id => id < e.types.size
  | .method id => id < e.methods.size

theorem HasOwner.later {owner : VariableOwner} (h : e.HasOwner owner) (he : e.Extends e') :
    e'.HasOwner owner := by
  cases owner with
  | type id => exact Nat.lt_of_lt_of_le h he.size
  | method id => exact Nat.lt_of_lt_of_le h he.methods

/-- What a type variable names is there. -/
structure HasVariable (e : Environment) (v : VariableType) : Prop where
  declaring : ∀ owner ∈ v.declaring, e.HasOwner owner
  superclass : ∀ x ∈ v.superclass, x < e.types.size
  interfaces : ∀ x ∈ v.interfaces, x < e.types.size

theorem HasVariable.later {v : VariableType} (h : e.HasVariable v) (he : e.Extends e') :
    e'.HasVariable v where
  declaring owner howner := (h.declaring owner howner).later he
  superclass x hx := (h.superclass x hx).trans_le he.size
  interfaces x hx := (h.interfaces x hx).trans_le he.size

/-- The components from which a type is built are there; a unit captures nothing. -/
def Builds (e : Environment) : TypeBinding → Prop
  | .array leaf _ => leaf < e.types.size
  | .parameterized _ _ arguments => ∀ x ∈ arguments, x < e.types.size
  | .wildcard _ bound => ∀ x ∈ bound, x < e.types.size
  | .generic r => ∀ x ∈ r.typeVariables, e.IsVariable x
  | .typeVariable v => e.HasVariable v
  | .capture .. => False
  | _ => True

theorem Builds.later (h : e.Builds t) (he : e.Extends e') : e'.Builds t := by
  cases t with
  | array leaf dims => exact Nat.lt_of_lt_of_le h he.size
  | parameterized r generic arguments => exact fun x hx => (h x hx).trans_le he.size
  | wildcard kind bound => exact fun x hx => (h x hx).trans_le he.size
  | generic r => exact fun x hx => he.isVariable x (h x hx)
  | typeVariable v => exact HasVariable.later h he
  | capture => exact h
  | _ => exact trivial

/-- Everything that a type, a method or a field names is there. -/
structure Linked (e : Environment) : Prop where
  types : ∀ (id : Nat) (t : TypeBinding), e.types[id]? = some t → e.Builds t
  methods : ∀ (id : Nat) (m : MethodBinding), e.methods[id]? = some m →
    ∀ x ∈ m.components, x < e.types.size
  fields : ∀ (id : Nat) (f : FieldBinding), e.fields[id]? = some f →
    ∀ x ∈ f.components, x < e.types.size

/-- A type may be changed into another one. -/
inductive Revises (e : Environment) : TypeBinding → TypeBinding → Prop
  | same (t : TypeBinding) : Revises e t t
  | typeVariable (v v' : VariableType) : (e.HasVariable v → e.HasVariable v') →
      Revises e (.typeVariable v) (.typeVariable v')
  | reference (r r' : ReferenceBinding) : Revises e (.reference r) (.reference r')
  | generic (r r' : ReferenceBinding) : (∀ x ∈ r'.typeVariables, e.IsVariable x) →
      Revises e (.generic r) (.generic r')

theorem grounded_empty : ({} : Environment).Grounded where
  array := by simp
  parameterized := by simp
  wildcard := by simp
  generic := by simp

theorem Grounded.of_types (h : e.Grounded) (htypes : e'.types = e.types) : e'.Grounded where
  array := by rw [htypes]; exact h.array
  parameterized := by rw [htypes]; exact h.parameterized
  wildcard := by rw [htypes]; exact h.wildcard
  generic := by rw [htypes]; exact h.generic

theorem Extends.of_types (htypes : e'.types = e.types)
    (hmethods : e.methods.size ≤ e'.methods.size) : e.Extends e' where
  size := by rw [htypes]
  isVariable id h := by
    unfold IsVariable
    rw [htypes]
    exact h
  methods := hmethods

theorem linked_empty : ({} : Environment).Linked where
  types := by simp
  methods := by simp
  fields := by simp

/-- A linked environment whose types alone change for later ones. -/
theorem Linked.withTypes {types : Array TypeBinding} (h : e.Linked)
    (he : e.Extends { e with types })
    (htypes : ∀ (id : Nat) (t : TypeBinding), types[id]? = some t → e.Builds t) :
    Linked { e with types } where
  types id t ht := (htypes id t ht).later he
  methods id m hm x hx := (h.methods id m hm x hx).trans_le he.size
  fields id f hf x hx := (h.fields id f hf x hx).trans_le he.size

/-! ### Adding a type -/

theorem getElem?_push {α : Type} {entries : Array α} {t t' : α}
    (h : (entries.push t)[id]? = some t') : entries[id]? = some t' ∨ id = entries.size ∧ t' = t := by
  rw [Array.getElem?_push] at h
  split at h
  · rename_i hid
    exact .inr ⟨hid, (Option.some.inj h).symm⟩
  · exact .inl h

theorem extends_push : e.Extends { e with types := e.types.push t } where
  size := by simp
  isVariable := by
    rintro id ⟨v, hv⟩
    have hid : id < e.types.size := (Array.getElem?_eq_some_iff.mp hv).1
    exact ⟨v, by rw [Array.getElem?_push_lt hid, ← hv, Array.getElem?_eq_getElem hid]⟩
  methods := Nat.le_refl _

theorem linked_push (h : e.Linked) (ht : e.Builds t) :
    Linked { e with types := e.types.push t } := by
  refine h.withTypes extends_push fun id t' hid => ?_
  rcases getElem?_push hid with hid | ⟨rfl, rfl⟩
  · exact h.types id t' hid
  · exact ht

theorem grounded_push (h : e.Grounded) (ht : e.Builds t) :
    Grounded { e with types := e.types.push t } where
  array := by
    intro id leaf dims hid
    rcases getElem?_push hid with hid | ⟨rfl, rfl⟩
    · exact h.array id leaf dims hid
    · exact ht
  parameterized := by
    intro id r generic arguments hid x hx
    rcases getElem?_push hid with hid | ⟨rfl, rfl⟩
    · exact h.parameterized id r generic arguments hid x hx
    · exact ht x hx
  wildcard := by
    intro id kind bound hid
    rcases getElem?_push hid with hid | ⟨rfl, rfl⟩
    · exact h.wildcard id kind bound hid
    · exact ht bound rfl
  generic := by
    intro id r hid x hx
    apply extends_push.isVariable
    rcases getElem?_push hid with hid | ⟨rfl, rfl⟩
    · exact h.generic id r hid x hx
    · exact ht x hx

/-! ### Changing a type -/

theorem revises_getElem? (hchange : ∀ t, e.Revises t (change t))
    (h : (e.updateType target change).types[id]? = some t') :
    ∃ t, e.types[id]? = some t ∧ e.Revises t t' := by
  unfold updateType at h
  dsimp only at h
  rw [Array.getElem?_modify] at h
  split at h
  · obtain ⟨t, ht, rfl⟩ := Option.map_eq_some_iff.mp h
    exact ⟨t, ht, hchange t⟩
  · exact ⟨t', h, .same t'⟩

theorem extends_updateType {change : TypeBinding → TypeBinding} {target : Nat}
    (hchange : ∀ t, e.Revises t (change t)) : e.Extends (e.updateType target change) where
  size := by simp [updateType]
  isVariable := by
    rintro id ⟨v, hv⟩
    have hid : id < (e.updateType target change).types.size := by
      simpa [updateType] using (Array.getElem?_eq_some_iff.mp hv).1
    obtain ⟨t, ht, hrevises⟩ := revises_getElem? hchange (Array.getElem?_eq_getElem hid)
    rw [hv] at ht
    obtain rfl := Option.some.inj ht
    have hget := Array.getElem?_eq_getElem hid
    generalize (e.updateType target change).types[id] = t' at hrevises hget
    cases hrevises with
    | same => exact ⟨v, hget⟩
    | typeVariable _ v' => exact ⟨v', hget⟩
  methods := Nat.le_refl _

theorem Revises.builds (h : e.Revises t t') (ht : e.Builds t) : e.Builds t' := by
  cases h with
  | same => exact ht
  | typeVariable v v' hv => exact hv ht
  | reference => exact trivial
  | generic r r' hvariables => exact hvariables

theorem linked_updateType {change : TypeBinding → TypeBinding} {target : Nat} (h : e.Linked)
    (hchange : ∀ t, e.Revises t (change t)) : (e.updateType target change).Linked := by
  refine h.withTypes (extends_updateType hchange) fun id t' hid => ?_
  obtain ⟨t, ht, hrevises⟩ := revises_getElem? hchange hid
  exact hrevises.builds (h.types id t ht)

theorem grounded_updateType {change : TypeBinding → TypeBinding} {target : Nat} (h : e.Grounded)
    (hchange : ∀ t, e.Revises t (change t)) : (e.updateType target change).Grounded where
  array := by
    intro id leaf dims hid
    obtain ⟨t, ht, hrevises⟩ := revises_getElem? hchange hid
    cases hrevises with
    | same => exact h.array id leaf dims ht
  parameterized := by
    intro id r generic arguments hid
    obtain ⟨t, ht, hrevises⟩ := revises_getElem? hchange hid
    cases hrevises with
    | same => exact h.parameterized id r generic arguments ht
  wildcard := by
    intro id kind bound hid
    obtain ⟨t, ht, hrevises⟩ := revises_getElem? hchange hid
    cases hrevises with
    | same => exact h.wildcard id kind bound ht
  generic := by
    intro id r hid x hx
    apply (extends_updateType hchange).isVariable
    obtain ⟨t, ht, hrevises⟩ := revises_getElem? hchange hid
    cases hrevises with
    | same => exact h.generic id r ht x hx
    | generic _ _ hvariables => exact hvariables x hx

/-! ### Methods and fields -/

theorem linked_addMethod {m : MethodBinding} (h : e.Linked)
    (hm : ∀ x ∈ m.components, x < e.types.size) : (e.addMethod m).2.Linked where
  types id t ht := (h.types id t ht).later (.of_types rfl (by simp [addMethod]))
  methods id m' hid := by
    rcases getElem?_push hid with hid | ⟨rfl, rfl⟩
    · exact h.methods id m' hid
    · exact hm
  fields := h.fields

theorem linked_updateMethod {change : MethodBinding → MethodBinding} (h : e.Linked)
    (hchange : ∀ m, (∀ x ∈ m.components, x < e.types.size) →
      ∀ x ∈ (change m).components, x < e.types.size) : (e.updateMethod target change).Linked where
  types id t ht := (h.types id t ht).later (.of_types rfl (by simp [updateMethod]))
  methods id m' hid := by
    unfold updateMethod at hid
    dsimp only at hid
    rw [Array.getElem?_modify] at hid
    split at hid
    · obtain ⟨m, hm, rfl⟩ := Option.map_eq_some_iff.mp hid
      exact hchange m (h.methods id m hm)
    · exact h.methods id m' hid
  fields := h.fields

theorem linked_addField {f : FieldBinding} (h : e.Linked)
    (hf : ∀ x ∈ f.components, x < e.types.size) : (e.addField f).2.Linked where
  types id t ht := (h.types id t ht).later (.of_types rfl (Nat.le_refl _))
  methods := h.methods
  fields id f' hid := by
    rcases getElem?_push hid with hid | ⟨rfl, rfl⟩
    · exact h.fields id f' hid
    · exact hf

end Environment

/-- The numbers that a resolver keeps belong to types, and these are grounded and linked. -/
structure Resolver.Valid (r : Resolver) : Prop where
  grounded : r.env.Grounded
  linked : r.env.Linked
  declared : ∀ entry ∈ r.declared, entry.2 < r.env.types.size
  base : ∀ entry ∈ r.base, entry.2 < r.env.types.size
  scopes : ∀ scope ∈ r.scopes, ∀ entry ∈ scope, entry.2 < r.env.types.size
  pending : ∀ id ∈ r.pending, id < r.env.types.size

/-- A resolver stays valid when only its environment changes for a later one. -/
theorem Resolver.Valid.withEnv {r : Resolver} {e : Environment} (h : r.Valid)
    (hextends : r.env.Extends e) (hgrounded : e.Grounded) (hlinked : e.Linked) :
    Resolver.Valid { r with env := e } where
  grounded := hgrounded
  linked := hlinked
  declared entry hentry := (h.declared entry hentry).trans_le hextends.size
  base entry hentry := (h.base entry hentry).trans_le hextends.size
  scopes scope hscope entry hentry := (h.scopes scope hscope entry hentry).trans_le hextends.size
  pending id hid := (h.pending id hid).trans_le hextends.size

namespace Resolve

variable {α β : Type} {r : Resolver} {a : Resolve α} {f : α → Resolve β}
  {Q : α → Environment → Prop} {Q' : β → Environment → Prop}

/-- From `r`, a step ends validly in a later environment, with a result as `Q` says. -/
structure Gives (r : Resolver) (a : Resolve α) (Q : α → Environment → Prop) : Prop where
  valid : (a r).2.Valid
  later : r.env.Extends (a r).2.env
  result : Q (a r).1 (a r).2.env

/-- The number of a type. -/
def IsType (id : TypeId) (e : Environment) : Prop := id < e.types.size

/-- The numbers of types. -/
def AreTypes (ids : List TypeId) (e : Environment) : Prop := ∀ id ∈ ids, IsType id e

theorem IsType.later {id : TypeId} {e e' : Environment} (h : IsType id e) (he : e.Extends e') :
    IsType id e' := Nat.lt_of_lt_of_le h he.size

theorem Gives.pure {b : α} (hr : r.Valid) (hQ : Q b r.env) : Gives r (Pure.pure b) Q :=
  ⟨hr, .refl _, hQ⟩

theorem Gives.bind (ha : Gives r a Q)
    (hf : ∀ b r', r'.Valid → r.env.Extends r'.env → Q b r'.env → Gives r' (f b) Q') :
    Gives r (a >>= f) Q' := by
  obtain ⟨hvalid, hlater, hresult⟩ := ha
  obtain ⟨hvalid', hlater', hresult'⟩ := hf _ _ hvalid hlater hresult
  exact ⟨hvalid', hlater.trans hlater', hresult'⟩

theorem Gives.mono {Q' : α → Environment → Prop} (h : Gives r a Q) (hQ : ∀ b e, Q b e → Q' b e) :
    Gives r a Q' := ⟨h.valid, h.later, hQ _ _ h.result⟩

/-- A step that starts by looking at the resolver. -/
theorem Gives.get_bind {f : Resolver → Resolve β} (h : Gives r (f r) Q') :
    Gives r (get >>= f) Q' := ⟨h.valid, h.later, h.result⟩

theorem Gives.modify {change : Resolver → Resolver} (hvalid : (change r).Valid)
    (hlater : r.env.Extends (change r).env) {Q : Unit → Environment → Prop}
    (hQ : Q () (change r).env) : Gives r (modify change) Q := ⟨hvalid, hlater, hQ⟩

/-! ### Types -/

theorem gives_addType {t : TypeBinding} (hr : r.Valid) (ht : r.env.Builds t) :
    Gives r (addType t) fun id e => e.types[id]? = some t :=
  ⟨hr.withEnv Environment.extends_push (Environment.grounded_push hr.grounded ht)
    (Environment.linked_push hr.linked ht), Environment.extends_push, Array.getElem?_push_size⟩

theorem isType_of_getElem? {id : Nat} {t : TypeBinding} {e : Environment}
    (h : e.types[id]? = some t) : IsType id e := (Array.getElem?_eq_some_iff.mp h).1

theorem gives_newType {t : TypeBinding} (hr : r.Valid) (ht : r.env.Builds t) :
    Gives r (addType t) IsType := (gives_addType hr ht).mono fun _ _ => isType_of_getElem?

theorem gives_arrayOf {leaf dims : Nat} (hr : r.Valid) (hleaf : IsType leaf r.env) :
    Gives r (arrayOf leaf dims) IsType := by
  apply Gives.get_bind
  split
  · rename_i inner existing harray
    -- the leaf of an array lies before the array
    exact gives_newType hr ((hr.grounded.array leaf inner existing harray).trans hleaf)
  · exact gives_newType hr hleaf

theorem isType_of_lookup {entries : List (String × TypeId)} {name : String} {id : TypeId}
    {e : Environment} (h : entries.lookup name = some id)
    (hentries : ∀ entry ∈ entries, entry.2 < e.types.size) : IsType id e := by
  obtain ⟨before, after, rfl, _⟩ := List.lookup_eq_some_iff.mp h
  exact hentries (name, id) (by simp)

theorem gives_baseType {word : String} (hr : r.Valid) : Gives r (baseType word) IsType := by
  unfold baseType
  split
  rename_i number name _
  apply Gives.get_bind
  split
  · rename_i type hlookup
    exact .pure hr (isType_of_lookup hlookup hr.base)
  · refine .bind (gives_newType hr trivial) fun type r' hr' _ htype => ?_
    have hbase : ∀ entry ∈ (name, type) :: r'.base, entry.2 < r'.env.types.size := by
      intro entry hentry
      rcases List.mem_cons.mp hentry with rfl | hentry
      · exact htype
      · exact hr'.base entry hentry
    refine .bind (Q := fun _ e => IsType type e) (.modify ?_ (.refl _) htype) ?_
    · exact { hr' with base := hbase }
    · intro _ r'' hr'' _ htype
      exact .pure hr'' htype

theorem isType_of_wordVariable? {segments : List TypeSegment} {id : TypeId} (hr : r.Valid)
    (h : wordVariable? segments r = some id) : IsType id r.env := by
  unfold wordVariable? at h
  split at h
  · obtain ⟨scope, hscope, hlookup⟩ := List.exists_of_findSome?_eq_some h
    exact isType_of_lookup hlookup (hr.scopes scope hscope)
  · cases h

theorem gives_plainType {declared : Option TypeId} {reference : ReferenceBinding} (hr : r.Valid)
    (h : ∀ id ∈ declared, IsType id r.env) : Gives r (plainType declared reference) IsType := by
  unfold plainType
  split
  · exact gives_newType hr trivial
  · rename_i id
    apply Gives.get_bind
    split
    · exact gives_newType hr trivial
    · exact .pure hr (h id rfl)

theorem areTypes_of_declared {words : List String} (hr : r.Valid) :
    ∀ id ∈ (lookupName words r).1, IsType id r.env :=
  fun _ hid => isType_of_lookup hid hr.declared

theorem Gives.cons {ids : Resolve (List TypeId)} {id : Resolve TypeId} (hid : Gives r id IsType)
    (hids : ∀ r', r'.Valid → Gives r' ids AreTypes) :
    Gives r (do let x ← id; return x :: (← ids)) AreTypes := by
  refine .bind hid fun x r' hr' _ hx => .bind (hids r' hr') fun xs r'' hr'' hlater hxs => ?_
  refine .pure hr'' fun y hy => ?_
  rcases List.mem_cons.mp hy with rfl | hy
  · exact hx.later hlater
  · exact hxs y hy

mutual

theorem gives_resolveType : (t : TypeRef) → (r : Resolver) → r.Valid →
    Gives r (resolveType t) IsType
  | ⟨segments, dims, primitive, _⟩, r, hr => by
    unfold resolveType
    extract_lets finish
    have hfinish : ∀ leaf r', r'.Valid → IsType leaf r'.env → Gives r' (finish leaf) IsType := by
      intro leaf r' hr' hleaf
      dsimp only [finish]
      split
      · exact .pure hr' hleaf
      · exact gives_arrayOf hr' hleaf
    split
    · exact .bind (gives_baseType hr) fun leaf r' hr' _ => hfinish leaf r' hr'
    · apply Gives.get_bind
      split
      · rename_i id hid
        exact hfinish id r hr (isType_of_wordVariable? hr hid)
      · refine .bind (gives_resolveLast segments r hr) fun arguments r' hr' hlater harguments => ?_
        split
        · refine .bind (gives_plainType hr' ?_) fun leaf r' hr' _ => hfinish leaf r' hr'
          exact fun id hid => (areTypes_of_declared hr id hid).later hlater
        · exact .bind (gives_newType hr' harguments) fun leaf r' hr' _ => hfinish leaf r' hr'

theorem gives_resolveLast : (segments : List TypeSegment) → (r : Resolver) → r.Valid →
    Gives r (resolveLast segments) AreTypes
  | [], r, hr => .pure hr (by simp [AreTypes])
  | [⟨_, arguments, _⟩], r, hr => gives_resolveArguments arguments r hr
  | ⟨_, _, _⟩ :: next :: rest, r, hr => by
    unfold resolveLast
    exact gives_resolveLast (next :: rest) r hr

theorem gives_resolveArguments : (arguments : List TypeArgument) → (r : Resolver) → r.Valid →
    Gives r (resolveArguments arguments) AreTypes
  | [], r, hr => .pure hr (by simp [AreTypes])
  | argument :: rest, r, hr =>
    .cons (gives_resolveArgument argument r hr) (gives_resolveArguments rest)

theorem gives_resolveArgument : (argument : TypeArgument) → (r : Resolver) → r.Valid →
    Gives r (resolveArgument argument) IsType
  | .type type, r, hr => gives_resolveType type r hr
  | .wildcard kind none _, r, hr => gives_newType hr (by simp [Environment.Builds])
  | .wildcard kind (some bound) _, r, hr => by
    refine .bind (gives_resolveType bound r hr) fun id r' hr' _ hid => gives_newType hr' ?_
    rintro x ⟨⟩
    exact hid

end

theorem gives_mapM {γ : Type} {step : γ → Resolve TypeId}
    (hstep : ∀ x r, r.Valid → Gives r (step x) IsType) (xs : List γ) (hr : r.Valid) :
    Gives r (xs.mapM step) AreTypes := by
  induction xs generalizing r with
  | nil => exact .pure hr (by simp [AreTypes])
  | cons x xs ih =>
      rw [List.mapM_cons]
      exact .cons (hstep x r hr) fun r' hr' => ih hr'

/-- A loop of steps that need no more than the types of its start. -/
theorem gives_forM {γ : Type} {step : γ → Resolve Unit} {start : Environment}
    (hstep : ∀ x r, r.Valid → start.Extends r.env → Gives r (step x) fun _ _ => True)
    (xs : List γ) (hr : r.Valid) (hstart : start.Extends r.env) :
    Gives r (xs.forM step) fun _ _ => True := by
  induction xs generalizing r with
  | nil => exact .pure hr trivial
  | cons x xs ih =>
      refine .bind (hstep x r hr hstart) fun _ _ hr' hlater _ => ?_
      exact ih hr' (hstart.trans hlater)

/-! ### Type variables -/

theorem gives_updateType {id : TypeId} {change : Resolver → TypeBinding → TypeBinding}
    (hr : r.Valid) (hchange : ∀ t, r.env.Revises t (change r t)) :
    Gives r (modify fun r => { r with env := r.env.updateType id (change r) })
      fun _ _ => True :=
  .modify (hr.withEnv (Environment.extends_updateType hchange)
    (Environment.grounded_updateType hr.grounded hchange)
    (Environment.linked_updateType hr.linked hchange))
    (Environment.extends_updateType hchange) trivial

theorem gives_setBounds {id : TypeId} {bounds : List TypeId} (hr : r.Valid)
    (hbounds : AreTypes bounds r.env) : Gives r (setBounds id bounds) fun _ _ => True := by
  refine gives_updateType hr fun t => ?_
  split
  · refine .typeVariable _ _ fun hv => ?_
    split
    · exact hv
    · rename_i first rest
      have hinterfaces : ∀ {new : List TypeId}, AreTypes new r.env →
          ∀ x ∈ _ ++ new, x < r.env.types.size :=
        fun hnew x hx => (List.mem_append.mp hx).elim (hv.interfaces x) (hnew x)
      split
      · exact { hv with interfaces := hinterfaces hbounds }
      · refine ⟨hv.declaring, ?_, hinterfaces fun x hx => hbounds x (List.mem_cons_of_mem _ hx)⟩
        rintro _ ⟨⟩
        exact hbounds first List.mem_cons_self
  · exact .same _

/-- The numbers of type variables. -/
def AreVariables (ids : List TypeId) (e : Environment) : Prop := ∀ id ∈ ids, e.IsVariable id

theorem AreVariables.later {ids : List TypeId} {e e' : Environment} (h : AreVariables ids e)
    (he : e.Extends e') : AreVariables ids e' := fun id hid => he.isVariable id (h id hid)

theorem gives_newVariables {declaring : VariableOwner} (parameters : List TypeParameter)
    (hr : r.Valid) (hdeclaring : r.env.HasOwner declaring) :
    Gives r (parameters.mapM fun p =>
      addType (.typeVariable { name := p.name, declaring := some declaring })) AreVariables := by
  induction parameters generalizing r with
  | nil => exact .pure hr (by simp [AreVariables])
  | cons p parameters ih =>
      rw [List.mapM_cons]
      refine .bind (gives_addType hr ?_) fun id r' hr' hlater hid => ?_
      · exact ⟨by rintro owner ⟨⟩; exact hdeclaring, by simp, by simp⟩
      · refine .bind (ih hr' (hdeclaring.later hlater)) fun ids r'' hr'' hlater hids => ?_
        refine .pure hr'' fun x hx => ?_
        rcases List.mem_cons.mp hx with rfl | hx
        · exact hlater.isVariable x ⟨_, hid⟩
        · exact hids x hx

theorem gives_boundLoop (pairs : List (TypeParameter × TypeId)) (hr : r.Valid) :
    Gives r (forIn pairs PUnit.unit fun x _ => do
      setBounds x.2 (← x.1.bounds.mapM resolveType)
      return ForInStep.yield PUnit.unit) fun _ _ => True := by
  induction pairs generalizing r with
  | nil => exact .pure hr trivial
  | cons x pairs ih =>
      rw [List.forIn_cons]
      refine .bind (Q := fun step _ => step = .yield ⟨⟩) ?_ ?_
      · refine .bind (gives_mapM gives_resolveType _ hr) fun bounds r' hr' _ hbounds => ?_
        exact .bind (gives_setBounds hr' hbounds) fun _ r'' hr'' _ _ => .pure hr'' rfl
      · rintro step r' hr' _ rfl
        exact ih hr'

theorem gives_openScope {scope : List (String × TypeId)} (hr : r.Valid)
    (hscope : ∀ entry ∈ scope, entry.2 < r.env.types.size) :
    Gives r (modify fun r => { r with scopes := scope :: r.scopes }) fun _ _ => True := by
  refine .modify { hr with scopes := ?_ } (.refl _) trivial
  intro scope' hscope' entry hentry
  rcases List.mem_cons.mp hscope' with rfl | hscope'
  · exact hscope entry hentry
  · exact hr.scopes scope' hscope' entry hentry

theorem gives_bindTypeParameters {parameters : List TypeParameter} {declaring : VariableOwner}
    (hr : r.Valid) (hdeclaring : r.env.HasOwner declaring) :
    Gives r (bindTypeParameters parameters declaring) AreVariables := by
  refine .bind (gives_newVariables parameters hr hdeclaring) fun ids r₁ hr₁ _ hids => ?_
  refine .bind (gives_openScope hr₁ ?_) fun _ r₂ hr₂ hlater₂ _ => ?_
  · intro entry hentry
    exact (hids _ (List.of_mem_zip (List.mem_reverse.mp hentry)).2).lt
  · refine .bind (gives_boundLoop _ hr₂) fun _ r₃ hr₃ hlater₃ _ => .pure hr₃ ?_
    exact (hids.later hlater₂).later hlater₃

theorem gives_closeScope (hr : r.Valid) : Gives r closeScope fun _ _ => True :=
  .modify { hr with scopes := fun scope hscope => hr.scopes scope (List.mem_of_mem_tail hscope) }
    (.refl _) trivial

/-! ### Members -/

theorem gives_addMethod {m : MethodBinding} (hr : r.Valid) (hm : AreTypes m.components r.env) :
    Gives r (addMethod m) fun id e => e.HasOwner (.method id) := by
  have hextends : r.env.Extends (r.env.addMethod m).2 :=
    .of_types rfl (by simp [Environment.addMethod])
  refine ⟨hr.withEnv hextends ?_ (Environment.linked_addMethod hr.linked hm), hextends, ?_⟩
  · exact hr.grounded.of_types rfl
  · change r.env.methods.size < (r.env.methods.push m).size
    simp

theorem gives_updateMethod {id : MethodId} {change : MethodBinding → MethodBinding} (hr : r.Valid)
    (hchange : ∀ m, AreTypes m.components r.env → AreTypes (change m).components r.env) :
    Gives r (modify fun r => { r with env := r.env.updateMethod id change }) fun _ _ => True := by
  have hextends : r.env.Extends (r.env.updateMethod id change) :=
    .of_types rfl (by simp [Environment.updateMethod])
  refine .modify (hr.withEnv hextends ?_ ?_) hextends trivial
  · exact hr.grounded.of_types rfl
  · exact Environment.linked_updateMethod hr.linked hchange

theorem gives_addField {f : FieldBinding} (hr : r.Valid) (hf : AreTypes f.components r.env) :
    Gives r (addField f) fun _ _ => True := by
  have hextends : r.env.Extends (r.env.addField f).2 := .of_types rfl (Nat.le_refl _)
  refine .modify (hr.withEnv hextends ?_ ?_) hextends trivial
  · exact hr.grounded.of_types rfl
  · exact Environment.linked_addField hr.linked hf

theorem gives_resolveField {owner : TypeId} (f : FieldDecl) (hr : r.Valid)
    (howner : IsType owner r.env) : Gives r (resolveField owner f) fun _ _ => True := by
  refine .bind (gives_resolveType f.type r hr) fun type r' hr' hlater htype => ?_
  refine gives_addField hr' ?_
  simp [AreTypes, FieldBinding.components, htype, howner.later hlater]

theorem gives_resolveParameter (p : Parameter) (r : Resolver) (hr : r.Valid) :
    Gives r (resolveParameter p) IsType := by
  refine .bind (gives_resolveType p.type r hr) fun type r' hr' _ htype => ?_
  split
  · exact gives_arrayOf hr' htype
  · exact .pure hr' htype

/-- The number of a type, if there is one. -/
def IsOptional (id : Option TypeId) (e : Environment) : Prop := ∀ x ∈ id, IsType x e

theorem IsOptional.later {id : Option TypeId} {e e' : Environment} (h : IsOptional id e)
    (he : e.Extends e') : IsOptional id e' := fun x hx => (h x hx).later he

theorem gives_resolveOptional (t : Option TypeRef) (hr : r.Valid) :
    Gives r (resolveOptional t) IsOptional := by
  cases t with
  | none => exact .pure hr (by simp [IsOptional])
  | some t =>
      have h := gives_resolveType t r hr
      refine ⟨h.valid, h.later, ?_⟩
      rintro x ⟨⟩
      exact h.result

theorem gives_resolveMethod {owner : TypeId} (m : MethodDecl) (hr : r.Valid)
    (howner : IsType owner r.env) : Gives r (resolveMethod owner m) fun _ _ => True := by
  refine .bind (gives_addMethod hr ?_) fun id r₁ hr₁ later₁ hid => ?_
  · simp [AreTypes, MethodBinding.components, howner]
  refine .bind (gives_bindTypeParameters hr₁ hid) fun typeVariables r₂ hr₂ _ hvariables => ?_
  refine .bind (gives_resolveOptional m.returnType hr₂) fun returnType r₃ hr₃ later₃ hreturn => ?_
  refine .bind (gives_mapM gives_resolveParameter _ hr₃) fun parameters r₄ hr₄ later₄ hparams => ?_
  refine .bind (gives_mapM gives_resolveType _ hr₄) fun throws r₅ hr₅ later₅ hthrows => ?_
  refine .bind (gives_closeScope hr₅) fun _ r₆ hr₆ later₆ _ => ?_
  have later₄₆ := later₅.trans later₆
  have later₃₆ := later₄.trans later₄₆
  refine gives_updateMethod hr₆ fun binding hbinding x hx => ?_
  simp only [MethodBinding.components, List.mem_append, Option.mem_toList] at hx hbinding
  rcases hx with (((hx | hx) | hx) | hx) | hx
  · exact (hreturn.later later₃₆) x hx
  · exact (hthrows x hx).later later₆
  · exact hbinding x (by simp [hx])
  · exact (hvariables.later (later₃.trans later₃₆) x hx).lt
  · exact (hparams x hx).later later₄₆

/-! ### Declared types -/

theorem builds_declaration {package name : List String} {t : TypeDecl} {e : Environment} :
    e.Builds (declaration package name t) := by
  unfold declaration
  dsimp only
  split
  · exact trivial
  · exact fun x hx => absurd hx (by simp [ReferenceBinding.of])

theorem gives_declareType {name : List String} {t : TypeDecl} (hr : r.Valid) :
    Gives r (declareType name t) fun _ _ => True := by
  have hbuilds : r.env.Builds (declaration r.package name t) := builds_declaration
  have hvalid := hr.withEnv Environment.extends_push
    (Environment.grounded_push hr.grounded hbuilds) (Environment.linked_push hr.linked hbuilds)
  have hnew : r.env.types.size < (r.env.addType (declaration r.package name t)).2.types.size := by
    simp [Environment.addType]
  refine .modify { hvalid with declared := ?_, pending := ?_ } Environment.extends_push trivial
  · intro entry hentry
    rcases List.mem_cons.mp hentry with rfl | hentry
    · exact hnew
    · rcases List.mem_cons.mp hentry with rfl | hentry
      · exact hnew
      · exact hvalid.declared entry hentry
  · intro id hid
    rcases List.mem_append.mp hid with hid | hid
    · exact hvalid.pending id hid
    · rw [List.mem_singleton.mp hid]
      exact hnew

mutual

theorem gives_declareAll : (t : TypeDecl) → (outer : List String) → (r : Resolver) → r.Valid →
    Gives r (declareAll outer t) fun _ _ => True
  | ⟨_, name, _, _, _, _, _, members, _, _, _, _⟩, outer, r, hr => by
    unfold declareAll
    exact .bind (gives_declareType hr) fun _ r' hr' _ _ =>
      gives_declareMembers members (outer ++ [name]) r' hr'

theorem gives_declareMembers : (members : List Member) → (outer : List String) →
    (r : Resolver) → r.Valid → Gives r (declareMembers outer members) fun _ _ => True
  | [], _, r, hr => .pure hr trivial
  | .type t :: rest, outer, r, hr => by
    unfold declareMembers
    exact .bind (gives_declareAll t outer r hr) fun _ r' hr' _ _ =>
      gives_declareMembers rest outer r' hr'
  | .field _ :: rest, outer, r, hr => by
    unfold declareMembers
    exact gives_declareMembers rest outer r hr
  | .method _ :: rest, outer, r, hr => by
    unfold declareMembers
    exact gives_declareMembers rest outer r hr
  | .initializer _ :: rest, outer, r, hr => by
    unfold declareMembers
    exact gives_declareMembers rest outer r hr

end

theorem gives_nextPending? (hr : r.Valid) : Gives r nextPending? IsOptional where
  valid := { hr with pending := fun id hid => hr.pending id (List.mem_of_mem_tail hid) }
  later := .refl _
  result := fun id hid => hr.pending id (List.mem_of_mem_head? hid)

theorem gives_setSupertypes {id : TypeId} {superclass : Option TypeId}
    {interfaces typeVariables : List TypeId} (hr : r.Valid)
    (h : AreVariables typeVariables r.env) :
    Gives r (setSupertypes id superclass interfaces typeVariables) fun _ _ => True := by
  refine gives_updateType hr fun t => ?_
  split
  · exact .generic _ _ h
  · exact .reference _ _
  · exact .same _

theorem gives_resolveHeader {id : TypeId} {t : TypeDecl} (hr : r.Valid) (hid : IsType id r.env) :
    Gives r (resolveHeader id t) fun _ _ => True := by
  refine .bind (gives_bindTypeParameters hr hid) fun typeVariables r₁ hr₁ hlater₁ hvariables => ?_
  refine .bind (gives_resolveOptional t.superclass hr₁) fun superclass r₂ hr₂ hlater₂ _ => ?_
  refine .bind (gives_mapM gives_resolveType _ hr₂) fun interfaces r₃ hr₃ hlater₃ _ => ?_
  refine .bind (gives_setSupertypes hr₃ ?_) fun _ r₄ hr₄ hlater₄ _ => ?_
  · exact (hvariables.later hlater₂).later hlater₃
  · have hid₄ : IsType id r₄.env :=
      hid.later (((hlater₁.trans hlater₂).trans hlater₃).trans hlater₄)
    refine .bind (gives_forM ?_ _ hr₄ (.refl _)) fun _ r₅ hr₅ hlater₅ _ => ?_
    · exact fun f r hr hlater => gives_resolveField f hr (hid₄.later hlater)
    · refine gives_forM ?_ _ hr₅ hlater₅
      exact fun m r hr hlater => gives_resolveMethod m hr (hid₄.later hlater)

mutual

theorem gives_resolveAll : (t : TypeDecl) → (r : Resolver) → r.Valid →
    Gives r (resolveAll t) fun _ _ => True
  | ⟨_, _, _, _, _, _, _, members, _, _, _, _⟩, r, hr => by
    unfold resolveAll
    refine .bind (gives_nextPending? hr) fun next r₁ hr₁ _ hnext => ?_
    cases next with
    | none => exact .pure hr₁ trivial
    | some id =>
        refine .bind (gives_resolveHeader hr₁ (hnext id rfl)) fun _ r₂ hr₂ _ _ => ?_
        refine .bind (gives_resolveMembers members r₂ hr₂) fun _ r₃ hr₃ _ _ => ?_
        exact gives_closeScope hr₃

theorem gives_resolveMembers : (members : List Member) → (r : Resolver) → r.Valid →
    Gives r (resolveMembers members) fun _ _ => True
  | [], r, hr => .pure hr trivial
  | .type t :: rest, r, hr => by
    unfold resolveMembers
    exact .bind (gives_resolveAll t r hr) fun _ r' hr' _ _ => gives_resolveMembers rest r' hr'
  | .field _ :: rest, r, hr => by
    unfold resolveMembers
    exact gives_resolveMembers rest r hr
  | .method _ :: rest, r, hr => by
    unfold resolveMembers
    exact gives_resolveMembers rest r hr
  | .initializer _ :: rest, r, hr => by
    unfold resolveMembers
    exact gives_resolveMembers rest r hr

end

theorem gives_resolveUnit {unit : CompilationUnit} (hr : r.Valid) :
    Gives r (resolveUnit unit) fun _ _ => True := by
  apply Gives.get_bind
  refine .bind (gives_forM ?_ _ hr (.refl _)) fun _ r' hr' _ _ => ?_
  · exact fun t r' hr' _ => gives_declareAll t r.package r' hr'
  · exact gives_forM (fun t r hr _ => gives_resolveAll t r hr) _ hr' (.refl _)

end Resolve

theorem CompilationUnit.resolve_valid (unit : CompilationUnit) :
    ∃ r : Resolver, r.Valid ∧ r.env = unit.resolve := by
  have hstart : Resolver.Valid {
      package := (unit.package.map fun p => p.name.words).getD []
      imported := Resolve.singleImports unit } :=
    ⟨Environment.grounded_empty, Environment.linked_empty, by simp, by simp, by simp, by simp⟩
  exact ⟨_, (Resolve.gives_resolveUnit hstart).valid, rfl⟩

/-- The types of a resolved unit are built from earlier ones. -/
theorem CompilationUnit.resolve_grounded (unit : CompilationUnit) : unit.resolve.Grounded := by
  obtain ⟨r, hr, henv⟩ := unit.resolve_valid
  exact henv ▸ hr.grounded

/-- Whatever the bindings of a resolved unit name is there. -/
theorem CompilationUnit.resolve_linked (unit : CompilationUnit) : unit.resolve.Linked := by
  obtain ⟨r, hr, henv⟩ := unit.resolve_valid
  exact henv ▸ hr.linked

/-- **Types of two units are equal if and only if some relation between types, closed under the
rules of equality, relates them.** -/
theorem types_equal_iff_related (left right : CompilationUnit) (l r : TypeId) :
    typesEqual left.resolve l right.resolve r = true ↔
      ∃ R : TypeId → TypeId → Prop, R l r ∧
        ∀ a b, R a b → EnvironmentPair.Steps ⟨left.resolve, right.resolve⟩ R a b :=
  EnvironmentPair.holds_iff_equal left.resolve_grounded

end AspectLang
