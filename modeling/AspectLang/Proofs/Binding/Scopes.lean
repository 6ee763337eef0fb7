import AspectLang.Proofs.Binding.Passes

/-! # Names and scopes

A name is looked up from the type that it is in outwards: the innermost of the types around, or
else the top level, that has a member type with its first word settles which types the rest goes
through (`CompilationUnit.Denotes`).  The resolver does not look it up that way.  It has one table
for the whole unit, with every declared type under its simple and under its qualified name, and of
two types with one name the last declared one counts (`CompilationUnit.lastCalled?`); this is what
the table comes to after the first pass (`Resolve.named_forM`, `Resolve.lookup_nameTable`).

Wherever the two agree, a name is resolved to the declared type or to a raw type of it
(`Resolve.finds_resolveType`).  `Environment.Reads` says so of all names in a type as it is written. -/

namespace AspectLang

/-! ### Sites -/

/-- Where a type is written: the names of the types around, the outermost first, and the type
variables in scope. -/
structure Site where
  path : List String
  typeVariables : List String

namespace Site

/-- The site inside something with type parameters. -/
def under (parameters : List TypeParameter) (p : Site) : Site :=
  { p with typeVariables := parameters.map TypeParameter.name ++ p.typeVariables }

/-- The site inside a type. -/
def within (name : String) (parameters : List TypeParameter) (p : Site) : Site :=
  { p.under parameters with path := p.path ++ [name] }

end Site

mutual

/-- The types that a type declares, in the order of `TypeDecl.declarations`, with their sites. -/
def TypeDecl.sites (outer : Site) (t : TypeDecl) : List (Site × TypeDecl) :=
  (outer.within t.name t.typeParameters, t) :: match t with
    | ⟨_, name, _, _, parameters, _, _, members, _, _, _, _⟩ =>
      Member.sites (outer.within name parameters) members

/-- The types that members declare, with their sites. -/
def Member.sites (outer : Site) (members : List Member) : List (Site × TypeDecl) :=
  match members with
  | [] => []
  | .type t :: rest => t.sites outer ++ Member.sites outer rest
  | _ :: rest => Member.sites outer rest

end

/-- A declared type without the type variables around it. -/
def Site.entry (x : Site × TypeDecl) : List String × TypeDecl := (x.1.path, x.2)

mutual

theorem TypeDecl.entries_sites : (t : TypeDecl) → (outer : Site) →
    (t.sites outer).map Site.entry = t.declarations outer.path
  | ⟨_, name, _, _, parameters, _, _, members, _, _, _, _⟩, outer => by
    unfold TypeDecl.sites TypeDecl.declarations
    exact congrArg (_ :: ·) (Member.entries_sites members (outer.within name parameters))

theorem Member.entries_sites : (members : List Member) → (outer : Site) →
    (Member.sites outer members).map Site.entry = Member.declarations outer.path members
  | [], _ => by
    unfold Member.sites Member.declarations
    rfl
  | .type t :: rest, outer => by
    unfold Member.sites Member.declarations
    rw [List.map_append, TypeDecl.entries_sites t, Member.entries_sites rest]
  | .field _ :: rest, outer => by
    unfold Member.sites Member.declarations
    exact Member.entries_sites rest outer
  | .method _ :: rest, outer => by
    unfold Member.sites Member.declarations
    exact Member.entries_sites rest outer
  | .initializer _ :: rest, outer => by
    unfold Member.sites Member.declarations
    exact Member.entries_sites rest outer

end

namespace CompilationUnit

/-- The types that a unit declares, with their sites. -/
def sites (unit : CompilationUnit) : List (Site × TypeDecl) :=
  unit.types.flatMap (TypeDecl.sites ⟨[], []⟩)

theorem entries_sites (unit : CompilationUnit) :
    unit.sites.map Site.entry = unit.declarations := by
  unfold sites declarations
  rw [List.map_flatMap]
  exact congrArg (List.flatMap · unit.types) (funext fun t => t.entries_sites _)

/-! ### What names denote -/

/-- Looked up from the type with a given path outwards, the words are the declared type with the
number `i`: from the innermost type that has a member type with the first word, or from the top
level, they lead to it. -/
def Denotes (unit : CompilationUnit) (path words : List String) (i : Nat) : Prop :=
  ∃ outer t, outer <+: path ∧ unit.declarations[i]? = some (outer ++ words, t) ∧
    ∀ inner, inner <+: path → outer.length < inner.length →
      inner ++ words.take 1 ∉ unit.declarations.map Prod.fst

/-- Whether a declared type has the simple name or the qualified name. -/
def isCalled (unit : CompilationUnit) (name : String) (x : List String × TypeDecl) : Bool :=
  ".".intercalate (unit.packageWords ++ x.1) == name || x.2.name == name

/-- The number of the last declared type that has the words, with dots between them, for its simple
name or its qualified name. -/
def lastCalled? (unit : CompilationUnit) (words : List String) : Option Nat :=
  (unit.declarations.zipIdx.filter fun x =>
    unit.isCalled (".".intercalate words) x.1).getLast?.map Prod.snd

theorem lt_of_lastCalled? {unit : CompilationUnit} {words : List String} {i : Nat}
    (h : unit.lastCalled? words = some i) : i < unit.declarations.length := by
  obtain ⟨x, hx, rfl⟩ := Option.map_eq_some_iff.mp h
  have hmem := (List.mem_filter.mp (List.mem_of_getLast? hx)).1
  exact (List.getElem?_eq_some_iff.mp (List.mem_zipIdx_iff_getElem?.mp hmem)).1

end CompilationUnit

/-! ### What types as written became -/

namespace Environment

/-- A use of a declared type without arguments: the type itself, or a raw type of a generic one. -/
inductive Uses (e : Environment) (id : TypeId) : TypeId → Prop
  | plain {r : ReferenceBinding} : e.types[id]? = some (.reference r) → Uses e id id
  | raw {r r' : ReferenceBinding} {leaf : TypeId} : e.types[id]? = some (.generic r) →
      e.types[leaf]? = some (.raw r') → r'.bare = r.bare → Uses e id leaf

/-- The type without its dimensions. -/
def leaf (e : Environment) (id : TypeId) : TypeId :=
  match e.types[id]? with
  | some (.array leaf _) => leaf
  | _ => id

/-- The type is what words at a site may stand for: unless the words are a type variable in scope,
if they denote a declared type, and this is the last one that is called so, then it is a use
of that type. -/
def Names (e : Environment) (unit : CompilationUnit) (p : Site) (words : List String)
    (leaf : TypeId) : Prop :=
  (∀ word, words = [word] → word ∉ p.typeVariables) → ∀ i, unit.Denotes p.path words i →
    unit.lastCalled? words = some i → e.Uses i leaf

variable (e : Environment) (unit : CompilationUnit) (p : Site)

mutual

/-- A type as written became a type of the environment, and so did the types in its arguments: its
leaf is what its words name, if it has no arguments, or else has these for its arguments. -/
def Reads : TypeRef → TypeId → Prop
  | ⟨segments, _, primitive, _⟩, id => id < e.types.size ∧ (primitive = false →
      ∃ arguments, ReadsLast segments arguments ∧
        (arguments = [] → e.Names unit p (segments.map TypeSegment.name) (e.leaf id)) ∧
        (arguments ≠ [] →
          ∃ r generic, e.types[e.leaf id]? = some (.parameterized r generic arguments)))

/-- The arguments of the last segment became types. -/
def ReadsLast : List TypeSegment → List TypeId → Prop
  | [], ids => ids = []
  | [⟨_, arguments, _⟩], ids => ReadsArguments arguments ids
  | _ :: rest, ids => ReadsLast rest ids

/-- Type arguments became types in order. -/
def ReadsArguments : List TypeArgument → List TypeId → Prop
  | [], ids => ids = []
  | argument :: rest, ids =>
    ∃ id more, ids = id :: more ∧ ReadsArgument argument id ∧ ReadsArguments rest more

/-- A type argument became a type. -/
def ReadsArgument : TypeArgument → TypeId → Prop
  | .type type, id => Reads type id
  | .wildcard _ none _, _ => True
  | .wildcard kind (some bound) _, id =>
    ∃ x, e.types[id]? = some (.wildcard kind (some x)) ∧ Reads bound x

end

end Environment

/-! ### What stays when types are given more -/

namespace TypeBinding

/-- Whether the type is given something after it was made. -/
def isCompleted : TypeBinding → Bool
  | .typeVariable _ | .generic _ | .reference _ => true
  | _ => false

theorem eq_of_bare {t t' : TypeBinding} (h : t'.bare = t.bare) (ht : t.isCompleted = false) :
    t' = t := by
  cases t with
  | typeVariable | generic | reference => cases ht
  | _ =>
      cases t' with
      | typeVariable | generic | reference => cases h
      | _ => exact h

end TypeBinding

namespace Environment

variable {e e' : Environment} {unit : CompilationUnit} {p : Site}

theorem Revised.of_some (h : e.Revised e') {id : TypeId} {t : TypeBinding}
    (ht : e.types[id]? = some t) (hcompleted : t.isCompleted = false) :
    e'.types[id]? = some t := by
  obtain ⟨t', ht', hbare⟩ := h id t ht
  rw [ht', TypeBinding.eq_of_bare hbare hcompleted]

theorem leaf_of_isArray {t : TypeBinding} {id : TypeId} (h : e.types[id]? = some t)
    (ht : t.isArray = false) : e.leaf id = id := by
  unfold leaf
  rw [h]
  cases t with
  | array => cases ht
  | _ => rfl

theorem Revised.leaf_eq (h : e.Revised e') {id : TypeId} (hid : id < e.types.size) :
    e'.leaf id = e.leaf id := by
  have ht := Array.getElem?_eq_getElem hid
  generalize e.types[id] = t at ht
  cases harray : t.isArray with
  | true =>
      obtain ⟨inner, dims, rfl⟩ : ∃ inner dims, t = .array inner dims := by
        cases t with
        | array inner dims => exact ⟨inner, dims, rfl⟩
        | _ => cases harray
      unfold leaf
      rw [ht, h.of_some ht rfl]
  | false =>
      obtain ⟨t', ht', hbare⟩ := h id t ht
      have harray' : t'.isArray = false := by
        rw [← t'.isArray_bare, hbare, t.isArray_bare, harray]
      rw [leaf_of_isArray ht harray, leaf_of_isArray ht' harray']

theorem Uses.later {id leaf : TypeId} (h : e.Uses id leaf) (he : e.Revised e') :
    e'.Uses id leaf := by
  cases h with
  | plain hr =>
      obtain ⟨t, ht, hbare⟩ := he id _ hr
      cases t with
      | reference => exact .plain ht
      | _ => cases hbare
  | @raw r r' _ hr hleaf hsame =>
      obtain ⟨t, ht, hbare⟩ := he id _ hr
      cases t with
      | generic r'' =>
          have hlast : r''.bare = r.bare := TypeBinding.generic.inj hbare
          exact .raw ht (he.of_some hleaf rfl) (hsame.trans hlast.symm)
      | _ => cases hbare

theorem Names.later {words : List String} {leaf : TypeId} (h : e.Names unit p words leaf)
    (he : e.Revised e') : e'.Names unit p words leaf :=
  fun hword i hdenotes hlast => (h hword i hdenotes hlast).later he

mutual

theorem Reads.later : (t : TypeRef) → (id : TypeId) → e.Reads unit p t id → e.Revised e' →
    e'.Reads unit p t id
  | ⟨segments, _, primitive, _⟩, id, h, he => by
    unfold Reads at h ⊢
    refine ⟨he.lt h.1, fun hprimitive => ?_⟩
    obtain ⟨arguments, hreads, hplain, hgeneric⟩ := h.2 hprimitive
    rw [he.leaf_eq h.1]
    refine ⟨arguments, ReadsLast.later segments arguments hreads he,
      fun hnil => (hplain hnil).later he, fun hne => ?_⟩
    obtain ⟨r, generic, hleaf⟩ := hgeneric hne
    exact ⟨r, generic, he.of_some hleaf rfl⟩

theorem ReadsLast.later : (segments : List TypeSegment) → (ids : List TypeId) →
    e.ReadsLast unit p segments ids → e.Revised e' → e'.ReadsLast unit p segments ids
  | [], _, h, _ => by
    unfold ReadsLast at h ⊢
    exact h
  | [⟨_, arguments, _⟩], ids, h, he => by
    unfold ReadsLast at h ⊢
    exact ReadsArguments.later arguments ids h he
  | ⟨_, _, _⟩ :: next :: rest, ids, h, he => by
    unfold ReadsLast at h ⊢
    exact ReadsLast.later (next :: rest) ids h he

theorem ReadsArguments.later : (arguments : List TypeArgument) → (ids : List TypeId) →
    e.ReadsArguments unit p arguments ids → e.Revised e' → e'.ReadsArguments unit p arguments ids
  | [], _, h, _ => by
    unfold ReadsArguments at h ⊢
    exact h
  | argument :: rest, ids, h, he => by
    unfold ReadsArguments at h ⊢
    obtain ⟨id, more, hids, hargument, hrest⟩ := h
    exact ⟨id, more, hids, ReadsArgument.later argument id hargument he,
      ReadsArguments.later rest more hrest he⟩

theorem ReadsArgument.later : (argument : TypeArgument) → (id : TypeId) →
    e.ReadsArgument unit p argument id → e.Revised e' → e'.ReadsArgument unit p argument id
  | .type type, id, h, he => by
    unfold ReadsArgument at h ⊢
    exact Reads.later type id h he
  | .wildcard _ none _, _, _, _ => by
    unfold ReadsArgument
    trivial
  | .wildcard kind (some bound) _, id, h, he => by
    unfold ReadsArgument at h ⊢
    obtain ⟨x, hx, hbound⟩ := h
    exact ⟨x, he.of_some hx rfl, Reads.later bound x hbound he⟩

end

end Environment

/-! ### The table of names -/

namespace Resolve

variable {α β : Type} {r r' : Resolver} {package : List String}

/-- The entries for a declared type. -/
def nameEntries (package : List String) (x : (List String × TypeDecl) × Nat) :
    List (String × TypeId) :=
  [(".".intercalate (package ++ x.1.1), x.2), (x.1.2.name, x.2)]

/-- The table for declared types that are numbered from `start` on. -/
def nameTable (package : List String) (entries : List (List String × TypeDecl)) (start : Nat) :
    List (String × TypeId) :=
  (entries.zipIdx start).reverse.flatMap (nameEntries package)

theorem nameTable_append (entries entries' : List (List String × TypeDecl)) (start : Nat) :
    nameTable package (entries ++ entries') start =
      nameTable package entries' (start + entries.length) ++ nameTable package entries start := by
  unfold nameTable
  rw [List.zipIdx_append, List.reverse_append, List.flatMap_append]

/-- From one moment to a later one declared types were put into the table. -/
structure Named (package : List String) (entries : List (List String × TypeDecl))
    (r r' : Resolver) : Prop where
  declared : r'.declared = nameTable package entries r.env.types.size ++ r.declared
  scopes : r'.scopes = r.scopes

theorem Named.refl (r : Resolver) : Named package [] r r := ⟨rfl, rfl⟩

theorem Named.trans {r'' : Resolver} {entries entries' : List (List String × TypeDecl)}
    (h : Named package entries r r') (hsize : Declared package entries r r')
    (h' : Named package entries' r' r'') : Named package (entries ++ entries') r r'' where
  declared := by
    have hlength : r'.env.types.size = r.env.types.size + entries.length := by
      simpa using congrArg List.length hsize.types
    rw [h'.declared, h.declared, hlength, nameTable_append, List.append_assoc]
  scopes := h'.scopes.trans h.scopes

theorem named_declareType (outer : List String) (t : TypeDecl) :
    Named package [(outer ++ [t.name], t)] r
      (declareType ((package ++ outer) ++ [t.name]) t r).2 where
  declared := by
    rw [List.append_assoc]
    rfl
  scopes := rfl

mutual

theorem named_declareAll : (t : TypeDecl) → (outer : List String) → (r : Resolver) →
    r.package = package →
      Named package (t.declarations outer) r (declareAll (package ++ outer) t r).2
  | ⟨_, name, _, _, _, _, _, members, _, _, _, _⟩, outer, r, hpackage => by
    unfold declareAll TypeDecl.declarations
    have hmembers := fun r => named_declareMembers members (outer ++ [name]) r
    simp only [← List.append_assoc] at hmembers
    exact .trans (named_declareType outer _) (declares_declareType outer _ hpackage)
      (hmembers _ hpackage)

theorem named_declareMembers : (members : List Member) → (outer : List String) →
    (r : Resolver) → r.package = package →
      Named package (Member.declarations outer members) r
        (declareMembers (package ++ outer) members r).2
  | [], _, r, _ => by
    unfold declareMembers Member.declarations
    exact .refl r
  | .type t :: rest, outer, r, hpackage => by
    unfold declareMembers Member.declarations
    have hdeclares := declares_declareAll t outer r hpackage
    exact (named_declareAll t outer r hpackage).trans hdeclares
      (named_declareMembers rest outer _ (hdeclares.samePackage.trans hpackage))
  | .field _ :: rest, outer, r, hpackage => by
    unfold declareMembers Member.declarations
    exact named_declareMembers rest outer r hpackage
  | .method _ :: rest, outer, r, hpackage => by
    unfold declareMembers Member.declarations
    exact named_declareMembers rest outer r hpackage
  | .initializer _ :: rest, outer, r, hpackage => by
    unfold declareMembers Member.declarations
    exact named_declareMembers rest outer r hpackage

end

theorem named_forM (types : List TypeDecl) (hpackage : r.package = package) :
    Named package (types.flatMap (TypeDecl.declarations [])) r
      (types.forM (declareAll package) r).2 := by
  induction types generalizing r with
  | nil => exact .refl r
  | cons t types ih =>
      have hdeclares := declares_declareAll t [] r hpackage
      have hhead := named_declareAll t [] r hpackage
      rw [List.append_nil] at hdeclares hhead
      exact hhead.trans hdeclares (ih (hdeclares.samePackage.trans hpackage))

/-- Looked up in entries that were put in one before the other, the last ones count. -/
theorem lookup_reverse_flatMap {γ : Type} (f : γ → List (String × TypeId)) (value : γ → TypeId)
    (called : γ → Bool) (name : String)
    (hf : ∀ x, (f x).lookup name = if called x then some (value x) else none) (xs : List γ) :
    (xs.reverse.flatMap f).lookup name = (xs.filter called).getLast?.map value := by
  induction xs with
  | nil => rfl
  | cons x xs ih =>
      rw [List.reverse_cons, List.flatMap_append, List.lookup_append, ih, List.flatMap_singleton,
        hf, List.filter_cons]
      cases called x with
      | false => exact Option.or_none
      | true =>
          rw [if_pos rfl, if_pos rfl, List.getLast?_cons]
          cases (xs.filter called).getLast? <;> rfl

theorem lookup_nameTable (unit : CompilationUnit) (words : List String) :
    (nameTable unit.packageWords unit.declarations 0).lookup (".".intercalate words) =
      unit.lastCalled? words := by
  refine lookup_reverse_flatMap _ Prod.snd _ _ (fun x => ?_) _
  unfold nameEntries CompilationUnit.isCalled
  rw [List.lookup_cons, List.lookup_cons, List.lookup_nil,
    BEq.comm (a := ".".intercalate words), BEq.comm (a := ".".intercalate words)]
  cases ".".intercalate (unit.packageWords ++ x.1.1) == ".".intercalate words <;>
    cases x.1.2.name == ".".intercalate words <;> rfl

end Resolve

/-! ### Finding types by their names -/

/-- At a site a resolver knows the declared types of a unit by the table of their names, and no type
variables but those in scope. -/
structure Resolver.Knows (unit : CompilationUnit) (p : Site) (r : Resolver) : Prop where
  declared : r.declared = Resolve.nameTable unit.packageWords unit.declarations 0
  types : ∀ i < unit.declarations.length, ∃ t b,
    r.env.types[i]? = some t ∧ t.declared? = some b
  scopes : ∀ scope ∈ r.scopes, ∀ entry ∈ scope, entry.1 ∈ p.typeVariables

theorem Environment.Revised.declared {e e' : Environment} (h : e.Revised e') {id : TypeId}
    {t : TypeBinding} {b : ReferenceBinding} (ht : e.types[id]? = some t)
    (hb : t.declared? = some b) :
    ∃ t' b', e'.types[id]? = some t' ∧ t'.declared? = some b' ∧ b'.bare = b.bare := by
  obtain ⟨t', ht', hbare⟩ := h id t ht
  refine ⟨t', ?_⟩
  cases t with
  | generic b =>
      obtain rfl := Option.some.inj hb
      cases t' with
      | generic b' => exact ⟨b', ht', rfl, TypeBinding.generic.inj hbare⟩
      | _ => cases hbare
  | reference b =>
      obtain rfl := Option.some.inj hb
      cases t' with
      | reference b' => exact ⟨b', ht', rfl, TypeBinding.reference.inj hbare⟩
      | _ => cases hbare
  | _ => cases hb

theorem Resolver.Knows.later {unit : CompilationUnit} {p : Site} {r r' : Resolver}
    (h : r.Knows unit p) (hdeclared : r'.declared = r.declared) (hscopes : r'.scopes = r.scopes)
    (hrevised : r.env.Revised r'.env) : r'.Knows unit p where
  declared := hdeclared.trans h.declared
  types i hi := by
    obtain ⟨t, b, ht, hb⟩ := h.types i hi
    obtain ⟨t', b', ht', hb', _⟩ := hrevised.declared ht hb
    exact ⟨t', b', ht', hb'⟩
  scopes := by
    rw [hscopes]
    exact h.scopes

namespace Resolve

variable {α β : Type} {r r' : Resolver} {unit : CompilationUnit} {p : Site} {a : Resolve α}
  {f : α → Resolve β} {Q Q₁ : α → Environment → Prop} {Q' : β → Environment → Prop}

/-- From `r`, a step makes types only, with `Q` for its result. -/
structure Finds (r : Resolver) (a : Resolve α) (Q : α → Environment → Prop) : Prop where
  declared : (a r).2.declared = r.declared
  scopes : (a r).2.scopes = r.scopes
  revised : r.env.Revised (a r).2.env
  result : Q (a r).1 (a r).2.env

theorem Finds.pure {b : α} (h : Q b r.env) : Finds r (Pure.pure b) Q := ⟨rfl, rfl, .refl _, h⟩

theorem Finds.bind (hgives : Gives r a Q₁) (ha : Finds r a Q)
    (hf : ∀ b r', r'.Valid → (∀ unit p, r.Knows unit p → r'.Knows unit p) →
      r.env.Revised r'.env → Q₁ b r'.env → Q b r'.env → Finds r' (f b) Q') :
    Finds r (a >>= f) Q' := by
  obtain ⟨hdeclared, hscopes, hrevised, hresult⟩ := ha
  obtain ⟨hdeclared', hscopes', hrevised', hresult'⟩ := hf _ _ hgives.valid
    (fun unit p h => h.later hdeclared hscopes hrevised) hrevised hgives.result hresult
  exact ⟨hdeclared'.trans hdeclared, hscopes'.trans hscopes, hrevised.trans hrevised', hresult'⟩

/-- A step that starts by looking at the resolver. -/
theorem Finds.get_bind {f : Resolver → Resolve β} (h : Finds r (f r) Q') :
    Finds r (get >>= f) Q' := ⟨h.declared, h.scopes, h.revised, h.result⟩

theorem Finds.mono (h : Finds r a Q) (hQ : ∀ b e, Q b e → Q₁ b e) : Finds r a Q₁ :=
  ⟨h.declared, h.scopes, h.revised, hQ _ _ h.result⟩

theorem finds_addType {t : TypeBinding} : Finds r (addType t) fun id e =>
    e.types[id]? = some t ∧
      ∀ (i : TypeId) (t' : TypeBinding), r.env.types[i]? = some t' → e.types[i]? = some t' := by
  refine ⟨rfl, rfl, Environment.revised_push, Array.getElem?_push_size, fun i t' hi => ?_⟩
  have hlt := (Array.getElem?_eq_some_iff.mp hi).1
  exact (Array.getElem?_push_lt hlt).trans (hi ▸ (Array.getElem?_eq_getElem hlt).symm)

/-- An array has the leaf of its elements. -/
theorem finds_arrayOf (leaf dims : Nat) :
    Finds r (arrayOf leaf dims) fun id e => e.leaf id = r.env.leaf leaf := by
  apply Finds.get_bind
  split
  · rename_i inner existing harray
    refine finds_addType.mono fun id e hid => ?_
    unfold Environment.leaf
    rw [hid.1, harray]
  · rename_i hnot
    refine finds_addType.mono fun id e hid => ?_
    have hleaf : r.env.leaf leaf = leaf := by
      unfold Environment.leaf
      split
      · rename_i inner existing harray
        exact absurd harray (hnot inner existing)
      · rfl
    rw [hleaf]
    unfold Environment.leaf
    rw [hid.1]

theorem finds_baseType (word : String) : Finds r (baseType word) fun _ _ => True := by
  unfold baseType
  split
  apply Finds.get_bind
  split
  · exact .pure trivial
  · exact ⟨rfl, rfl, Environment.revised_push, trivial⟩

/-- A word that is found in a scope is a type variable in scope. -/
theorem mem_typeVariables_of_wordVariable? (h : r.Knows unit p) {segments : List TypeSegment}
    {id : TypeId} (hid : wordVariable? segments r = some id) :
    ∃ word, segments.map TypeSegment.name = [word] ∧ word ∈ p.typeVariables ∧
      ∀ r, resolveLast segments r = ([], r) := by
  unfold wordVariable? at hid
  split at hid
  · rename_i word _
    obtain ⟨scope, hscope, hlookup⟩ := List.exists_of_findSome?_eq_some hid
    obtain ⟨before, after, rfl, _⟩ := List.lookup_eq_some_iff.mp hlookup
    exact ⟨word, rfl, h.scopes _ hscope (word, id) (by simp), fun r => by
      unfold resolveLast resolveArguments
      rfl⟩
  · cases hid

/-- What is known of words: the last declared type that is called so, with its reference. -/
theorem lookupName_spec (h : r.Knows unit p) (words : List String) :
    (lookupName words r).1 = unit.lastCalled? words ∧
      ∀ i, unit.lastCalled? words = some i → ∃ t,
        r.env.types[i]? = some t ∧ t.declared? = some (lookupName words r).2 := by
  have hdeclared : r.declared.lookup (".".intercalate words) = unit.lastCalled? words := by
    rw [h.declared, lookup_nameTable]
  refine ⟨hdeclared, fun i hi => ?_⟩
  obtain ⟨t, b, ht, hb⟩ := h.types i (unit.lt_of_lastCalled? hi)
  refine ⟨t, ht, ?_⟩
  unfold lookupName
  dsimp only
  rw [hdeclared, hi, Option.bind_some, ht, Option.bind_some]
  cases t with
  | generic | reference => rfl
  | _ => cases hb

theorem finds_plainType {words : List String} {declared : Option TypeId}
    {reference : ReferenceBinding} (hdeclared : declared = unit.lastCalled? words)
    (hreference : ∀ i, unit.lastCalled? words = some i → ∃ t b,
      r.env.types[i]? = some t ∧ t.declared? = some b ∧ b.bare = reference.bare) :
    Finds r (plainType declared reference) fun id e => e.Names unit p words (e.leaf id) := by
  unfold plainType
  split
  · refine finds_addType.mono fun id e _ _ i _ hi => ?_
    rw [← hdeclared] at hi
    cases hi
  · rename_i i
    obtain ⟨t, b, ht, hb, hbare⟩ := hreference i hdeclared.symm
    apply Finds.get_bind
    rw [ht, Option.any_some]
    cases t with
    | generic b' =>
        obtain rfl := Option.some.inj hb
        refine finds_addType.mono fun id e hid _ j _ hj => ?_
        obtain rfl : i = j := Option.some.inj (hdeclared.trans hj)
        rw [Environment.leaf_of_isArray hid.1 rfl]
        exact .raw (hid.2 _ _ ht) hid.1 hbare.symm
    | reference b' =>
        refine .pure fun _ j _ hj => ?_
        obtain rfl : i = j := Option.some.inj (hdeclared.trans hj)
        rw [Environment.leaf_of_isArray ht rfl]
        exact .plain ht
    | _ => cases hb

mutual

/-- **A type as written becomes what its words name**, and so do the types in its arguments. -/
theorem finds_resolveType : (t : TypeRef) → (r : Resolver) → r.Valid → r.Knows unit p →
    Finds r (resolveType t) fun id e => e.Reads unit p t id
  | ⟨segments, dims, primitive, span⟩, r, hr, hknows => by
    unfold resolveType
    extract_lets finish
    have hfinish : ∀ leaf r', r'.Valid → IsType leaf r'.env → (primitive = false →
        ∃ arguments, r'.env.ReadsLast unit p segments arguments ∧
          (arguments = [] →
            r'.env.Names unit p (segments.map TypeSegment.name) (r'.env.leaf leaf)) ∧
          (arguments ≠ [] → ∃ r generic,
            r'.env.types[r'.env.leaf leaf]? = some (.parameterized r generic arguments))) →
        Finds r' (finish leaf) fun id e => e.Reads unit p ⟨segments, dims, primitive, span⟩ id := by
      intro leaf r' hr' hleaf hreads
      dsimp only [finish]
      split
      · unfold Environment.Reads
        exact .pure ⟨hleaf, hreads⟩
      · obtain ⟨hdeclared, hscopes, hrevised, hsame⟩ := finds_arrayOf (r := r') leaf dims
        refine ⟨hdeclared, hscopes, hrevised, ?_⟩
        unfold Environment.Reads
        refine ⟨(gives_arrayOf hr' hleaf).result, fun hprimitive => ?_⟩
        obtain ⟨arguments, hlast, hplain, hgeneric⟩ := hreads hprimitive
        rw [hsame]
        refine ⟨arguments, hlast.later segments arguments hrevised,
          fun hnil => (hplain hnil).later hrevised, fun hne => ?_⟩
        obtain ⟨reference, generic, hparameterized⟩ := hgeneric hne
        exact ⟨reference, generic, hrevised.of_some hparameterized rfl⟩
    split
    · rename_i hprimitive
      refine .bind (gives_baseType hr) (finds_baseType _) fun leaf r' hr' _ _ hleaf _ => ?_
      exact hfinish leaf r' hr' hleaf fun hnot => absurd (hprimitive.symm.trans hnot) nofun
    · apply Finds.get_bind
      split
      · rename_i id hid
        obtain ⟨word, hwords, hmem, hlast⟩ := mem_typeVariables_of_wordVariable? hknows hid
        refine hfinish id r hr (isType_of_wordVariable? hr hid) fun _ => ⟨[], ?_, ?_, nofun⟩
        · have hreads := (finds_resolveLast segments r hr hknows).result
          rw [hlast] at hreads
          exact hreads
        · exact fun _ hword => absurd hmem (hword word hwords)
      · refine .bind (gives_resolveLast segments r hr) (finds_resolveLast segments r hr hknows) ?_
        intro arguments r' hr' hknows' hrevised harguments hlast
        obtain ⟨hdeclared, hreference⟩ := lookupName_spec hknows (segments.map TypeSegment.name)
        split
        · have hplain := finds_plainType (p := p) (r := r') hdeclared fun i hi => by
            obtain ⟨t, ht, hb⟩ := hreference i hi
            obtain ⟨t', b', ht', hb', hbare⟩ := hrevised.declared ht hb
            exact ⟨t', b', ht', hb', hbare⟩
          refine .bind (gives_plainType hr' fun id hid =>
            hrevised.lt (areTypes_of_declared hr id hid)) hplain ?_
          intro leaf r'' hr'' _ hrevised' hleaf hnames
          exact hfinish leaf r'' hr'' hleaf fun _ =>
            ⟨[], hlast.later segments [] hrevised', fun _ => hnames, nofun⟩
        · rename_i hne
          refine .bind (gives_newType hr' harguments) finds_addType ?_
          intro leaf r'' hr'' _ hrevised' hleaf hnew
          have hsame : r''.env.leaf leaf = leaf := Environment.leaf_of_isArray hnew.1 rfl
          exact hfinish leaf r'' hr'' hleaf fun _ =>
            ⟨arguments, hlast.later segments arguments hrevised', fun hnil => absurd hnil hne,
              fun _ => ⟨_, _, (congrArg (r''.env.types[·]?) hsame).trans hnew.1⟩⟩

theorem finds_resolveLast : (segments : List TypeSegment) → (r : Resolver) → r.Valid →
    r.Knows unit p → Finds r (resolveLast segments) fun ids e => e.ReadsLast unit p segments ids
  | [], r, _, _ => by
    unfold Environment.ReadsLast
    exact .pure rfl
  | [⟨_, arguments, _⟩], r, hr, hknows => by
    unfold Environment.ReadsLast
    exact finds_resolveArguments arguments r hr hknows
  | ⟨_, _, _⟩ :: next :: rest, r, hr, hknows => by
    unfold resolveLast Environment.ReadsLast
    exact finds_resolveLast (next :: rest) r hr hknows

theorem finds_resolveArguments : (arguments : List TypeArgument) → (r : Resolver) → r.Valid →
    r.Knows unit p →
      Finds r (resolveArguments arguments) fun ids e => e.ReadsArguments unit p arguments ids
  | [], r, _, _ => by
    unfold Environment.ReadsArguments
    exact .pure rfl
  | argument :: rest, r, hr, hknows => by
    unfold resolveArguments Environment.ReadsArguments
    refine .bind (gives_resolveArgument argument r hr) (finds_resolveArgument argument r hr hknows)
      ?_
    intro id r' hr' hknows' _ _ hid
    refine .bind (gives_resolveArguments rest r' hr')
      (finds_resolveArguments rest r' hr' (hknows' _ _ hknows)) ?_
    intro ids r'' _ _ hrevised _ hids
    exact .pure ⟨id, ids, rfl, hid.later argument id hrevised, hids⟩

theorem finds_resolveArgument : (argument : TypeArgument) → (r : Resolver) → r.Valid →
    r.Knows unit p →
      Finds r (resolveArgument argument) fun id e => e.ReadsArgument unit p argument id
  | .type type, r, hr, hknows => by
    unfold Environment.ReadsArgument
    exact finds_resolveType type r hr hknows
  | .wildcard kind none _, r, _, _ => by
    unfold Environment.ReadsArgument
    exact finds_addType.mono fun _ _ _ => trivial
  | .wildcard kind (some bound) _, r, hr, hknows => by
    unfold Environment.ReadsArgument
    refine .bind (gives_resolveType bound r hr) (finds_resolveType bound r hr hknows) ?_
    intro id r' _ _ _ _ hid
    have hadds := finds_addType (r := r') (t := .wildcard kind (some id))
    exact ⟨hadds.declared, hadds.scopes, hadds.revised, id, hadds.result.1,
      hid.later bound id hadds.revised⟩

end

end Resolve

/-! ### Between the passes -/

namespace CompilationUnit

/-- The resolver of a unit before the first pass. -/
def start (unit : CompilationUnit) : Resolver where
  package := unit.packageWords
  imported := Resolve.singleImports unit

/-- The resolver of a unit when the declared types have their bindings and the second pass begins. -/
def firstPass (unit : CompilationUnit) : Resolver :=
  (unit.types.forM (Resolve.declareAll unit.packageWords) unit.start).2

variable (unit : CompilationUnit)

theorem progress_firstPass :
    Resolve.Progress unit.packageWords [] unit.declarations unit.firstPass := by
  have hstart : unit.start.Valid :=
    ⟨Environment.grounded_empty, Environment.linked_empty, by simp [start], by simp [start],
      by simp [start], by simp [start]⟩
  have hvalid : unit.firstPass.Valid := (Resolve.gives_forM
    (fun t r hr _ => Resolve.gives_declareAll t unit.packageWords r hr) unit.types hstart
    (.refl _)).valid
  have hdeclared : Resolve.Declared unit.packageWords unit.declarations unit.start unit.firstPass :=
    Resolve.declares_forM unit.types rfl
  exact hdeclared.progress hvalid rfl rfl

theorem named_firstPass :
    Resolve.Named unit.packageWords unit.declarations unit.start unit.firstPass :=
  Resolve.named_forM unit.types rfl

theorem declared_firstPass :
    unit.firstPass.declared = Resolve.nameTable unit.packageWords unit.declarations 0 :=
  unit.named_firstPass.declared.trans (List.append_nil _)

/-- The second pass ends with nothing left to do. -/
theorem exists_progress : ∃ r, Resolve.Progress unit.packageWords unit.declarations [] r ∧
    r.env = unit.resolve := by
  have hfirst := unit.progress_firstPass
  rw [← List.append_nil unit.declarations] at hfirst
  exact ⟨_, Resolve.progress_forM unit.types [] [] hfirst, rfl⟩

end CompilationUnit

end AspectLang
