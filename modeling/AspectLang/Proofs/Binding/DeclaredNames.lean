import AspectLang.Proofs.Binding.SecondPass

/-! # Names of declared types

The second pass meets the declared types in their order, each with the scopes of the types around
it, and whatever it makes of a type as it is written stays as it is while it goes on.  `Read` is what
holds between two types of the pass: the headers, fields and methods so far are those of the types
that are done, with all their types read.  So in the whole unit every name of a declared type is
resolved to it where the table of names agrees with the scopes
(`CompilationUnit.declared_names_resolve`).  It need not agree: of two member types with one simple
name the one in the type itself may be passed over (`member_type_passed_over`). -/

namespace AspectLang

/-! ### What declarations became -/

namespace Environment

variable (e : Environment) (unit : CompilationUnit)

/-- A type parameter became a type variable with its bounds. -/
def ReadsParameter (p : Site) (parameter : TypeParameter) (id : TypeId) : Prop :=
  ∃ v, e.types[id]? = some (.typeVariable v) ∧ v.name = parameter.name ∧
    List.Forall₂ (e.Reads unit p) parameter.bounds (v.superclass.toList ++ v.interfaces)

/-- Type parameters became type variables with their bounds. -/
def ReadsParameters (p : Site) (parameters : List TypeParameter) (ids : List TypeId) : Prop :=
  List.Forall₂ (e.ReadsParameter unit p) parameters ids

/-- The type parameters and the supertypes of a declared type became those of a type. -/
def ReadsHeader (p : Site) (t : TypeDecl) (id : TypeId) : Prop :=
  ∃ b r, e.types[id]? = some b ∧ b.declared? = some r ∧
    e.ReadsParameters unit p t.typeParameters r.typeVariables ∧
    Option.Rel (e.Reads unit p) t.superclass r.superclass ∧
    List.Forall₂ (e.Reads unit p) t.interfaces r.interfaces

/-- A field of the type with a given number and site became a field. -/
def ReadsField (x : Site × TypeId × FieldDecl) (f : FieldBinding) : Prop :=
  f.declaringClass = some x.2.1 ∧ f.name = x.2.2.name ∧
    ∃ id, f.type = some id ∧ e.Reads unit x.1 x.2.2.type id

/-- A method of the type with a given number and site became a method; its type variables are in
scope in its other types. -/
structure ReadsMethod (x : Site × TypeId × MethodDecl) (m : MethodBinding) : Prop where
  owner : m.declaringClass = some x.2.1
  selector : m.selector = x.2.2.selector
  typeParameters : e.ReadsParameters unit (x.1.under x.2.2.typeParameters) x.2.2.typeParameters
    m.typeVariables
  returnType : Option.Rel (e.Reads unit (x.1.under x.2.2.typeParameters)) x.2.2.returnType
    m.returnType
  parameters : List.Forall₂ (fun q id => e.Reads unit (x.1.under x.2.2.typeParameters) q.type id)
    x.2.2.parameters m.parameters
  throws : List.Forall₂ (e.Reads unit (x.1.under x.2.2.typeParameters)) x.2.2.throws m.throws

end Environment

/-- The fields of types with their sites, by the numbers of the types. -/
def fieldSites (entries : List (Site × TypeDecl)) : List (Site × TypeId × FieldDecl) :=
  entries.zipIdx.flatMap fun x => x.1.2.fields.map fun f => (x.1.1, x.2, f)

/-- The methods of types with their sites, by the numbers of the types. -/
def methodSites (entries : List (Site × TypeDecl)) : List (Site × TypeId × MethodDecl) :=
  entries.zipIdx.flatMap fun x => x.1.2.methods.map fun m => (x.1.1, x.2, m)

/-- In an environment the types of a unit, down to the arguments and bounds in its declarations, are
what their names may stand for. -/
structure Environment.ReadsTypes (e : Environment) (unit : CompilationUnit)
    (entries : List (Site × TypeDecl)) : Prop where
  headers : ∀ (i : Nat) (p : Site) (t : TypeDecl), entries[i]? = some (p, t) →
    e.ReadsHeader unit p t i
  fields : List.Forall₂ (e.ReadsField unit) (fieldSites entries) e.fields.toList
  methods : List.Forall₂ (e.ReadsMethod unit) (methodSites entries) e.methods.toList

/-! ### What stays read -/

namespace Environment

variable {e e' e'' : Environment} {unit : CompilationUnit} {p : Site} {changed : TypeId → Prop}

/-- The types of an earlier environment are in a later one, and apart from those that changed they
are as they were. -/
structure Keeps (changed : TypeId → Prop) (e e' : Environment) : Prop where
  revised : e.Revised e'
  same : ∀ (id : TypeId) (t : TypeBinding), ¬ changed id → e.types[id]? = some t →
    e'.types[id]? = some t

theorem Keeps.refl (e : Environment) : e.Keeps changed e := ⟨.refl e, fun _ _ _ h => h⟩

theorem Keeps.trans (h : e.Keeps changed e') (h' : e'.Keeps changed e'') : e.Keeps changed e'' where
  revised := h.revised.trans h'.revised
  same id t hid ht := h'.same id t hid (h.same id t hid ht)

theorem Keeps.mono {changed' : TypeId → Prop} (h : e.Keeps changed e')
    (hchanged : ∀ id, id < e.types.size → changed id → changed' id) : e.Keeps changed' e' where
  revised := h.revised
  same id t hid ht :=
    h.same id t (fun hnot => hid (hchanged id (Array.getElem?_eq_some_iff.mp ht).1 hnot)) ht

theorem Revised.of_types (h : e'.types = e.types) : e.Revised e' := fun _ t ht =>
  ⟨t, h ▸ ht, rfl⟩

theorem Keeps.of_types (h : e'.types = e.types) : e.Keeps changed e' where
  revised := .of_types h
  same id t _ ht := by
    rw [h]
    exact ht

theorem keeps_updateType {change : TypeBinding → TypeBinding} {target : TypeId}
    (hchange : ∀ t, (change t).bare = t.bare) :
    e.Keeps (· = target) (e.updateType target change) where
  revised := revised_updateType hchange
  same id t hid ht := by
    rw [types_updateType_of_ne hid]
    exact ht

theorem Reads.forall₂_later {ts : List TypeRef} {ids : List TypeId}
    (h : List.Forall₂ (e.Reads unit p) ts ids) (he : e.Revised e') :
    List.Forall₂ (e'.Reads unit p) ts ids := h.imp fun t id hid => hid.later t id he

theorem Reads.option_later {t : Option TypeRef} {id : Option TypeId}
    (h : Option.Rel (e.Reads unit p) t id) (he : e.Revised e') :
    Option.Rel (e'.Reads unit p) t id := by
  cases h with
  | some hid => exact .some (hid.later _ _ he)
  | none => exact .none

/-- No type variable is among the types that changed. -/
def SparesVariables (e : Environment) (changed : TypeId → Prop) : Prop :=
  ∀ id v, e.types[id]? = some (.typeVariable v) → ¬ changed id

theorem sparesVariables_of_declared {id : TypeId} {t : TypeBinding} {b : ReferenceBinding}
    (ht : e.types[id]? = some t) (hb : t.declared? = some b) : e.SparesVariables (· = id) := by
  rintro _ v hv rfl
  obtain rfl := Option.some.inj (ht.symm.trans hv)
  cases hb

theorem ReadsParameter.later {parameter : TypeParameter} {id : TypeId}
    (h : e.ReadsParameter unit p parameter id) (he : e.Keeps changed e') (hid : ¬ changed id) :
    e'.ReadsParameter unit p parameter id := by
  obtain ⟨v, hv, hname, hbounds⟩ := h
  exact ⟨v, he.same id _ hid hv, hname, Reads.forall₂_later hbounds he.revised⟩

theorem ReadsParameters.later {parameters : List TypeParameter} {ids : List TypeId}
    (h : e.ReadsParameters unit p parameters ids) (he : e.Keeps changed e')
    (hspares : e.SparesVariables changed) : e'.ReadsParameters unit p parameters ids := by
  refine List.Forall₂.imp (fun parameter id hid => ?_) h
  exact hid.later he (hspares id _ hid.choose_spec.1)

theorem ReadsHeader.later {t : TypeDecl} {id : TypeId} (h : e.ReadsHeader unit p t id)
    (he : e.Keeps changed e') (hspares : e.SparesVariables changed) (hid : ¬ changed id) :
    e'.ReadsHeader unit p t id := by
  obtain ⟨b, r, hb, hr, hparameters, hsuperclass, hinterfaces⟩ := h
  exact ⟨b, r, he.same id b hid hb, hr, hparameters.later he hspares,
    Reads.option_later hsuperclass he.revised, Reads.forall₂_later hinterfaces he.revised⟩

theorem ReadsField.later {x : Site × TypeId × FieldDecl} {f : FieldBinding}
    (h : e.ReadsField unit x f) (he : e.Revised e') : e'.ReadsField unit x f := by
  obtain ⟨howner, hname, id, hid, hreads⟩ := h
  exact ⟨howner, hname, id, hid, hreads.later _ _ he⟩

theorem ReadsMethod.later {x : Site × TypeId × MethodDecl} {m : MethodBinding}
    (h : e.ReadsMethod unit x m) (he : e.Keeps changed e')
    (hspares : e.SparesVariables changed) : e'.ReadsMethod unit x m where
  owner := h.owner
  selector := h.selector
  typeParameters := h.typeParameters.later he hspares
  returnType := Reads.option_later h.returnType he.revised
  parameters := h.parameters.imp fun _ _ hid => hid.later _ _ he.revised
  throws := Reads.forall₂_later h.throws he.revised

/-- What was read depends on the leaf alone. -/
theorem Reads.of_leaf_eq {t : TypeRef} {id id' : TypeId} (h : e.Reads unit p t id)
    (hid : id' < e.types.size) (hleaf : e.leaf id' = e.leaf id) : e.Reads unit p t id' := by
  obtain ⟨segments, dims, primitive, span⟩ := t
  unfold Reads at h ⊢
  rw [hleaf]
  exact ⟨hid, h.2⟩

end Environment

namespace Resolve

variable {r r' : Resolver} {unit : CompilationUnit} {p : Site} {owner : VariableOwner}

/-! ### Lists of types -/

/-- Steps that find types one after the other. -/
theorem finds_mapM {γ : Type} {step : γ → Resolve TypeId} {Q : γ → TypeId → Environment → Prop}
    (hgives : ∀ x r, r.Valid → Gives r (step x) IsType)
    (hstep : ∀ x r, r.Valid → r.Knows unit p → Finds r (step x) (Q x))
    (hlater : ∀ x id e e', Q x id e → e.Revised e' → Q x id e') (xs : List γ) (hr : r.Valid)
    (hknows : r.Knows unit p) :
    Finds r (xs.mapM step) fun ids e => List.Forall₂ (fun x id => Q x id e) xs ids := by
  induction xs generalizing r with
  | nil => exact .pure .nil
  | cons x xs ih =>
      rw [List.mapM_cons]
      refine .bind (hgives x r hr) (hstep x r hr hknows) fun id r₁ hr₁ hknows₁ _ _ hid => ?_
      refine .bind (gives_mapM hgives xs hr₁) (ih hr₁ (hknows₁ _ _ hknows)) ?_
      intro ids r₂ _ _ hrevised _ hids
      exact .pure (.cons (hlater _ _ _ _ hid hrevised) hids)

theorem finds_resolveTypes (types : List TypeRef) (hr : r.Valid) (hknows : r.Knows unit p) :
    Finds r (types.mapM resolveType) fun ids e => List.Forall₂ (e.Reads unit p) types ids :=
  finds_mapM (Q := fun t id e => e.Reads unit p t id) gives_resolveType finds_resolveType
    (fun t id _ _ h he => h.later t id he) types hr hknows

theorem finds_resolveOptional (t : Option TypeRef) (hr : r.Valid) (hknows : r.Knows unit p) :
    Finds r (resolveOptional t) fun id e => Option.Rel (e.Reads unit p) t id := by
  cases t with
  | none => exact .pure .none
  | some t =>
      obtain ⟨hdeclared, hscopes, hrevised, hreads⟩ := finds_resolveType t r hr hknows
      exact ⟨hdeclared, hscopes, hrevised, .some hreads⟩

theorem finds_resolveParameter (q : Parameter) (r : Resolver) (hr : r.Valid)
    (hknows : r.Knows unit p) :
    Finds r (resolveParameter q) fun id e => e.Reads unit p q.type id := by
  refine .bind (gives_resolveType q.type r hr) (finds_resolveType q.type r hr hknows) ?_
  intro id r₁ hr₁ _ _ hid hreads
  split
  · obtain ⟨hdeclared, hscopes, hrevised, hleaf⟩ := finds_arrayOf (r := r₁) id 1
    refine ⟨hdeclared, hscopes, hrevised, (hreads.later _ _ hrevised).of_leaf_eq
      (gives_arrayOf hr₁ hid).result (hleaf.trans (hrevised.leaf_eq hid).symm)⟩
  · exact .pure hreads

/-! ### Type variables -/

/-- A type variable without bounds. -/
def blankVariable (owner : VariableOwner) (q : TypeParameter) : TypeBinding :=
  .typeVariable { name := q.name, declaring := some owner }

theorem newVariables_eq (parameters : List TypeParameter) (r : Resolver) :
    (parameters.mapM fun q => addType (blankVariable owner q)) r =
      (List.range' r.env.types.size parameters.length, { r with
        env.types := r.env.types ++ (parameters.map (blankVariable owner)).toArray }) := by
  induction parameters generalizing r with
  | nil =>
      change (([] : List TypeId), r) = _
      simp
  | cons q parameters ih =>
      rw [List.mapM_cons]
      let r₁ : Resolver := { r with env := (r.env.addType (blankVariable owner q)).2 }
      let rest : Resolve (List TypeId) := parameters.mapM fun q => addType (blankVariable owner q)
      have hrest : rest r₁ = _ := ih r₁
      change (r.env.types.size :: (rest r₁).1, (rest r₁).2) = _
      rw [hrest]
      simp [r₁, Environment.addType, List.range'_succ]

/-- A type variable is given its bounds in their order. -/
theorem setBounds_spec {id : TypeId} {v : VariableType} (bounds : List TypeId)
    (hv : r.env.types[id]? = some (.typeVariable v)) (hsuperclass : v.superclass = none)
    (hinterfaces : v.interfaces = []) :
    ∃ v', (setBounds id bounds r).2.env.types[id]? = some (.typeVariable v') ∧
      v'.name = v.name ∧ v'.superclass.toList ++ v'.interfaces = bounds := by
  change ∃ v', (Environment.updateType _ _ _).types[id]? = _ ∧ _
  rw [Environment.types_updateType_self hv]
  refine ⟨_, rfl, ?_, ?_⟩
  · split
    · rfl
    · split <;> rfl
  · split
    · rw [hsuperclass, hinterfaces]
      rfl
    · split
      · rw [hsuperclass, hinterfaces]
        rfl
      · rw [hinterfaces]
        rfl

theorem reads_boundLoop (pairs : List (TypeParameter × TypeId)) (hr : r.Valid) (hs : r.env.Sound)
    (hknows : r.Knows unit p) (hnodup : (pairs.map Prod.snd).Nodup)
    (hblank : ∀ x ∈ pairs, r.env.types[x.2]? = some (blankVariable owner x.1)) :
    Ends r (forIn pairs PUnit.unit fun x _ => do
      setBounds x.2 (← x.1.bounds.mapM resolveType)
      return ForInStep.yield PUnit.unit) fun _ r' => r'.declared = r.declared ∧
        r'.scopes = r.scopes ∧ r.env.Keeps (· ∈ pairs.map Prod.snd) r'.env ∧
          ∀ x ∈ pairs, r'.env.ReadsParameter unit p x.1 x.2 := by
  induction pairs generalizing r with
  | nil => exact ⟨rfl, rfl, .refl _, fun _ hx => nomatch hx⟩
  | cons x pairs ih =>
      obtain ⟨hfresh, hnodup⟩ := List.nodup_cons.mp hnodup
      rw [List.forIn_cons]
      -- the bounds of the first one
      refine .bind (P := fun step r₂ => step = .yield ⟨⟩ ∧ r₂.Valid ∧ r₂.env.Sound ∧
        r₂.declared = r.declared ∧ r₂.scopes = r.scopes ∧ r.env.Keeps (· = x.2) r₂.env ∧
          r₂.env.ReadsParameter unit p x.1 x.2) ?_ ?_
      · have hfinds := finds_resolveTypes x.1.bounds hr hknows
        refine .bind (P := fun bounds r₁ => (r₁.Valid ∧ r₁.env.Sound ∧
          Resolver.Frame r.env.types.size NoFresh r r₁ ∧ AreTypes bounds r₁.env) ∧
            r₁.declared = r.declared ∧ r₁.scopes = r.scopes ∧
              List.Forall₂ (r₁.env.Reads unit p) x.1.bounds bounds)
          ⟨(makes_resolveTypes x.1.bounds hr hs).ends (gives_mapM gives_resolveType _ hr),
            hfinds.declared, hfinds.scopes, hfinds.result⟩ ?_
        rintro bounds r₁ ⟨⟨hr₁, hs₁, hframe₁, hbounds⟩, hdeclared₁, hscopes₁, hreads₁⟩
        have hx := hframe₁.old_of_some (hblank x List.mem_cons_self)
        obtain ⟨change, heq, hbare, _⟩ := setBounds_eq x.2 bounds r₁
        obtain ⟨v, hv, hname, hsame⟩ := setBounds_spec bounds hx rfl rfl
        refine .bind (P := fun _ r₂ => r₂.Valid ∧ r₂.env.Sound ∧
          r₂ = (setBounds x.2 bounds r₁).2) ?_ ?_
        · obtain ⟨hr₂, hs₂, _⟩ := ends_setBounds hr₁ hs₁ hbounds (Nat.zero_le x.2)
          exact ⟨hr₂, hs₂, rfl⟩
        · rintro _ r₂ ⟨hr₂, hs₂, rfl⟩
          have hkeeps : r₁.env.Keeps (· = x.2) (setBounds x.2 bounds r₁).2.env :=
            heq ▸ Environment.keeps_updateType hbare
          refine ⟨rfl, hr₂, hs₂, ?_, ?_, ?_, v, hv, hname, ?_⟩
          · rw [heq]
            exact hdeclared₁
          · rw [heq]
            exact hscopes₁
          · exact .trans ⟨hframe₁.revised, fun _ _ _ ht => hframe₁.old_of_some ht⟩ hkeeps
          · rw [hsame]
            exact Environment.Reads.forall₂_later hreads₁ hkeeps.revised
      -- those of the others
      · rintro _ r₂ ⟨rfl, hr₂, hs₂, hdeclared₂, hscopes₂, hkeeps₂, hfirst⟩
        have hblank₂ : ∀ y ∈ pairs, r₂.env.types[y.2]? = some (blankVariable owner y.1) := by
          intro y hy
          have hne : y.2 ≠ x.2 := fun heq => hfresh (heq ▸ List.mem_map_of_mem hy)
          exact hkeeps₂.same _ _ hne (hblank y (List.mem_cons_of_mem x hy))
        obtain ⟨hdeclared₃, hscopes₃, hkeeps₃, hrest⟩ := ih hr₂ hs₂
          (hknows.later hdeclared₂ hscopes₂ hkeeps₂.revised) hnodup hblank₂
        refine ⟨hdeclared₃.trans hdeclared₂, hscopes₃.trans hscopes₂, ?_, ?_⟩
        · refine (hkeeps₂.mono fun id _ hid => ?_).trans (hkeeps₃.mono fun id _ hid => ?_)
          · exact hid ▸ List.mem_cons_self
          · exact List.mem_cons_of_mem _ hid
        · intro y hy
          rcases List.mem_cons.mp hy with rfl | hy
          · exact hfirst.later hkeeps₃ hfresh
          · exact hrest y hy

/-- New type variables stand at their numbers. -/
theorem blank_of_mem_zip {parameters : List TypeParameter} {x : TypeParameter × TypeId}
    {types : Array TypeBinding}
    (hx : x ∈ parameters.zip (List.range' types.size parameters.length)) :
    (types ++ (parameters.map (blankVariable owner)).toArray)[x.2]? =
      some (blankVariable owner x.1) := by
  obtain ⟨k, hk⟩ := List.mem_iff_getElem?.mp hx
  obtain ⟨hparameter, hid⟩ := List.getElem?_zip_eq_some.mp hk
  obtain ⟨hlt, hid⟩ := List.getElem?_eq_some_iff.mp hid
  rw [List.getElem_range'] at hid
  rw [← hid, Array.getElem?_append_right (by omega), List.getElem?_toArray, List.getElem?_map,
    Nat.one_mul, Nat.add_sub_cancel_left, hparameter]
  rfl

/-- Type parameters are read in the scope that they open. -/
theorem reads_bindTypeParameters (parameters : List TypeParameter) (owner : VariableOwner)
    (hr : r.Valid) (hs : r.env.Sound) (hknows : r.Knows unit p) (howner : r.env.HasOwner owner) :
    Ends r (bindTypeParameters parameters owner) fun ids r' => r'.scopes.tail = r.scopes ∧
      r'.Knows unit (p.under parameters) ∧ r.env.Keeps (fun _ => False) r'.env ∧
        r'.env.ReadsParameters unit (p.under parameters) parameters ids := by
  let ids := List.range' r.env.types.size parameters.length
  let r₁ : Resolver := { r with
    env.types := r.env.types ++ (parameters.map (blankVariable owner)).toArray }
  have hnew : (parameters.mapM fun q => addType (blankVariable owner q)) r = (ids, r₁) :=
    newVariables_eq parameters r
  have hr₁ : r₁.Valid := by
    have hvalid : ((parameters.mapM fun q => addType (blankVariable owner q)) r).2.Valid :=
      (gives_newVariables parameters hr howner).valid
    rwa [hnew] at hvalid
  have hs₁ : r₁.env.Sound := by
    have hsound : ((parameters.mapM fun q => addType (blankVariable owner q)) r).2.env.Sound :=
      (opens_newVariables parameters hs howner).sound
    rwa [hnew] at hsound
  have hkeeps₁ : r.env.Keeps (fun _ => False) r₁.env := by
    have hsame : ∀ (id : TypeId) (t : TypeBinding), r.env.types[id]? = some t →
        r₁.env.types[id]? = some t := by
      intro id t ht
      have hlt := (Array.getElem?_eq_some_iff.mp ht).1
      exact (Array.getElem?_append_left hlt).trans ht
    exact ⟨fun id t ht => ⟨t, hsame id t ht, rfl⟩, fun id t _ ht => hsame id t ht⟩
  refine .bind (P := fun ids' r' => ids' = ids ∧ r' = r₁)
    ⟨congrArg Prod.fst hnew, congrArg Prod.snd hnew⟩ ?_
  rintro _ _ ⟨rfl, rfl⟩
  let scope := ((parameters.map TypeParameter.name).zip ids).reverse
  let r₂ : Resolver := { r₁ with scopes := scope :: r₁.scopes }
  refine .bind (P := fun _ r' => r' = r₂) rfl ?_
  rintro _ _ rfl
  have hr₂ : r₂.Valid := (@gives_openScope _ scope hr₁ fun entry hentry => by
    have hid := (List.mem_range'_1.mp (List.of_mem_zip (List.mem_reverse.mp hentry)).2).2
    have hsize : r₁.env.types.size = r.env.types.size + parameters.length := by simp [r₁]
    exact hid.trans_eq hsize.symm).valid
  have hknows₂ : r₂.Knows unit (p.under parameters) := by
    have hknows₁ : r₁.Knows unit p := hknows.later rfl rfl hkeeps₁.revised
    refine ⟨hknows₁.declared, hknows₁.types, fun scope' hscope entry hentry => ?_⟩
    rcases List.mem_cons.mp hscope with rfl | hscope
    · exact List.mem_append_left _ (List.of_mem_zip (List.mem_reverse.mp hentry)).1
    · exact List.mem_append_right _ (hknows₁.scopes scope' hscope entry hentry)
  have hsnd : (parameters.zip ids).map Prod.snd = ids :=
    List.map_snd_zip (by rw [List.length_range'])
  have hnodup : ((parameters.zip ids).map Prod.snd).Nodup := by
    rw [hsnd]
    exact List.nodup_range'
  refine .bind (reads_boundLoop (parameters.zip ids) hr₂ hs₁ hknows₂ hnodup
    fun x hx => blank_of_mem_zip hx) ?_
  rintro _ r₃ ⟨hdeclared₃, hscopes₃, hkeeps₃, hreads₃⟩
  have hkeeps : r.env.Keeps (fun _ => False) r₃.env := by
    refine ⟨hkeeps₁.revised.trans hkeeps₃.revised, fun id t _ ht => ?_⟩
    refine hkeeps₃.same id t (fun hid => ?_) (hkeeps₁.same id t not_false ht)
    rw [hsnd] at hid
    have hold := (Array.getElem?_eq_some_iff.mp ht).1
    have hlow := (List.mem_range'_1.mp hid).1
    omega
  refine ⟨(congrArg List.tail hscopes₃), hknows₂.later hdeclared₃ hscopes₃ hkeeps₃.revised, hkeeps,
    List.forall₂_iff_zip.mpr ⟨(List.length_range').symm, fun hx => hreads₃ _ hx⟩⟩

/-! ### Members -/

/-- From one moment to a later one types were made and nothing else. -/
structure Grown (unit : CompilationUnit) (p : Site) (r r' : Resolver) : Prop where
  valid : r'.Valid
  sound : r'.env.Sound
  knows : r'.Knows unit p
  scopes : r'.scopes = r.scopes
  keeps : r.env.Keeps (fun _ => False) r'.env
  fields : r'.env.fields = r.env.fields
  methods : r'.env.methods = r.env.methods

theorem Grown.trans {r'' : Resolver} (h : Grown unit p r r') (h' : Grown unit p r' r'') :
    Grown unit p r r'' where
  valid := h'.valid
  sound := h'.sound
  knows := h'.knows
  scopes := h'.scopes.trans h.scopes
  keeps := h.keeps.trans h'.keeps
  fields := h'.fields.trans h.fields
  methods := h'.methods.trans h.methods

theorem Finds.ends {α : Type} {a : Resolve α} {Q Q₁ : α → Environment → Prop} (h : Finds r a Q)
    (hmakes : Makes r a) (hgives : Gives r a Q₁) (hknows : r.Knows unit p) :
    Ends r a fun b r' => Grown unit p r r' ∧ Q₁ b r'.env ∧ Q b r'.env :=
  ⟨⟨hgives.valid, hmakes.sound, hknows.later h.declared h.scopes h.revised, h.scopes,
    ⟨h.revised, fun _ _ _ ht => hmakes.frame.old_of_some ht⟩, hmakes.frame.fields,
    hmakes.frame.methods⟩, hgives.result, h.result⟩

/-- From one moment to a later one a scope was opened, for type parameters that became types. -/
structure Scoped (unit : CompilationUnit) (p : Site) (parameters : List TypeParameter)
    (ids : List TypeId) (r r' : Resolver) : Prop where
  valid : r'.Valid
  sound : r'.env.Sound
  knows : r'.Knows unit (p.under parameters)
  scopes : r'.scopes.tail = r.scopes
  keeps : r.env.Keeps (fun _ => False) r'.env
  fields : r'.env.fields = r.env.fields
  methods : r'.env.methods = r.env.methods
  pending : r'.pending = r.pending
  areVariables : AreVariables ids r'.env
  ids : r'.env.ReadsParameters unit (p.under parameters) parameters ids

theorem scoped_bindTypeParameters (parameters : List TypeParameter) (owner : VariableOwner)
    (hr : r.Valid) (hs : r.env.Sound) (hknows : r.Knows unit p) (howner : r.env.HasOwner owner) :
    Ends r (bindTypeParameters parameters owner) fun ids r' =>
      Scoped unit p parameters ids r r' := by
  obtain ⟨hvalid, hvariables, hopens⟩ :=
    @opens_bindTypeParameters _ parameters owner hr hs howner
  obtain ⟨hscopes, hknows', hkeeps, hids⟩ :=
    reads_bindTypeParameters parameters owner hr hs hknows howner
  exact ⟨hvalid, hopens.sound, hknows', hscopes, hkeeps, hopens.frame.fields, hopens.frame.methods,
    hopens.frame.pending, hvariables, hids⟩

/-- From one moment to a later one members of types were resolved and read, and the scopes are the
same again. -/
structure Gains (unit : CompilationUnit) (p : Site) (fields : List (Site × TypeId × FieldDecl))
    (methods : List (Site × TypeId × MethodDecl)) (r r' : Resolver) : Prop where
  valid : r'.Valid
  sound : r'.env.Sound
  knows : r'.Knows unit p
  scopes : r'.scopes = r.scopes
  keeps : r.env.Keeps (fun _ => False) r'.env
  fields : ∃ more, r'.env.fields.toList = r.env.fields.toList ++ more ∧
    List.Forall₂ (r'.env.ReadsField unit) fields more
  methods : ∃ more, r'.env.methods.toList = r.env.methods.toList ++ more ∧
    List.Forall₂ (r'.env.ReadsMethod unit) methods more

theorem Gains.refl (hr : r.Valid) (hs : r.env.Sound) (hknows : r.Knows unit p) :
    Gains unit p [] [] r r :=
  ⟨hr, hs, hknows, rfl, .refl _, ⟨[], (List.append_nil _).symm, .nil⟩,
    ⟨[], (List.append_nil _).symm, .nil⟩⟩

theorem Gains.trans {r'' : Resolver} {fields fields' : List (Site × TypeId × FieldDecl)}
    {methods methods' : List (Site × TypeId × MethodDecl)}
    (h : Gains unit p fields methods r r') (h' : Gains unit p fields' methods' r' r'') :
    Gains unit p (fields ++ fields') (methods ++ methods') r r'' where
  valid := h'.valid
  sound := h'.sound
  knows := h'.knows
  scopes := h'.scopes.trans h.scopes
  keeps := h.keeps.trans h'.keeps
  fields := by
    obtain ⟨more, hmore, hreads⟩ := h.fields
    obtain ⟨more', hmore', hreads'⟩ := h'.fields
    refine ⟨more ++ more', by rw [hmore', hmore, List.append_assoc], List.rel_append ?_ hreads'⟩
    exact hreads.imp fun _ _ hread => hread.later h'.keeps.revised
  methods := by
    obtain ⟨more, hmore, hreads⟩ := h.methods
    obtain ⟨more', hmore', hreads'⟩ := h'.methods
    refine ⟨more ++ more', by rw [hmore', hmore, List.append_assoc], List.rel_append ?_ hreads'⟩
    exact hreads.imp fun _ _ hread => hread.later h'.keeps fun _ _ _ => not_false

theorem gains_forM {γ : Type} {owner : TypeId} {step : γ → Resolve Unit}
    (fields : γ → List (Site × TypeId × FieldDecl))
    (methods : γ → List (Site × TypeId × MethodDecl))
    (hstep : ∀ x r, r.Valid → r.env.Sound → IsType owner r.env → r.Knows unit p →
      Gains unit p (fields x) (methods x) r (step x r).2) (xs : List γ) (hr : r.Valid)
    (hs : r.env.Sound) (howner : IsType owner r.env) (hknows : r.Knows unit p) :
    Ends r (xs.forM step) fun _ r' =>
      Gains unit p (xs.flatMap fields) (xs.flatMap methods) r r' := by
  induction xs generalizing r with
  | nil => exact .refl hr hs hknows
  | cons x xs ih =>
      have hhead := hstep x r hr hs howner hknows
      exact hhead.trans (ih hhead.valid hhead.sound (hhead.keeps.revised.lt howner) hhead.knows)

theorem gains_resolveField {owner : TypeId} (f : FieldDecl) (hr : r.Valid) (hs : r.env.Sound)
    (howner : IsType owner r.env) (hknows : r.Knows unit p) :
    Gains unit p [(p, owner, f)] [] r (resolveField owner f r).2 := by
  have hadds := adds_resolveField f hr hs howner
  have hmakes := makes_resolveType f.type r hr hs
  obtain ⟨hdeclared, hscopes, hrevised, hreads⟩ := finds_resolveType f.type r hr hknows
  let field : FieldBinding :=
    { name := f.name
      modifiers := f.modifiers
      type := some (resolveType f.type r).1
      declaringClass := some owner }
  exact {
    valid := hadds.valid
    sound := hadds.sound
    knows := hknows.later hdeclared hscopes hadds.revised
    scopes := hscopes
    keeps := ⟨hadds.revised, fun _ _ _ ht => hmakes.frame.old_of_some ht⟩
    fields := by
      refine ⟨[field], ?_, .cons ⟨rfl, rfl, _, rfl, ?_⟩ .nil⟩
      · rw [← hmakes.frame.fields]
        exact Array.toList_push
      · exact hreads.later _ _ (.of_types rfl)
    methods := ⟨[], by
      rw [List.append_nil, ← hmakes.frame.methods]
      rfl, .nil⟩ }

theorem gains_resolveMethod {owner : TypeId} (m : MethodDecl) (hr : r.Valid) (hs : r.env.Sound)
    (howner : IsType owner r.env) (hknows : r.Knows unit p) :
    Gains unit p [] [(p, owner, m)] r (resolveMethod owner m r).2 := by
  have hadds := adds_resolveMethod m hr hs howner
  let blank : MethodBinding :=
    { selector := m.selector, modifiers := m.modifiers, declaringClass := some owner }
  have hblank : AreTypes blank.components r.env := by
    simp [blank, AreTypes, MethodBinding.components, howner]
  have hadd := gives_addMethod hr hblank
  suffices hends : Ends r (resolveMethod owner m) fun _ r' =>
      Adds [] [(some owner, m.selector, m.modifiers)] r r' →
        Gains unit p [] [(p, owner, m)] r r' from hends hadds
  let r₁ : Resolver := { r with env := (r.env.addMethod blank).2 }
  refine .bind (a := addMethod blank) (P := fun id r' => id = r.env.methods.size ∧ r' = r₁)
    ⟨rfl, rfl⟩ ?_
  rintro _ _ ⟨rfl, rfl⟩
  have hr₁ : r₁.Valid := hadd.valid
  have hs₁ : r₁.env.Sound := hs.withMethods rfl (by simp [r₁, Environment.addMethod])
  have hkeeps₁ : r.env.Keeps (fun _ => False) r₁.env := .of_types rfl
  have howner₁ : r₁.env.HasOwner (.method r.env.methods.size) := hadd.result
  refine .bind (scoped_bindTypeParameters m.typeParameters _ hr₁ hs₁
    (hknows.later rfl rfl hkeeps₁.revised) howner₁) ?_
  rintro ids r₂ h₂
  refine .bind ((finds_resolveOptional m.returnType h₂.valid h₂.knows).ends
    (makes_resolveOptional _ h₂.valid h₂.sound) (gives_resolveOptional _ h₂.valid) h₂.knows) ?_
  rintro returnType r₃ ⟨h₃, _, hreturn⟩
  refine .bind ((finds_mapM (Q := fun q id e => e.Reads unit _ q.type id) gives_resolveParameter
    finds_resolveParameter (fun q id _ _ h he => h.later q.type id he) m.parameters h₃.valid
    h₃.knows).ends (makes_mapM gives_resolveParameter makes_resolveParameter _ h₃.valid h₃.sound)
    (gives_mapM gives_resolveParameter _ h₃.valid) h₃.knows) ?_
  rintro parameters r₄ ⟨h₄, _, hparameters⟩
  refine .bind ((finds_resolveTypes m.throws h₄.valid h₄.knows).ends
    (makes_resolveTypes _ h₄.valid h₄.sound) (gives_mapM gives_resolveType _ h₄.valid) h₄.knows) ?_
  rintro throws r₅ ⟨h₅, _, hthrows⟩
  -- from here on only the scope and the method itself change
  have hkeeps₄₅ := h₄.keeps.trans h₅.keeps
  have hgrown := (h₃.trans h₄).trans h₅
  refine .bind (P := fun _ r₆ => r₆ = { r₅ with scopes := r₅.scopes.tail }) rfl ?_
  rintro _ r₆ rfl hadds
  let filled : MethodBinding := { blank with returnType, parameters, throws, typeVariables := ids }
  have hmethods : (r₅.env.updateMethod r.env.methods.size fun binding =>
      { binding with returnType, parameters, throws, typeVariables := ids }).methods =
        r.env.methods.push filled := by
    rw [Environment.updateMethod]
    dsimp only
    rw [hgrown.methods, h₂.methods]
    exact modify_push_size _ _ _
  have hscopes : r₅.scopes.tail = r.scopes := by
    rw [hgrown.scopes]
    exact h₂.scopes
  have hdeclared : r₅.declared = r.declared := h₅.knows.declared.trans hknows.declared.symm
  have hkeeps : r₁.env.Keeps (fun _ => False) r₅.env := h₂.keeps.trans hgrown.keeps
  have hlast : r₅.env.Keeps (fun _ => False) (r₅.env.updateMethod r.env.methods.size fun binding =>
      { binding with returnType, parameters, throws, typeVariables := ids }) := .of_types rfl
  exact {
    valid := hadds.valid
    sound := hadds.sound
    knows := hknows.later hdeclared hscopes hadds.revised
    scopes := hscopes
    keeps := (hkeeps₁.trans hkeeps).trans hlast
    fields := ⟨[], by
      rw [List.append_nil]
      exact congrArg Array.toList (hgrown.fields.trans h₂.fields), .nil⟩
    methods := by
      refine ⟨[filled], ?_, .cons ?_ .nil⟩
      · exact (congrArg Array.toList hmethods).trans Array.toList_push
      · exact {
          owner := rfl
          selector := rfl
          typeParameters := h₂.ids.later (hgrown.keeps.trans hlast) fun _ _ _ => not_false
          returnType := Environment.Reads.option_later hreturn (hkeeps₄₅.trans hlast).revised
          parameters := hparameters.imp fun q id hid =>
            hid.later q.type id (h₅.keeps.trans hlast).revised
          throws := Environment.Reads.forall₂_later hthrows hlast.revised } }

/-! ### The second pass -/

theorem fieldSites_append (done : List (Site × TypeDecl)) (p : Site) (t : TypeDecl) :
    fieldSites (done ++ [(p, t)]) =
      fieldSites done ++ t.fields.flatMap fun f => [(p, done.length, f)] := by
  simp [fieldSites, List.zipIdx_append, List.map_eq_flatMap]

theorem methodSites_append (done : List (Site × TypeDecl)) (p : Site) (t : TypeDecl) :
    methodSites (done ++ [(p, t)]) =
      methodSites done ++ t.methods.flatMap fun m => [(p, done.length, m)] := by
  simp [methodSites, List.zipIdx_append, List.map_eq_flatMap]

theorem setSupertypes_spec {id : TypeId} {t : TypeBinding} {b : ReferenceBinding}
    (superclass : Option TypeId) (interfaces typeVariables : List TypeId)
    (ht : r.env.types[id]? = some t) (hb : t.declared? = some b) :
    ∃ t', (setSupertypes id superclass interfaces typeVariables r).2.env.types[id]? = some t' ∧
      t'.declared? = some { b with superclass, interfaces, typeVariables } := by
  change ∃ t', (Environment.updateType _ _ _).types[id]? = _ ∧ _
  rw [Environment.types_updateType_self ht]
  refine ⟨_, rfl, ?_⟩
  cases t with
  | generic b' | reference b' =>
      obtain rfl := Option.some.inj hb
      rfl
  | _ => cases hb

/-- What was read of types stays so, when one of the others is completed, and members are added. -/
theorem ReadsTypes.snoc {e e' : Environment} {done : List (Site × TypeDecl)} {t : TypeDecl}
    (h : e.ReadsTypes unit done) (hkeeps : e.Keeps (· = done.length) e')
    (hspares : e.SparesVariables (· = done.length)) (hheader : e'.ReadsHeader unit p t done.length)
    (hfields : ∃ more, e'.fields.toList = e.fields.toList ++ more ∧
      List.Forall₂ (e'.ReadsField unit) (t.fields.flatMap fun f => [(p, done.length, f)]) more)
    (hmethods : ∃ more, e'.methods.toList = e.methods.toList ++ more ∧
      List.Forall₂ (e'.ReadsMethod unit) (t.methods.flatMap fun m => [(p, done.length, m)]) more) :
    e'.ReadsTypes unit (done ++ [(p, t)]) where
  headers i q u hi := by
    rcases Nat.lt_trichotomy i done.length with hlt | rfl | hgt
    · rw [List.getElem?_append_left hlt] at hi
      exact (h.headers i q u hi).later hkeeps hspares (Nat.ne_of_lt hlt)
    · rw [List.getElem?_append_right (Nat.le_refl _), Nat.sub_self] at hi
      cases hi
      exact hheader
    · rw [List.getElem?_eq_none (by rw [List.length_append]; exact hgt)] at hi
      cases hi
  fields := by
    obtain ⟨more, hmore, hreads⟩ := hfields
    rw [fieldSites_append, hmore]
    exact List.rel_append (h.fields.imp fun _ _ hread => hread.later hkeeps.revised) hreads
  methods := by
    obtain ⟨more, hmore, hreads⟩ := hmethods
    rw [methodSites_append, hmore]
    exact List.rel_append (h.methods.imp fun _ _ hread => hread.later hkeeps hspares) hreads

/-- The header and the members of a declared type are read. -/
theorem reads_resolveHeader {done : List (Site × TypeDecl)}
    {todo : List (List String × TypeDecl)} {outer : Site} {t : TypeDecl}
    (h : Progress unit.packageWords (done.map Site.entry)
      ((outer.path ++ [t.name], t) :: todo) r) (hknows : r.Knows unit outer)
    (hreads : r.env.ReadsTypes unit done) :
    Ends { r with pending := r.pending.tail } (resolveHeader done.length t) fun _ r' =>
      r'.Knows unit (outer.within t.name t.typeParameters) ∧ r'.scopes.tail = r.scopes ∧
        r'.env.ReadsTypes unit (done ++ [(outer.within t.name t.typeParameters, t)]) := by
  let here : Site := { outer with path := outer.path ++ [t.name] }
  let start : Resolver := { r with pending := r.pending.tail }
  have htype : r.env.types[done.length]? = some (declaration unit.packageWords
      (unit.packageWords ++ (outer.path ++ [t.name])) t) := by
    have hfirst := h.untouched 0 _ t rfl
    rwa [List.length_map, Nat.add_zero] at hfirst
  obtain ⟨b, hb, _⟩ := declared?_declaration unit.packageWords
    (unit.packageWords ++ (outer.path ++ [t.name])) t
  have hstart : start.Knows unit here := ⟨hknows.declared, hknows.types, hknows.scopes⟩
  refine .bind (scoped_bindTypeParameters t.typeParameters (.type done.length)
    (gives_nextPending? h.valid).valid h.sound hstart (isType_of_getElem? htype)) ?_
  rintro ids r₁ h₁
  refine .bind ((finds_resolveOptional t.superclass h₁.valid h₁.knows).ends
    (makes_resolveOptional _ h₁.valid h₁.sound) (gives_resolveOptional _ h₁.valid) h₁.knows) ?_
  rintro superclass r₂ ⟨h₂, hsuper, hsuperclass⟩
  refine .bind ((finds_resolveTypes t.interfaces h₂.valid h₂.knows).ends
    (makes_resolveTypes _ h₂.valid h₂.sound) (gives_mapM gives_resolveType _ h₂.valid) h₂.knows) ?_
  rintro interfaces r₃ ⟨h₃, hinter, hinterfaces⟩
  have hgrown := h₂.trans h₃
  have hkeeps₃ : r.env.Keeps (fun _ => False) r₃.env := h₁.keeps.trans hgrown.keeps
  have hvariables : AreVariables ids r₃.env := fun x hx =>
    isVariable_of_revised (h₁.areVariables x hx) hgrown.keeps.revised
  -- the supertypes and type variables are given to the type
  obtain ⟨change, heq, hbare, hfits, _⟩ :=
    setSupertypes_eq done.length superclass interfaces ids r₃
  let r₄ : Resolver := { r₃ with env := r₃.env.updateType done.length change }
  have hr₄ : r₄.Valid := by
    have hgives : Gives r₃ (setSupertypes done.length superclass interfaces ids) fun _ _ => True :=
      gives_setSupertypes h₃.valid hvariables
    have hvalid := hgives.valid
    rwa [heq] at hvalid
  have hs₄ : r₄.env.Sound := Environment.sound_updateType h₃.sound hbare fun t => hfits t
    (fun x hx => h₃.keeps.revised.lt (hsuper x hx)) hinter fun x hx => (hvariables x hx).lt
  have hkeeps₄ : r₃.env.Keeps (· = done.length) r₄.env := Environment.keeps_updateType hbare
  have hknows₄ : r₄.Knows unit (here.under t.typeParameters) :=
    h₃.knows.later rfl rfl hkeeps₄.revised
  refine .bind (P := fun _ r' => r' = r₄) heq ?_
  rintro _ _ rfl
  have howner₄ : IsType done.length r₄.env :=
    hkeeps₄.revised.lt (hkeeps₃.revised.lt (isType_of_getElem? htype))
  -- its fields and methods
  refine .bind (gains_forM _ (fun _ => []) (fun f r => gains_resolveField f) t.fields hr₄ hs₄
    howner₄ hknows₄) ?_
  rintro _ r₅ h₅
  refine .mono (gains_forM (fun _ => []) _ (fun m r => gains_resolveMethod m) t.methods
    h₅.valid h₅.sound (h₅.keeps.revised.lt howner₄) h₅.knows) ?_
  rintro _ r₆ h₆
  have hgains := h₅.trans h₆
  rw [List.flatMap_eq_nil_iff.mpr fun _ _ => rfl, List.flatMap_eq_nil_iff.mpr fun _ _ => rfl,
    List.append_nil, List.nil_append] at hgains
  have hnone : ∀ {e e' : Environment}, e.Keeps (fun _ => False) e' → e.Keeps (· = done.length) e' :=
    fun h => h.mono fun _ _ hid => hid.elim
  have hheader : r₄.env.ReadsHeader unit (here.under t.typeParameters) t done.length := by
    have htype₃ := hkeeps₃.same _ _ not_false htype
    obtain ⟨t', ht', hb'⟩ := setSupertypes_spec superclass interfaces ids htype₃ hb
    rw [heq] at ht'
    have hspares := Environment.sparesVariables_of_declared (h₁.keeps.same _ _ not_false htype) hb
    exact ⟨t', _, ht', hb', h₁.ids.later ((hnone hgrown.keeps).trans hkeeps₄) hspares,
      Environment.Reads.option_later hsuperclass (h₃.keeps.revised.trans hkeeps₄.revised),
      Environment.Reads.forall₂_later hinterfaces hkeeps₄.revised⟩
  have hmembers : r₃.env.fields = r.env.fields ∧ r₃.env.methods = r.env.methods :=
    ⟨hgrown.fields.trans h₁.fields, hgrown.methods.trans h₁.methods⟩
  refine ⟨⟨hgains.knows.declared, hgains.knows.types, hgains.knows.scopes⟩, ?_, ?_⟩
  · rw [hgains.scopes]
    exact (congrArg List.tail hgrown.scopes).trans h₁.scopes
  · refine ReadsTypes.snoc hreads (((hnone hkeeps₃).trans hkeeps₄).trans (hnone hgains.keeps))
      (Environment.sparesVariables_of_declared htype hb)
      (hheader.later hgains.keeps (fun _ _ _ => not_false) not_false) ?_ ?_
    · rw [← hmembers.1]
      exact hgains.fields
    · rw [← hmembers.2]
      exact hgains.methods

/-- A part of the second pass has read some types, and at its site the scopes are the same again. -/
structure Read (unit : CompilationUnit) (outer : Site) (done : List (Site × TypeDecl))
    (r r' : Resolver) : Prop where
  knows : r'.Knows unit outer
  scopes : r'.scopes = r.scopes
  types : r'.env.ReadsTypes unit done

theorem carried_reads :
    Carried unit fun p done r => r.Knows unit p ∧ r.env.ReadsTypes unit done where
  header := by
    rintro outer done todo t r hprogress ⟨hknows, hreads⟩
    exact (reads_resolveHeader hprogress hknows hreads).mono fun _ _ h => ⟨h.2.1, h.1, h.2.2⟩
  close := by
    rintro outer inner done done' r r' ⟨hknows, -⟩ ⟨hknows', hreads⟩ hscopes
    refine ⟨⟨hknows'.declared, hknows'.types, fun scope hscope => ?_⟩, hreads⟩
    exact hknows.scopes scope (hscopes ▸ hscope)

theorem reads_forM (types : List TypeDecl) (outer : Site) (done : List (Site × TypeDecl))
    (todo : List (List String × TypeDecl))
    (h : Progress unit.packageWords (done.map Site.entry)
      (types.flatMap (TypeDecl.declarations outer.path) ++ todo) r) (hknows : r.Knows unit outer)
    (hreads : r.env.ReadsTypes unit done) :
    Ends r (types.forM resolveAll) fun _ r' =>
      Read unit outer (done ++ types.flatMap (TypeDecl.sites outer)) r r' :=
  (carried_reads.forM types outer done todo h ⟨hknows, hreads⟩).mono
    fun _ _ hread => ⟨hread.2.1, hread.1, hread.2.2⟩

end Resolve

/-- **Names of declared types resolve by scope where the table of names agrees.**  In what a unit
resolves to, every name without arguments in a type that it declares, be it in a bound, a supertype,
a field, a method or a type argument, is a use of the declared type that it denotes, unless it is a
type variable in scope, or another type that goes by that name is declared later. -/
theorem CompilationUnit.declared_names_resolve (unit : CompilationUnit) :
    unit.resolve.ReadsTypes unit unit.sites := by
  let start : Resolver := {
    package := unit.packageWords
    imported := Resolve.singleImports unit }
  have hstart : start.Valid :=
    ⟨Environment.grounded_empty, Environment.linked_empty, by simp [start], by simp [start],
      by simp [start], by simp [start]⟩
  have hvalid := (Resolve.gives_forM
    (fun t r hr _ => Resolve.gives_declareAll t unit.packageWords r hr) unit.types hstart
    (.refl _)).valid
  have hdeclared : Resolve.Declared unit.packageWords unit.declarations start _ :=
    Resolve.declares_forM unit.types rfl
  have hnamed : Resolve.Named unit.packageWords unit.declarations start _ :=
    Resolve.named_forM unit.types rfl
  have hfirst := hdeclared.progress hvalid rfl rfl
  obtain ⟨r, hr⟩ : ∃ r, r = (unit.types.forM (Resolve.declareAll unit.packageWords) start).2 :=
    ⟨_, rfl⟩
  rw [← hr] at hdeclared hnamed hfirst
  have hknows : r.Knows unit ⟨[], []⟩ := by
    refine ⟨?_, fun i hi => ?_, fun scope hscope => ?_⟩
    · rw [hnamed.declared]
      exact List.append_nil _
    · have hentry := List.getElem?_eq_getElem hi
      have htype := hfirst.untouched i _ _ hentry
      rw [List.length_nil, Nat.zero_add] at htype
      obtain ⟨b, hb, _⟩ := Resolve.declared?_declaration unit.packageWords
        (unit.packageWords ++ unit.declarations[i].1) unit.declarations[i].2
      exact ⟨_, b, htype, hb⟩
    · rw [hnamed.scopes] at hscope
      cases hscope
  rw [← List.append_nil unit.declarations] at hfirst
  have hnone : r.env.ReadsTypes unit [] := by
    refine ⟨fun i p t hi => ?_, ?_, ?_⟩
    · cases hi
    · rw [hdeclared.fields]
      exact .nil
    · rw [hdeclared.methods]
      exact .nil
  subst hr
  exact (Resolve.reads_forM unit.types ⟨[], []⟩ [] [] hfirst hknows hnone).types

/-! ### Two member types with one name -/

/-- A class with members. -/
def classWith (name : String) (members : List Member) : TypeDecl :=
  { TypeDecl.new .classType with name, members }

/-- A field of the type `X`. -/
def fieldOfX : FieldDecl where
  name := "f"
  modifiers := 0
  annotations := []
  type := .ofName ⟨[⟨"X", {}⟩]⟩
  initializer := none
  extent := {}

/-- The classes `A` and `B` each have a member class `X`, and `A` has a field of the type `X`. -/
def namesakes : CompilationUnit where
  types := [classWith "A" [.type (classWith "X" []), .field fieldOfX],
    classWith "B" [.type (classWith "X" [])]]

theorem denotes_namesakes : namesakes.Denotes ["A"] ["X"] 1 := by
  refine ⟨["A"], classWith "X" [], List.prefix_rfl, rfl, fun inner hinner hlonger => ?_⟩
  exact absurd hinner.length_le (Nat.not_le_of_lt hlonger)

/-- The name of the later one is the same, and the table has that one. -/
example : namesakes.lastCalled? ["X"] = some 3 ∧ namesakes.lastCalled? ["A", "X"] = some 1 := by
  decide +kernel

/-- **A member type is passed over** for a member type of another type: in a class the name of its
member class becomes the member class of that name in a later one. -/
theorem member_type_passed_over : ∃ site t field leaf,
    namesakes.sites[0]? = some (site, t) ∧ t.fields = [fieldOfX] ∧ "X" ∉ site.typeVariables ∧
    namesakes.Denotes site.path ["X"] 1 ∧ namesakes.resolve.fields.toList = [field] ∧
    field.declaringClass = some 0 ∧ field.type = some leaf ∧
    ¬ namesakes.resolve.Uses 1 (namesakes.resolve.leaf leaf) := by
  have hfields : namesakes.resolve.fields.toList =
      [{ name := "f", modifiers := 0, type := some 3, declaringClass := some 0 }] := by
    decide +kernel
  have hleaf : namesakes.resolve.leaf 3 = 3 := by decide +kernel
  have hplain : (namesakes.resolve.types[1]?.any TypeBinding.isGeneric) = false := by
    decide +kernel
  refine ⟨⟨["A"], []⟩, _, _, 3, rfl, rfl, List.not_mem_nil, denotes_namesakes, hfields, rfl, rfl,
    fun huses => ?_⟩
  rw [hleaf] at huses
  cases huses with
  | raw hgeneric =>
      rw [hgeneric] at hplain
      cases hplain

end AspectLang
