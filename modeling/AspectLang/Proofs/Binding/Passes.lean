import AspectLang.Proofs.Binding.Arena

/-! # What resolving a unit builds

The first pass makes one binding for each declared type, each before the types among its members
(`Resolve.declares_declareAll`), and the second one meets them in the same order.  `Progress` is
what holds between two types of the second pass: the bindings of the types that are done and of
those that are still to be done stand at their numbers, the fields and methods so far are those of
the types that are done, in order, and every type variable is listed where it is declared.  A type
that is resolved takes one entry from what is to be done to what is done
(`Resolve.progress_resolveHeader`), so a whole unit ends with nothing left to do
(`CompilationUnit.resolve_isArena`). -/

namespace AspectLang

namespace Resolve

variable {α β γ : Type} {r r' : Resolver} {a : Resolve α} {f : α → Resolve β}
  {package : List String}

/-! ### The first pass -/

/-- From one moment to a later one the bindings of declared types were made. -/
structure Declared (package : List String) (entries : List (List String × TypeDecl))
    (r r' : Resolver) : Prop where
  samePackage : r'.package = r.package
  types : r'.env.types.toList =
    r.env.types.toList ++ entries.map fun x => declaration package (package ++ x.1) x.2
  pending : r'.pending = r.pending ++ List.range' r.env.types.size entries.length
  methods : r'.env.methods = r.env.methods
  fields : r'.env.fields = r.env.fields
  locals : r'.env.locals = r.env.locals

theorem Declared.refl (r : Resolver) : Declared package [] r r where
  samePackage := rfl
  types := by simp
  pending := by simp
  methods := rfl
  fields := rfl
  locals := rfl

theorem Declared.trans {r'' : Resolver} {entries entries' : List (List String × TypeDecl)}
    (h : Declared package entries r r') (h' : Declared package entries' r' r'') :
    Declared package (entries ++ entries') r r'' where
  samePackage := h'.samePackage.trans h.samePackage
  types := by rw [h'.types, h.types, List.map_append, List.append_assoc]
  pending := by
    have hsize : r'.env.types.size = r.env.types.size + entries.length := by
      simpa using congrArg List.length h.types
    rw [h'.pending, h.pending, hsize, List.append_assoc, List.length_append,
      List.range'_append_1]
  methods := h'.methods.trans h.methods
  fields := h'.fields.trans h.fields
  locals := h'.locals.trans h.locals

theorem declares_declareType (outer : List String) (t : TypeDecl)
    (hpackage : r.package = package) :
    Declared package [(outer ++ [t.name], t)] r
      (declareType ((package ++ outer) ++ [t.name]) t r).2 where
  samePackage := rfl
  types := by
    subst hpackage
    change (Array.push _ _).toList = _
    rw [Array.toList_push, List.map_singleton, List.append_assoc]
  pending := rfl
  methods := rfl
  fields := rfl
  locals := rfl

mutual

theorem declares_declareAll : (t : TypeDecl) → (outer : List String) → (r : Resolver) →
    r.package = package →
      Declared package (t.declarations outer) r (declareAll (package ++ outer) t r).2
  | ⟨_, name, _, _, _, _, _, members, _, _, _, _⟩, outer, r, hpackage => by
    unfold declareAll TypeDecl.declarations
    have hmembers := fun r => declares_declareMembers members (outer ++ [name]) r
    simp only [← List.append_assoc] at hmembers
    exact .trans (declares_declareType outer _ hpackage) (hmembers _ hpackage)

theorem declares_declareMembers : (members : List Member) → (outer : List String) →
    (r : Resolver) → r.package = package →
      Declared package (Member.declarations outer members) r
        (declareMembers (package ++ outer) members r).2
  | [], _, r, _ => by
    unfold declareMembers Member.declarations
    exact .refl r
  | .type t :: rest, outer, r, hpackage => by
    unfold declareMembers Member.declarations
    have hhead := declares_declareAll t outer r hpackage
    exact hhead.trans (declares_declareMembers rest outer _ (hhead.samePackage.trans hpackage))
  | .field _ :: rest, outer, r, hpackage => by
    unfold declareMembers Member.declarations
    exact declares_declareMembers rest outer r hpackage
  | .method _ :: rest, outer, r, hpackage => by
    unfold declareMembers Member.declarations
    exact declares_declareMembers rest outer r hpackage
  | .initializer _ :: rest, outer, r, hpackage => by
    unfold declareMembers Member.declarations
    exact declares_declareMembers rest outer r hpackage

end

theorem declares_forM (types : List TypeDecl) (hpackage : r.package = package) :
    Declared package (types.flatMap (TypeDecl.declarations [])) r
      (types.forM (declareAll package) r).2 := by
  induction types generalizing r with
  | nil => exact .refl r
  | cons t types ih =>
      have hhead := declares_declareAll t [] r hpackage
      rw [List.append_nil] at hhead
      exact hhead.trans (ih (hhead.samePackage.trans hpackage))

/-! ### Steps with what they end in -/

/-- From `r`, a step ends as `P` says. -/
def Ends (r : Resolver) (a : Resolve α) (P : α → Resolver → Prop) : Prop := P (a r).1 (a r).2

theorem Ends.bind {P : α → Resolver → Prop} {P' : β → Resolver → Prop} (ha : Ends r a P)
    (hf : ∀ b r', P b r' → Ends r' (f b) P') : Ends r (a >>= f) P' := hf _ _ ha

theorem Ends.mono {P P' : α → Resolver → Prop} (ha : Ends r a P)
    (h : ∀ b r', P b r' → P' b r') : Ends r a P' := h _ _ ha

theorem Ends.and {P P' : α → Resolver → Prop} (h : Ends r a P) (h' : Ends r a P') :
    Ends r a fun b r' => P b r' ∧ P' b r' := ⟨h, h'⟩

/-- What a step that makes types ends in. -/
theorem Makes.ends {Q : α → Environment → Prop} (h : Makes r a) (hgives : Gives r a Q) :
    Ends r a fun b r' => r'.Valid ∧ r'.env.Sound ∧
      Resolver.Frame r.env.types.size NoFresh r r' ∧ Q b r'.env :=
  ⟨hgives.valid, h.sound, h.frame, hgives.result⟩

/-! ### Type variables -/

/-- From one moment to a later one types were made, and type variables of one owner with the
numbers `ids`. -/
structure Opens (owner : VariableOwner) (ids : List TypeId) (r r' : Resolver) : Prop where
  sound : r'.env.Sound
  frame : Resolver.Frame r.env.types.size (fun o id => o = owner ∧ id ∈ ids) r r'
  above : ∀ id ∈ ids, r.env.types.size ≤ id

theorem opens_newVariables {owner : VariableOwner} (parameters : List TypeParameter)
    (hs : r.env.Sound) (howner : r.env.HasOwner owner) :
    Ends r (parameters.mapM fun p =>
      addType (.typeVariable { name := p.name, declaring := some owner }))
      fun ids r' => Opens owner ids r r' := by
  induction parameters generalizing r with
  | nil => exact ⟨hs, .refl r, fun _ hid => by cases hid⟩
  | cons p parameters ih =>
      rw [List.mapM_cons]
      refine .bind (P := fun id r₁ => id = r.env.types.size ∧ r₁ = { r with
        env := (r.env.addType (.typeVariable { name := p.name, declaring := some owner })).2 })
        ⟨rfl, rfl⟩ ?_
      rintro id r₁ ⟨rfl, hr₁⟩
      have hfits : r.env.Fits (.typeVariable { name := p.name, declaring := some owner }) := by
        refine ⟨fun x hx => ?_, fun m hm => ?_, fun _ _ h => by cases h⟩
        · cases owner with
          | type id =>
              obtain rfl : x = id := by simpa [TypeBinding.typeIds, VariableType.typeIds,
                VariableOwner.typeId?] using hx
              exact howner
          | method id => simp [TypeBinding.typeIds, VariableType.typeIds, VariableOwner.typeId?] at hx
        · cases owner with
          | type id => simp [TypeBinding.methodIds, VariableOwner.methodId?] at hm
          | method id =>
              obtain rfl : m = id := by simpa [TypeBinding.methodIds, VariableOwner.methodId?]
                using hm
              exact howner
      have hs₁ : r₁.env.Sound := hr₁ ▸ Environment.sound_push hs hfits
      have hsize : r₁.env.types.size = r.env.types.size + 1 := by simp [hr₁, Environment.addType]
      have howner₁ : r₁.env.HasOwner owner := by
        cases owner with
        | type id => exact Nat.lt_of_lt_of_le howner (by omega)
        | method id => exact hr₁ ▸ howner
      refine .bind (ih hs₁ howner₁) fun ids r' hids => ?_
      refine ⟨hids.sound, ?_, ?_⟩
      · have hfirst : Resolver.Frame r.env.types.size
            (fun o id => o = owner ∧ id ∈ r.env.types.size :: ids) r r₁ := by
          rw [hr₁]
          refine .addType ?_
          rintro _ ⟨⟩
          exact ⟨owner, rfl, rfl, List.mem_cons_self⟩
        refine hfirst.trans (hids.frame.mono (by omega) ?_)
        exact fun o id hid => ⟨hid.1, List.mem_cons_of_mem _ hid.2⟩
      · intro id hid
        rcases List.mem_cons.mp hid with rfl | hid
        · exact Nat.le_refl _
        · have habove := hids.above id hid
          omega

/-- Setting the bounds of a type gives it types to name, and changes nothing else of it. -/
theorem setBounds_eq (id : TypeId) (bounds : List TypeId) (r : Resolver) :
    ∃ change, (setBounds id bounds r).2 = { r with env := r.env.updateType id change } ∧
      (∀ t : TypeBinding, (change t).bare = t.bare) ∧
      ∀ t, AreTypes bounds r.env → r.env.Fits t → r.env.Fits (change t) := by
  refine ⟨_, rfl, fun t => ?_, fun t hbounds ht => ?_⟩
  · split
    · split
      · rfl
      · split <;> rfl
    · rfl
  · split
    · rename_i v
      split
      · exact ht
      · rename_i first rest
        split
        · refine ⟨fun x hx => ?_, ht.methods, fun _ _ h => by cases h⟩
          simp only [TypeBinding.typeIds, VariableType.typeIds, List.mem_append] at hx
          rcases hx with (hx | hx | hx) | hx
          · exact ht.types x (by simp [TypeBinding.typeIds, VariableType.typeIds, hx])
          · exact ht.types x (by simp [TypeBinding.typeIds, VariableType.typeIds, hx])
          · exact hbounds x hx
          · exact ht.types x (by simp [TypeBinding.typeIds, VariableType.typeIds, hx])
        · refine ⟨fun x hx => ?_, ht.methods, fun _ _ h => by cases h⟩
          simp only [TypeBinding.typeIds, VariableType.typeIds, List.mem_append,
            Option.toList_some, List.mem_singleton] at hx
          rcases hx with (hx | hx | hx) | hx
          · exact hbounds x (hx ▸ List.mem_cons_self)
          · exact ht.types x (by simp [TypeBinding.typeIds, VariableType.typeIds, hx])
          · exact hbounds x (List.mem_cons_of_mem _ hx)
          · exact ht.types x (by simp [TypeBinding.typeIds, VariableType.typeIds, hx])
    · exact ht

theorem ends_setBounds {id n : TypeId} {bounds : List TypeId} (hr : r.Valid) (hs : r.env.Sound)
    (hbounds : AreTypes bounds r.env) (hn : n ≤ id) :
    Ends r (setBounds id bounds) fun _ r' => r'.Valid ∧ r'.env.Sound ∧
      Resolver.Frame n NoFresh r r' := by
  refine ⟨(gives_setBounds hr hbounds).valid, ?_⟩
  obtain ⟨change, heq, hbare, hfits⟩ := setBounds_eq id bounds r
  rw [heq]
  exact ⟨Environment.sound_updateType hs hbare fun t => hfits t hbounds, .updateType hn hbare⟩

theorem ends_boundLoop {n : Nat} (pairs : List (TypeParameter × TypeId)) (hr : r.Valid)
    (hs : r.env.Sound) (hn : n ≤ r.env.types.size) (hpairs : ∀ x ∈ pairs, n ≤ x.2) :
    Ends r (forIn pairs PUnit.unit fun x _ => do
      setBounds x.2 (← x.1.bounds.mapM resolveType)
      return ForInStep.yield PUnit.unit) fun _ r' => r'.env.Sound ∧
        Resolver.Frame n NoFresh r r' := by
  induction pairs generalizing r with
  | nil => exact ⟨hs, .refl r⟩
  | cons x pairs ih =>
      rw [List.forIn_cons]
      refine .bind (P := fun step r' => step = .yield ⟨⟩ ∧ r'.Valid ∧ r'.env.Sound ∧
        Resolver.Frame n NoFresh r r') ?_ ?_
      · refine .bind ((makes_resolveTypes x.1.bounds hr hs).ends
          (gives_mapM gives_resolveType x.1.bounds hr)) ?_
        rintro bounds r₁ ⟨hr₁, hs₁, hframe₁, hbounds⟩
        refine .bind (ends_setBounds hr₁ hs₁ hbounds (hpairs x List.mem_cons_self)) ?_
        rintro _ r₂ ⟨hr₂, hs₂, hframe₂⟩
        exact ⟨rfl, hr₂, hs₂, (hframe₁.mono hn fun _ _ h => h).trans hframe₂⟩
      · rintro _ r₁ ⟨rfl, hr₁, hs₁, hframe₁⟩
        obtain ⟨hs₂, hframe₂⟩ := ih hr₁ hs₁ (hn.trans hframe₁.revised.size_le)
          fun y hy => hpairs y (List.mem_cons_of_mem x hy)
        exact ⟨hs₂, hframe₁.trans hframe₂⟩

theorem opens_bindTypeParameters {parameters : List TypeParameter} (owner : VariableOwner)
    (hr : r.Valid) (hs : r.env.Sound) (howner : r.env.HasOwner owner) :
    Ends r (bindTypeParameters parameters owner) fun ids r' => r'.Valid ∧
      AreVariables ids r'.env ∧ Opens owner ids r r' := by
  have hgives : Gives r (bindTypeParameters parameters owner) AreVariables :=
    gives_bindTypeParameters hr howner
  refine ⟨hgives.valid, hgives.result, ?_⟩
  have hopens := opens_newVariables parameters hs howner
  have hvariables := gives_newVariables parameters hr howner
  change Ends r (bindTypeParameters parameters owner) fun ids r' => Opens owner ids r r'
  refine .bind (P := fun ids r₁ => r₁.Valid ∧ AreVariables ids r₁.env ∧ Opens owner ids r r₁)
    ⟨hvariables.valid, hvariables.result, hopens⟩ ?_
  rintro ids r₁ ⟨hr₁, hids, hopens⟩
  have hscope : Gives r₁ (modify fun r => { r with
      scopes := ((parameters.map TypeParameter.name).zip ids).reverse :: r.scopes })
      fun _ _ => True := gives_openScope hr₁ fun entry hentry =>
    (hids _ (List.of_mem_zip (List.mem_reverse.mp hentry)).2).lt
  refine .bind (P := fun _ r₂ => r₂.Valid ∧ Opens owner ids r r₂)
    ⟨hscope.valid, hopens.sound, { hopens.frame with }, hopens.above⟩ ?_
  rintro _ r₂ ⟨hr₂, hopens⟩
  refine .bind (ends_boundLoop (parameters.zip ids) hr₂ hopens.sound
    hopens.frame.revised.size_le ?_) ?_
  · exact fun x hx => hopens.above x.2 (List.of_mem_zip hx).2
  · rintro _ r₃ ⟨hs₃, hframe₃⟩
    refine ⟨hs₃, hopens.frame.trans (hframe₃.mono (Nat.le_refl _) ?_), hopens.above⟩
    exact fun _ _ h => h.elim

end Resolve

/-! ### Variables that stay listed -/

namespace Environment

variable {e e' : Environment} {owner : VariableOwner} {id : TypeId}

theorem Lists.later (h : e.Lists owner id)
    (htypes : ∀ (i : TypeId) (t : TypeBinding), e.types[i]? = some t → owner = .type i →
      e'.types[i]? = some t)
    (hmethods : ∀ (i : MethodId) (m : MethodBinding), e.methods[i]? = some m →
      e'.methods[i]? = some m) : e'.Lists owner id := by
  cases owner with
  | type i =>
      obtain ⟨t, r, ht, hr, hid⟩ := h
      exact ⟨t, r, htypes i t ht rfl, hr, hid⟩
  | method i =>
      obtain ⟨m, hm, hid⟩ := h
      exact ⟨m, hmethods i m hm, hid⟩

variable {change : TypeBinding → TypeBinding} {target : TypeId}

theorem types_updateType_of_ne (h : id ≠ target) :
    (e.updateType target change).types[id]? = e.types[id]? := by
  rw [updateType]
  dsimp only
  rw [Array.getElem?_modify, if_neg (Ne.symm h)]

theorem types_updateType_self {t : TypeBinding} (h : e.types[id]? = some t) :
    (e.updateType id change).types[id]? = some (change t) := by
  rw [updateType]
  dsimp only
  rw [Array.getElem?_modify, if_pos rfl, h]
  rfl

end Environment

namespace Resolver.Frame

variable {fresh : VariableOwner → TypeId → Prop} {r r' : Resolver}

theorem old_of_some (h : Frame r.env.types.size fresh r r') {id : TypeId} {t : TypeBinding}
    (ht : r.env.types[id]? = some t) : r'.env.types[id]? = some t :=
  (h.old id (Array.getElem?_eq_some_iff.mp ht).1).trans ht

/-- A type variable was listed before, or it is a fresh one. -/
theorem listed_or_fresh (h : Frame r.env.types.size fresh r r') (hlisted : r.env.Listed)
    {id : TypeId} {v : VariableType} (hv : r'.env.types[id]? = some (.typeVariable v)) :
    ∃ owner, v.declaring = some owner ∧ (r.env.Lists owner id ∨ fresh owner id) := by
  rcases h.typeVariables id v hv with ⟨v', hv', hsame⟩ | ⟨owner, howner, hfresh⟩
  · obtain ⟨owner, howner, hlists⟩ := hlisted id v' hv'
    exact ⟨owner, hsame.trans howner, .inl hlists⟩
  · exact ⟨owner, howner, .inr hfresh⟩

theorem listed (h : Frame r.env.types.size Resolve.NoFresh r r') (hlisted : r.env.Listed) :
    r'.env.Listed := by
  intro id v hv
  obtain ⟨owner, howner, hlists | hfresh⟩ := h.listed_or_fresh hlisted hv
  · refine ⟨owner, howner, hlists.later (fun i t ht _ => h.old_of_some ht) fun i m hm => ?_⟩
    rwa [h.methods]
  · exact hfresh.elim

end Resolver.Frame

namespace Resolve

variable {α β γ : Type} {r r' : Resolver} {owner : TypeId} {package : List String}

/-! ### Members -/

/-- From one moment to a later one members of declared types were resolved, with these headings. -/
structure Adds (fields methods : List (Option TypeId × String × Modifiers)) (r r' : Resolver) :
    Prop where
  valid : r'.Valid
  sound : r'.env.Sound
  pending : r'.pending = r.pending
  locals : r'.env.locals = r.env.locals
  revised : r.env.Revised r'.env
  old : ∀ id < r.env.types.size, r'.env.types[id]? = r.env.types[id]?
  fields : r'.env.fields.toList.map FieldBinding.heading =
    r.env.fields.toList.map FieldBinding.heading ++ fields
  methods : r'.env.methods.toList.map MethodBinding.heading =
    r.env.methods.toList.map MethodBinding.heading ++ methods
  listed : r.env.Listed → r'.env.Listed

theorem Adds.refl (hr : r.Valid) (hs : r.env.Sound) : Adds [] [] r r where
  valid := hr
  sound := hs
  pending := rfl
  locals := rfl
  revised := .refl _
  old _ _ := rfl
  fields := (List.append_nil _).symm
  methods := (List.append_nil _).symm
  listed h := h

theorem Adds.trans {r'' : Resolver} {fields fields' : List (Option TypeId × String × Modifiers)}
    {methods methods' : List (Option TypeId × String × Modifiers)}
    (h : Adds fields methods r r') (h' : Adds fields' methods' r' r'') :
    Adds (fields ++ fields') (methods ++ methods') r r'' where
  valid := h'.valid
  sound := h'.sound
  pending := h'.pending.trans h.pending
  locals := h'.locals.trans h.locals
  revised := h.revised.trans h'.revised
  old id hid := (h'.old id (h.revised.lt hid)).trans (h.old id hid)
  fields := by rw [h'.fields, h.fields, List.append_assoc]
  methods := by rw [h'.methods, h.methods, List.append_assoc]
  listed hlisted := h'.listed (h.listed hlisted)

/-- The headings of steps come one after the other. -/
theorem adds_forM {step : γ → Resolve Unit}
    (fields methods : γ → List (Option TypeId × String × Modifiers))
    (hstep : ∀ x r, r.Valid → r.env.Sound → IsType owner r.env →
      Adds (fields x) (methods x) r (step x r).2) (xs : List γ) (hr : r.Valid) (hs : r.env.Sound)
    (howner : IsType owner r.env) :
    Ends r (xs.forM step) fun _ r' => Adds (xs.flatMap fields) (xs.flatMap methods) r r' := by
  induction xs generalizing r with
  | nil => exact .refl hr hs
  | cons x xs ih =>
      have hhead := hstep x r hr hs howner
      exact hhead.trans (ih hhead.valid hhead.sound (hhead.revised.lt howner))

theorem adds_resolveField (f : FieldDecl) (hr : r.Valid) (hs : r.env.Sound)
    (howner : IsType owner r.env) :
    Adds [(some owner, f.name, f.modifiers)] [] r (resolveField owner f r).2 := by
  have hmakes := makes_resolveType f.type r hr hs
  exact {
    valid := (gives_resolveField f hr howner).valid
    sound := hmakes.sound.withMethods rfl (Nat.le_refl _)
    pending := hmakes.frame.pending
    locals := hmakes.frame.locals
    revised := hmakes.frame.revised
    old := hmakes.frame.old
    fields := by
      rw [← hmakes.frame.fields]
      change (Array.push _ _).toList.map _ = _
      rw [Array.toList_push, List.map_append]
      rfl
    methods := by
      rw [List.append_nil, ← hmakes.frame.methods]
      rfl
    listed := fun hlisted => hmakes.frame.listed hlisted }

theorem modify_push_size {δ : Type} (xs : Array δ) (x : δ) (change : δ → δ) :
    (xs.push x).modify xs.size change = xs.push (change x) := by
  apply Array.ext_getElem?
  intro i
  rw [Array.getElem?_modify, Array.getElem?_push, Array.getElem?_push]
  by_cases hi : i = xs.size
  · simp [hi]
  · rw [if_neg (Ne.symm hi), if_neg hi, if_neg hi]

theorem adds_resolveMethod (m : MethodDecl) (hr : r.Valid) (hs : r.env.Sound)
    (howner : IsType owner r.env) :
    Adds [] [(some owner, m.selector, m.modifiers)] r (resolveMethod owner m r).2 := by
  have hvalid := (gives_resolveMethod m hr howner).valid
  let blank : MethodBinding :=
    { selector := m.selector, modifiers := m.modifiers, declaringClass := some owner }
  have hblank : AreTypes blank.components r.env := by
    simp [blank, AreTypes, MethodBinding.components, howner]
  have hadd := gives_addMethod hr hblank
  suffices hends : Ends r (resolveMethod owner m) fun _ r' => r'.Valid →
      Adds [] [(some owner, m.selector, m.modifiers)] r r' from hends hvalid
  refine .bind (a := addMethod blank) (P := fun id r₁ => r₁.Valid ∧
    r₁.env.HasOwner (.method id) ∧ id = r.env.methods.size ∧
      r₁ = { r with env := (r.env.addMethod blank).2 }) ⟨hadd.valid, hadd.result, rfl, rfl⟩ ?_
  rintro id r₁ ⟨hr₁, hid, hsize, heq⟩
  have hmethods₁ : r₁.env.methods = r.env.methods.push blank := by rw [heq]; rfl
  have htypes₁ : r₁.env.types = r.env.types := by rw [heq]; rfl
  have hs₁ : r₁.env.Sound := hs.withMethods htypes₁ (by simp [hmethods₁])
  refine .bind (opens_bindTypeParameters _ hr₁ hs₁ hid) ?_
  rintro ids r₂ ⟨hr₂, _, hopens⟩
  refine .bind ((makes_resolveOptional m.returnType hr₂ hopens.sound).ends
    (gives_resolveOptional m.returnType hr₂)) ?_
  rintro returnType r₃ ⟨hr₃, hs₃, hframe₃, _⟩
  refine .bind ((makes_mapM gives_resolveParameter makes_resolveParameter m.parameters hr₃ hs₃).ends
    (gives_mapM gives_resolveParameter m.parameters hr₃)) ?_
  rintro parameters r₄ ⟨hr₄, hs₄, hframe₄, _⟩
  refine .bind ((makes_resolveTypes m.throws hr₄ hs₄).ends
    (gives_mapM gives_resolveType m.throws hr₄)) ?_
  rintro throws r₅ ⟨hr₅, hs₅, hframe₅, _⟩
  -- from here on only the scope and the method itself change
  have hframe : Resolver.Frame r₁.env.types.size (fun o x => o = .method id ∧ x ∈ ids) r₁ r₅ := by
    have hle₂ := hopens.frame.revised.size_le
    have hle₃ := hle₂.trans hframe₃.revised.size_le
    have hle₄ := hle₃.trans hframe₄.revised.size_le
    refine ((hopens.frame.trans (hframe₃.mono hle₂ ?_)).trans (hframe₄.mono hle₃ ?_)).trans
      (hframe₅.mono hle₄ ?_) <;> exact fun _ _ h => h.elim
  refine .bind (P := fun _ r₆ => r₆.pending = r₅.pending ∧ r₆.env = r₅.env) ⟨rfl, rfl⟩ ?_
  rintro _ r₆ ⟨hpending₆, henv₆⟩ hvalid
  let filled : MethodBinding := { blank with returnType, parameters, throws, typeVariables := ids }
  have hmethods : (r₆.env.updateMethod id fun binding =>
      { binding with returnType, parameters, throws, typeVariables := ids }).methods =
        r.env.methods.push filled := by
    rw [Environment.updateMethod]
    dsimp only
    rw [henv₆, hframe.methods, hmethods₁, hsize]
    exact modify_push_size _ _ _
  exact {
    valid := hvalid
    sound := hs₅.withMethods (by rw [← henv₆]; rfl) (by
      rw [← henv₆]
      exact Nat.le_of_eq (Array.size_modify).symm)
    pending := by
      change r₆.pending = _
      rw [hpending₆, hframe.pending, heq]
    locals := by
      change r₆.env.locals = _
      rw [henv₆, hframe.locals, heq]
      rfl
    revised := by
      have hrevised := hframe.revised
      rw [heq, ← henv₆] at hrevised
      exact hrevised
    old := by
      have hold := hframe.old
      rw [heq, ← henv₆] at hold
      exact hold
    fields := by
      change r₆.env.fields.toList.map _ = _
      rw [henv₆, hframe.fields, heq, List.append_nil]
      rfl
    methods := by
      change (Environment.updateMethod _ _ _).methods.toList.map _ = _
      rw [hmethods, Array.toList_push, List.map_append]
      rfl
    listed := by
      intro hlisted x v hv
      change r₆.env.types[x]? = _ at hv
      rw [henv₆] at hv
      rcases hframe.typeVariables x v hv with ⟨v', hv', hsame⟩ | ⟨o, ho, rfl, hmem⟩
      · rw [htypes₁] at hv'
        obtain ⟨o, ho, hlists⟩ := hlisted x v' hv'
        refine ⟨o, hsame.trans ho, hlists.later (fun i t ht _ => ?_) fun i b hb => ?_⟩
        · change r₆.env.types[i]? = _
          rw [henv₆]
          exact hframe.old_of_some (by rwa [htypes₁])
        · have hi := (Array.getElem?_eq_some_iff.mp hb).1
          change (Environment.updateMethod _ _ _).methods[i]? = _
          rw [hmethods, Array.getElem?_push_lt hi, ← hb, Array.getElem?_eq_getElem hi]
      · refine ⟨_, ho, filled, ?_, hmem⟩
        change (Environment.updateMethod _ _ _).methods[id]? = _
        rw [hmethods, hsize]
        exact Array.getElem?_push_size }

/-! ### The second pass -/

/-- Between two types of the second pass: the bindings of the types that are done and of those that
are still to be done stand at their numbers, the latter as they were made, and the fields and
methods so far are those of the types that are done. -/
structure Progress (package : List String) (done todo : List (List String × TypeDecl))
    (r : Resolver) : Prop where
  valid : r.Valid
  sound : r.env.Sound
  listed : r.env.Listed
  pending : r.pending = List.range' done.length todo.length
  locals : r.env.locals = #[]
  declared : ∀ (i : Nat) (path : List String) (t : TypeDecl), (done ++ todo)[i]? = some (path, t) →
    ∃ b, r.env.types[i]? = some b ∧ b.bare = declaration package (package ++ path) t
  untouched : ∀ (i : Nat) (path : List String) (t : TypeDecl), todo[i]? = some (path, t) →
    r.env.types[done.length + i]? = some (declaration package (package ++ path) t)
  fields : r.env.fields.toList.map FieldBinding.heading = fieldHeadings done
  methods : r.env.methods.toList.map MethodBinding.heading = methodHeadings done

theorem fieldHeadings_append (done : List (List String × TypeDecl)) (path : List String)
    (t : TypeDecl) : fieldHeadings (done ++ [(path, t)]) =
      fieldHeadings done ++ t.fields.map fun f => (some done.length, f.name, f.modifiers) := by
  simp [fieldHeadings, List.zipIdx_append]

theorem methodHeadings_append (done : List (List String × TypeDecl)) (path : List String)
    (t : TypeDecl) : methodHeadings (done ++ [(path, t)]) =
      methodHeadings done ++
        t.methods.map fun m => (some done.length, m.selector, m.modifiers) := by
  simp [methodHeadings, List.zipIdx_append]

theorem isVariable_of_revised {e e' : Environment} {id : TypeId} (h : e.IsVariable id)
    (he : e.Revised e') : e'.IsVariable id := by
  obtain ⟨v, hv⟩ := h
  obtain ⟨t', ht', hbare⟩ := he id _ hv
  obtain ⟨v', rfl, _⟩ := TypeBinding.declaring_of_bare hbare.symm
  exact ⟨v', ht'⟩

/-- A declared type is given its supertypes and type variables, and nothing else of it changes. -/
theorem setSupertypes_eq (id : TypeId) (superclass : Option TypeId)
    (interfaces typeVariables : List TypeId) (r : Resolver) :
    ∃ change, (setSupertypes id superclass interfaces typeVariables r).2 =
        { r with env := r.env.updateType id change } ∧
      (∀ t : TypeBinding, (change t).bare = t.bare) ∧
      (∀ t, IsOptional superclass r.env → AreTypes interfaces r.env →
        AreTypes typeVariables r.env → r.env.Fits t → r.env.Fits (change t)) ∧
      ∀ t b, t.declared? = some b →
        ∃ b', (change t).declared? = some b' ∧ b'.typeVariables = typeVariables := by
  have hfits : ∀ b : ReferenceBinding, IsOptional superclass r.env → AreTypes interfaces r.env →
      AreTypes typeVariables r.env →
      ∀ x ∈ ReferenceBinding.typeIds { b with superclass, interfaces, typeVariables },
        x < r.env.types.size := by
    intro b hsuperclass hinterfaces hvariables x hx
    simp only [ReferenceBinding.typeIds, List.mem_append, Option.mem_toList] at hx
    rcases hx with (hx | hx) | hx
    · exact hsuperclass x hx
    · exact hinterfaces x hx
    · exact hvariables x hx
  refine ⟨_, rfl, fun t => ?_, fun t hsuperclass hinterfaces hvariables ht => ?_, fun t b hb => ?_⟩
  · split <;> rfl
  · split
    · exact fits_of_typeIds rfl rfl (hfits _ hsuperclass hinterfaces hvariables)
    · exact fits_of_typeIds rfl rfl (hfits _ hsuperclass hinterfaces hvariables)
    · exact ht
  · cases t with
    | generic | reference => exact ⟨_, rfl, rfl⟩
    | _ => cases hb

theorem declared?_declaration (package name : List String) (t : TypeDecl) :
    ∃ b, (declaration package name t).declared? = some b ∧ b.typeVariables = [] := by
  unfold declaration
  dsimp only
  split <;> exact ⟨_, rfl, rfl⟩

/-- The type variables of a declared type are listed once they are given to it. -/
theorem listed_updateType {id : TypeId} {ids : List TypeId} {t : TypeBinding} {b : ReferenceBinding}
    {change : TypeBinding → TypeBinding}
    (hframe : Resolver.Frame r.env.types.size (fun o x => o = .type id ∧ x ∈ ids) r r')
    (hlisted : r.env.Listed) (htype : r.env.types[id]? = some t) (hb : t.declared? = some b)
    (hnone : b.typeVariables = []) (hbare : ∀ t : TypeBinding, (change t).bare = t.bare)
    (hdeclared : ∃ b', (change t).declared? = some b' ∧ b'.typeVariables = ids) :
    (r'.env.updateType id change).Listed := by
  have hupdate : Resolver.Frame id NoFresh r' { r' with env := r'.env.updateType id change } :=
    .updateType (Nat.le_refl id) hbare
  intro x v hv
  obtain ⟨v', hv', hsame⟩ : ∃ v', r'.env.types[x]? = some (.typeVariable v') ∧
      v.declaring = v'.declaring := by
    rcases hupdate.typeVariables x v hv with hold | ⟨_, _, hfresh⟩
    · exact hold
    · exact hfresh.elim
  obtain ⟨owner, howner, hlists | ⟨rfl, hmem⟩⟩ := hframe.listed_or_fresh hlisted hv'
  · -- the type itself had no type variables before
    have hne : owner ≠ .type id := by
      rintro rfl
      obtain ⟨t', b', ht', hb', hmem⟩ := hlists
      cases htype.symm.trans ht'
      cases hb.symm.trans hb'
      rw [hnone] at hmem
      cases hmem
    refine ⟨owner, hsame.trans howner, hlists.later (fun i t' ht' hi => ?_) fun i m hm => ?_⟩
    · rw [Environment.types_updateType_of_ne fun h => hne (by rw [hi, h])]
      exact hframe.old_of_some ht'
    · exact (congrArg (fun methods => methods[i]?) hframe.methods).trans hm
  · obtain ⟨b', hb', rfl⟩ := hdeclared
    exact ⟨.type id, hsame.trans howner, _, b',
      Environment.types_updateType_self (hframe.old_of_some htype), hb', hmem⟩

/-- Resolving a declared type takes it from what is to be done to what is done. -/
theorem progress_resolveHeader {done todo : List (List String × TypeDecl)} {path : List String}
    {t : TypeDecl} (h : Progress package done ((path, t) :: todo) r) :
    Ends { r with pending := r.pending.tail } (resolveHeader done.length t) fun _ r' =>
      Progress package (done ++ [(path, t)]) todo r' := by
  have htype : r.env.types[done.length]? = some (declaration package (package ++ path) t) :=
    h.untouched 0 path t rfl
  obtain ⟨b, hb, hnone⟩ := declared?_declaration package (package ++ path) t
  have hpending := gives_nextPending? h.valid
  refine Ends.bind (opens_bindTypeParameters (.type done.length) hpending.valid h.sound
    (isType_of_getElem? htype)) ?_
  rintro ids r₁ ⟨hvalid₁, hids, hopens⟩
  refine .bind ((makes_resolveOptional t.superclass hvalid₁ hopens.sound).ends
    (gives_resolveOptional t.superclass hvalid₁)) ?_
  rintro superclass r₂ ⟨hvalid₂, hsound₂, hframe₂, hsuperclass⟩
  refine .bind ((makes_resolveTypes t.interfaces hvalid₂ hsound₂).ends
    (gives_mapM gives_resolveType t.interfaces hvalid₂)) ?_
  rintro interfaces r₃ ⟨hvalid₃, hsound₃, hframe₃, hinterfaces⟩
  have hframe : Resolver.Frame r.env.types.size (fun o x => o = .type done.length ∧ x ∈ ids)
      { r with pending := r.pending.tail } r₃ := by
    have hle₁ := hopens.frame.revised.size_le
    have hle₂ := hle₁.trans hframe₂.revised.size_le
    refine (hopens.frame.trans (hframe₂.mono hle₁ ?_)).trans (hframe₃.mono hle₂ ?_) <;>
      exact fun _ _ h => h.elim
  have hvariables : AreVariables ids r₃.env := fun x hx =>
    isVariable_of_revised (hids x hx) (hframe₂.revised.trans hframe₃.revised)
  obtain ⟨change, heq, hbare, hfits, hdeclared⟩ :=
    setSupertypes_eq done.length superclass interfaces ids r₃
  have hgives₄ : Gives r₃ (setSupertypes done.length superclass interfaces ids) fun _ _ => True :=
    gives_setSupertypes hvalid₃ hvariables
  have hvalid₄ := hgives₄.valid
  rw [heq] at hvalid₄
  have hsound₄ : (r₃.env.updateType done.length change).Sound :=
    Environment.sound_updateType hsound₃ hbare fun t => hfits t
      (fun x hx => hframe₃.revised.lt (hsuperclass x hx)) hinterfaces
      fun x hx => (hvariables x hx).lt
  have hlisted₄ : (r₃.env.updateType done.length change).Listed :=
    listed_updateType (r := { r with pending := r.pending.tail }) hframe h.listed htype hb hnone
      hbare (hdeclared _ b hb)
  have hrevised₄ : r.env.Revised (r₃.env.updateType done.length change) :=
    hframe.revised.trans (Environment.revised_updateType hbare)
  refine .bind (P := fun _ r₄ => r₄ = { r₃ with env := r₃.env.updateType done.length change })
    heq ?_
  rintro _ r₄ rfl
  have howner₄ : IsType done.length (r₃.env.updateType done.length change) :=
    hrevised₄.lt (isType_of_getElem? htype)
  refine .bind (adds_forM _ (fun _ => []) (fun f r => adds_resolveField f) t.fields
    hvalid₄ hsound₄ howner₄) ?_
  rintro _ r₅ hfields
  refine .mono (adds_forM (fun _ => []) _ (fun m r => adds_resolveMethod m) t.methods
    hfields.valid hfields.sound (hfields.revised.lt howner₄)) ?_
  rintro _ r₆ hmethods
  have hadds := hfields.trans hmethods
  exact {
    valid := hadds.valid
    sound := hadds.sound
    listed := hadds.listed hlisted₄
    pending := by
      rw [hadds.pending, hframe.pending, h.pending]
      simp [List.range'_succ]
    locals := hadds.locals.trans (hframe.locals.trans h.locals)
    declared := fun i path' t' hi => by
      rw [List.append_assoc] at hi
      obtain ⟨b, hb, hdeclaration⟩ := h.declared i path' t' hi
      obtain ⟨b', hb', hbare'⟩ := (hrevised₄.trans hadds.revised) i b hb
      exact ⟨b', hb', hbare'.trans hdeclaration⟩
    untouched := fun i path' t' hi => by
      have hold := h.untouched (i + 1) path' t' hi
      have hne : done.length + (i + 1) ≠ done.length := by omega
      rw [List.length_append, List.length_singleton, Nat.add_assoc, Nat.add_comm 1 i,
        hadds.old _ (hrevised₄.lt (isType_of_getElem? hold)),
        Environment.types_updateType_of_ne hne]
      exact hframe.old_of_some (r := { r with pending := r.pending.tail }) hold
    fields := by
      rw [hadds.fields, fieldHeadings_append, ← h.fields]
      simp [hframe.fields, Environment.updateType, ← List.map_eq_flatMap]
    methods := by
      rw [hadds.methods, methodHeadings_append, ← h.methods]
      simp [hframe.methods, Environment.updateType, ← List.map_eq_flatMap] }

theorem ends_nextPending? {done todo : List (List String × TypeDecl)}
    {entry : List String × TypeDecl} (h : Progress package done (entry :: todo) r) :
    Ends r nextPending? fun next r' =>
      next = some done.length ∧ r' = { r with pending := r.pending.tail } := by
  refine ⟨?_, rfl⟩
  change r.pending.head? = _
  rw [h.pending]
  rfl

theorem Progress.closeScope {done todo : List (List String × TypeDecl)}
    (h : Progress package done todo r) :
    Ends r closeScope fun _ r' => Progress package done todo r' :=
  { h with valid := (gives_closeScope h.valid).valid }

mutual

theorem progress_resolveAll : (t : TypeDecl) → (outer : List String) →
    (done todo : List (List String × TypeDecl)) → (r : Resolver) →
      Progress package done (t.declarations outer ++ todo) r →
        Ends r (resolveAll t) fun _ r' => Progress package (done ++ t.declarations outer) todo r'
  | ⟨_, name, _, _, _, _, _, members, _, _, _, _⟩, outer, done, todo, r, h => by
    unfold TypeDecl.declarations at h ⊢
    unfold resolveAll
    refine .bind (ends_nextPending? h) ?_
    rintro _ r₁ ⟨rfl, rfl⟩
    refine .bind (progress_resolveHeader h) ?_
    rintro _ r₂ h₂
    refine .bind (progress_resolveMembers members (outer ++ [name]) _ todo r₂ h₂) ?_
    rintro _ r₃ h₃
    rw [List.append_assoc] at h₃
    exact h₃.closeScope

theorem progress_resolveMembers : (members : List Member) → (outer : List String) →
    (done todo : List (List String × TypeDecl)) → (r : Resolver) →
      Progress package done (Member.declarations outer members ++ todo) r →
        Ends r (resolveMembers members) fun _ r' =>
          Progress package (done ++ Member.declarations outer members) todo r'
  | [], outer, done, todo, r, h => by
    unfold Member.declarations at h ⊢
    unfold resolveMembers
    rw [List.append_nil]
    exact h
  | .type t :: rest, outer, done, todo, r, h => by
    unfold Member.declarations at h ⊢
    unfold resolveMembers
    rw [List.append_assoc] at h
    refine .bind (progress_resolveAll t outer done _ r h) ?_
    rintro _ r₁ h₁
    rw [← List.append_assoc]
    exact progress_resolveMembers rest outer _ todo r₁ h₁
  | .field _ :: rest, outer, done, todo, r, h => by
    unfold Member.declarations at h ⊢
    unfold resolveMembers
    exact progress_resolveMembers rest outer done todo r h
  | .method _ :: rest, outer, done, todo, r, h => by
    unfold Member.declarations at h ⊢
    unfold resolveMembers
    exact progress_resolveMembers rest outer done todo r h
  | .initializer _ :: rest, outer, done, todo, r, h => by
    unfold Member.declarations at h ⊢
    unfold resolveMembers
    exact progress_resolveMembers rest outer done todo r h

end

theorem progress_forM (types : List TypeDecl) (done todo : List (List String × TypeDecl))
    (h : Progress package done (types.flatMap (TypeDecl.declarations []) ++ todo) r) :
    Ends r (types.forM resolveAll) fun _ r' =>
      Progress package (done ++ types.flatMap (TypeDecl.declarations [])) todo r' := by
  induction types generalizing done r with
  | nil =>
      rw [List.flatMap_nil, List.append_nil]
      exact h
  | cons t types ih =>
      rw [List.flatMap_cons, List.append_assoc] at h
      refine .bind (progress_resolveAll t [] done _ r h) ?_
      rintro _ r₁ h₁
      rw [List.flatMap_cons, ← List.append_assoc]
      exact ih _ h₁

/-! ### A whole unit -/

theorem fits_declaration {name : List String} {t : TypeDecl} {e : Environment} :
    e.Fits (declaration package name t) := by
  unfold declaration
  dsimp only
  split <;> exact fits_of_typeIds rfl rfl fun x hx => by cases hx

theorem declaration_ne_typeVariable {name : List String} {t : TypeDecl} {v : VariableType} :
    declaration package name t ≠ .typeVariable v := by
  unfold declaration
  dsimp only
  split <;> exact fun h => by cases h

/-- After the first pass all is still to be done. -/
theorem Declared.progress {start : Resolver} {entries : List (List String × TypeDecl)}
    (h : Declared package entries start r) (hr : r.Valid) (hstart : start.env = {})
    (hpending : start.pending = []) : Progress package [] entries r := by
  have htypes : r.env.types.toList =
      entries.map fun x => declaration package (package ++ x.1) x.2 := by
    rw [h.types, hstart]
    rfl
  have hget : ∀ (i : Nat) (path : List String) (t : TypeDecl), entries[i]? = some (path, t) →
      r.env.types[i]? = some (declaration package (package ++ path) t) := by
    intro i path t hi
    rw [← Array.getElem?_toList, htypes, List.getElem?_map, hi]
    rfl
  have hmem : ∀ (id : TypeId) (b : TypeBinding), r.env.types[id]? = some b →
      ∃ path t, b = declaration package (package ++ path) t := by
    intro id b hb
    rw [← Array.getElem?_toList, htypes, List.getElem?_map] at hb
    obtain ⟨entry, _, rfl⟩ := Option.map_eq_some_iff.mp hb
    exact ⟨_, _, rfl⟩
  exact {
    valid := hr
    sound := fun id b hb => by
      obtain ⟨path, t, rfl⟩ := hmem id b hb
      exact fits_declaration
    listed := fun id v hv => by
      obtain ⟨path, t, hv⟩ := hmem id _ hv
      exact absurd hv.symm declaration_ne_typeVariable
    pending := by
      rw [h.pending, hpending, hstart]
      rfl
    locals := by
      rw [h.locals, hstart]
    declared := fun i path t hi => ⟨_, hget i path t hi, by
      unfold declaration
      dsimp only
      split <;> rfl⟩
    untouched := fun i path t hi => by
      rw [List.length_nil, Nat.zero_add]
      exact hget i path t hi
    fields := by
      rw [h.fields, hstart]
      rfl
    methods := by
      rw [h.methods, hstart]
      rfl }

theorem declares_declaration {path : List String} {t : TypeDecl} :
    (declaration package (package ++ path) t).Declares package path t := by
  unfold declaration
  dsimp only
  rw [List.drop_left]
  split
  · rename_i hnone
    exact ⟨by rw [hnone]; rfl, _, rfl, rfl, rfl⟩
  · rename_i hsome
    exact ⟨by rw [Bool.eq_false_iff.mpr hsome]; rfl, _, rfl, rfl, rfl⟩

/-- What a declared type is given later does not change its names or whether it is generic. -/
theorem declares_of_bare {path : List String} {t : TypeDecl} {b : TypeBinding}
    (h : b.bare.Declares package path t) : b.Declares package path t := by
  obtain ⟨hgeneric, r, hr, hname, hpool⟩ := h
  cases b with
  | generic | reference =>
      cases hr
      exact ⟨hgeneric, _, rfl, hname, hpool⟩
  | _ => cases hr

end Resolve

/-- **Resolving a unit builds an arena of its declared types and of what they name.** -/
theorem CompilationUnit.resolve_isArena (unit : CompilationUnit) : unit.resolve.IsArena unit := by
  let start : Resolver := {
    package := unit.packageWords
    imported := Resolve.singleImports unit }
  have hstart : start.Valid :=
    ⟨Environment.grounded_empty, Environment.linked_empty, by simp [start], by simp [start],
      by simp [start], by simp [start]⟩
  have hvalid := (Resolve.gives_forM
    (fun t r hr _ => Resolve.gives_declareAll t unit.packageWords r hr) unit.types hstart
    (.refl _)).valid
  have hdeclared : Resolve.Declared unit.packageWords unit.declarations start _ :=
    Resolve.declares_forM unit.types rfl
  have hfirst := hdeclared.progress hvalid rfl rfl
  rw [← List.append_nil unit.declarations] at hfirst
  have hsecond := Resolve.progress_forM unit.types [] [] hfirst
  obtain ⟨r, hr, henv⟩ : ∃ r, Resolve.Progress unit.packageWords unit.declarations [] r ∧
      r.env = unit.resolve := ⟨_, hsecond, rfl⟩
  rw [← henv]
  exact {
    declared := fun i path t hi => by
      rw [← List.append_nil unit.declarations] at hi
      obtain ⟨b, hb, hbare⟩ := hr.declared i path t hi
      exact ⟨b, hb, Resolve.declares_of_bare (hbare ▸ Resolve.declares_declaration)⟩
    fields := hr.fields
    methods := hr.methods
    inRange := {
      types := fun t ht => by
        obtain ⟨id, hid⟩ := Array.mem_iff_getElem?.mp ht
        exact (hr.sound id t hid).types
      owners := fun t ht => by
        obtain ⟨id, hid⟩ := Array.mem_iff_getElem?.mp ht
        exact (hr.sound id t hid).methods
      methods := fun m hm => by
        obtain ⟨id, hid⟩ := Array.mem_iff_getElem?.mp hm
        exact hr.valid.linked.methods id m hid
      fields := fun f hf => by
        obtain ⟨id, hid⟩ := Array.mem_iff_getElem?.mp hf
        exact hr.valid.linked.fields id f hid
      locals := fun v hv => by
        rw [hr.locals] at hv
        exact absurd hv (Array.not_mem_empty v) }
    arrays := fun leaf dims ht => by
      obtain ⟨id, hid⟩ := Array.mem_iff_getElem?.mp ht
      exact (hr.sound id _ hid).array leaf dims rfl
    listed := hr.listed
    cycles := fun _ _ => hr.valid.grounded.cycle_has_variable }

end AspectLang
