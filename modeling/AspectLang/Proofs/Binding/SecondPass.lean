import AspectLang.Proofs.Binding.Scopes

/-! # The second pass, one type after the other

The second pass resolves the header of each declared type inside the scope that its type parameters
open, then the types among its members, and closes the scope.  So what holds at a site for the types
that are done is carried through the whole pass if the header of a type carries it into the type
(`Resolve.Carried`). -/

namespace AspectLang.Resolve

variable {unit : CompilationUnit} {inv : Site → List (Site × TypeDecl) → Resolver → Prop}
  {r : Resolver}

/-- The header of a type carries a property of a site and the types that are done from around the type
into it, and closing the scope carries it out again. -/
structure Carried (unit : CompilationUnit) (inv : Site → List (Site × TypeDecl) → Resolver → Prop) :
    Prop where
  header : ∀ {outer : Site} {done : List (Site × TypeDecl)} {todo : List (List String × TypeDecl)}
    {t : TypeDecl} {r : Resolver}, Progress unit.packageWords (done.map Site.entry)
      ((outer.path ++ [t.name], t) :: todo) r → inv outer done r →
        Ends { r with pending := r.pending.tail } (resolveHeader done.length t) fun _ r' =>
          r'.scopes.tail = r.scopes ∧ inv (outer.within t.name t.typeParameters)
            (done ++ [(outer.within t.name t.typeParameters, t)]) r'
  close : ∀ {outer inner : Site} {done done' : List (Site × TypeDecl)} {r r' : Resolver},
    inv outer done r → inv inner done' r' → r'.scopes.tail = r.scopes →
      inv outer done' { r' with scopes := r'.scopes.tail }

mutual

theorem Carried.resolveAll (h : Carried unit inv) : (t : TypeDecl) → (outer : Site) →
    (done : List (Site × TypeDecl)) → (todo : List (List String × TypeDecl)) → (r : Resolver) →
      Progress unit.packageWords (done.map Site.entry) (t.declarations outer.path ++ todo) r →
        inv outer done r →
          Ends r (resolveAll t) fun _ r' => r'.scopes = r.scopes ∧ inv outer (done ++ t.sites outer) r'
  | ⟨_, name, _, _, parameters, _, _, members, _, _, _, _⟩, outer, done, todo, r, hprogress, hr => by
    unfold TypeDecl.declarations at hprogress
    unfold Resolve.resolveAll TypeDecl.sites
    refine .bind (ends_nextPending? hprogress) ?_
    rintro _ r₁ ⟨rfl, rfl⟩
    have hheader := progress_resolveHeader hprogress
    rw [List.length_map] at hheader ⊢
    refine .bind (hheader.and (h.header hprogress hr)) ?_
    rintro _ r₂ ⟨h₂, hscopes₂, hr₂⟩
    refine .bind (h.resolveMembers members (outer.within name parameters) _ todo r₂
      (by rw [List.map_append]; exact h₂) hr₂) ?_
    rintro _ r₃ ⟨hscopes₃, hr₃⟩
    have hscopes : r₃.scopes.tail = r.scopes := by
      rw [hscopes₃]
      exact hscopes₂
    rw [List.append_assoc] at hr₃
    exact ⟨hscopes, h.close hr hr₃ hscopes⟩

theorem Carried.resolveMembers (h : Carried unit inv) : (members : List Member) → (outer : Site) →
    (done : List (Site × TypeDecl)) → (todo : List (List String × TypeDecl)) → (r : Resolver) →
      Progress unit.packageWords (done.map Site.entry)
        (Member.declarations outer.path members ++ todo) r → inv outer done r →
          Ends r (resolveMembers members) fun _ r' =>
            r'.scopes = r.scopes ∧ inv outer (done ++ Member.sites outer members) r'
  | [], outer, done, todo, r, hprogress, hr => by
    unfold Resolve.resolveMembers Member.sites
    rw [List.append_nil]
    exact ⟨rfl, hr⟩
  | .type t :: rest, outer, done, todo, r, hprogress, hr => by
    unfold Member.declarations at hprogress
    unfold Resolve.resolveMembers Member.sites
    rw [List.append_assoc] at hprogress
    refine .bind ((progress_resolveAll t outer.path _ _ r hprogress).and
      (h.resolveAll t outer done _ r hprogress hr)) ?_
    rintro _ r₁ ⟨h₁, hscopes₁, hr₁⟩
    rw [← t.entries_sites, ← List.map_append] at h₁
    have hrest := h.resolveMembers rest outer _ todo r₁ h₁ hr₁
    rw [List.append_assoc] at hrest
    exact ⟨hrest.1.trans hscopes₁, hrest.2⟩
  | .field _ :: rest, outer, done, todo, r, hprogress, hr => by
    unfold Member.declarations at hprogress
    unfold Resolve.resolveMembers Member.sites
    exact h.resolveMembers rest outer done todo r hprogress hr
  | .method _ :: rest, outer, done, todo, r, hprogress, hr => by
    unfold Member.declarations at hprogress
    unfold Resolve.resolveMembers Member.sites
    exact h.resolveMembers rest outer done todo r hprogress hr
  | .initializer _ :: rest, outer, done, todo, r, hprogress, hr => by
    unfold Member.declarations at hprogress
    unfold Resolve.resolveMembers Member.sites
    exact h.resolveMembers rest outer done todo r hprogress hr

end

theorem Carried.forM (h : Carried unit inv) (types : List TypeDecl) (outer : Site)
    (done : List (Site × TypeDecl)) (todo : List (List String × TypeDecl))
    (hprogress : Progress unit.packageWords (done.map Site.entry)
      (types.flatMap (TypeDecl.declarations outer.path) ++ todo) r) (hr : inv outer done r) :
    Ends r (types.forM Resolve.resolveAll) fun _ r' =>
      r'.scopes = r.scopes ∧ inv outer (done ++ types.flatMap (TypeDecl.sites outer)) r' := by
  induction types generalizing done r with
  | nil =>
      rw [List.flatMap_nil, List.append_nil]
      exact ⟨rfl, hr⟩
  | cons t types ih =>
      rw [List.flatMap_cons, List.append_assoc] at hprogress
      refine .bind ((progress_resolveAll t outer.path _ _ r hprogress).and
        (h.resolveAll t outer done _ r hprogress hr)) ?_
      rintro _ r₁ ⟨h₁, hscopes₁, hr₁⟩
      rw [← t.entries_sites, ← List.map_append] at h₁
      have hrest := ih _ h₁ hr₁
      rw [List.append_assoc] at hrest
      exact ⟨hrest.1.trans hscopes₁, hrest.2⟩

/-- **What is so between the passes, and is carried by headers, is so of what a unit resolves to.** -/
theorem Carried.of_firstPass (h : Carried unit inv) (hfirst : inv ⟨[], []⟩ [] unit.firstPass) :
    ∃ r, r.env = unit.resolve ∧ inv ⟨[], []⟩ unit.sites r := by
  have hprogress := unit.progress_firstPass
  rw [← List.append_nil unit.declarations] at hprogress
  exact ⟨_, rfl, (h.forM unit.types ⟨[], []⟩ [] [] hprogress hfirst).2⟩

end AspectLang.Resolve
