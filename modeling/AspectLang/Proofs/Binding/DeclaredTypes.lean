import AspectLang.Proofs.Binding.FieldTypes
import AspectLang.Proofs.Binding.SecondPass

/-! # Finding declared types by their qualified names

The types with names in what a unit resolves to are the declared ones, in order, and behind them one
plain reference for every name that is written in the unit without arguments and is neither a type
variable in scope nor the name of a declared type (`CompilationUnit.names_resolve`).  So a declared
type is found by its qualified name, the first one of that name; but where none is declared, a plain
reference may be found instead (`CompilationUnit.declaredType?_finds`). -/

namespace AspectLang

/-! ### The names of plain references -/

/-- Whether segments are a type variable in scope. -/
def Site.isVariable (p : Site) : List TypeSegment → Bool
  | [⟨word, [], _⟩] => p.typeVariables.contains word
  | _ => false

/-- The name of a plain reference: as a single import spells it, or else as it is written. -/
def CompilationUnit.spelling (unit : CompilationUnit) (words : List String) : List String :=
  ((Resolve.singleImports unit).lookup (".".intercalate words)).getD words

section

variable (unit : CompilationUnit) (p : Site)

mutual

/-- The names of the plain references that a type as it is written makes, in order. -/
def TypeRef.plainNames : TypeRef → List (List String)
  | ⟨_, _, true, _⟩ => []
  | ⟨segments, _, false, _⟩ =>
    if p.isVariable segments then []
    else plainNamesOfLast segments ++
      if (lastArguments segments).isEmpty &&
          (unit.lastCalled? (segments.map TypeSegment.name)).isNone then
        [unit.spelling (segments.map TypeSegment.name)]
      else []

/-- The names of plain references in the arguments of the last segment. -/
def plainNamesOfLast : List TypeSegment → List (List String)
  | [] => []
  | [⟨_, arguments, _⟩] => plainNamesOfArguments arguments
  | _ :: rest => plainNamesOfLast rest

/-- The names of plain references in type arguments. -/
def plainNamesOfArguments : List TypeArgument → List (List String)
  | [] => []
  | argument :: rest => argument.plainNames ++ plainNamesOfArguments rest

/-- The names of plain references in a type argument. -/
def TypeArgument.plainNames : TypeArgument → List (List String)
  | .type t => t.plainNames
  | .wildcard _ none _ => []
  | .wildcard _ (some bound) _ => bound.plainNames

end

end

/-! ### The types that are written in a unit -/

/-- The bounds of type parameters. -/
def boundUses (p : Site) (parameters : List TypeParameter) : List (Site × TypeRef) :=
  parameters.flatMap fun q => q.bounds.map (p, ·)

/-- The types that are written in the header of a method, with their site inside the method. -/
def MethodDecl.uses (p : Site) (m : MethodDecl) : List (Site × TypeRef) :=
  let inner := p.under m.typeParameters
  boundUses inner m.typeParameters ++
    (m.returnType.toList ++ m.parameters.map Parameter.type ++ m.throws).map (inner, ·)

/-- The types that are written in a declared type, in its bounds, supertypes, fields and methods, but
not in its member types. -/
def TypeDecl.uses (p : Site) (t : TypeDecl) : List (Site × TypeRef) :=
  boundUses p t.typeParameters ++
    (t.superclass.toList ++ t.interfaces ++ t.fields.map FieldDecl.type).map (p, ·) ++
    t.methods.flatMap (MethodDecl.uses p)

namespace CompilationUnit

variable (unit : CompilationUnit)

/-- The types that are written in a unit, with their sites. -/
def uses : List (Site × TypeRef) := unit.sites.flatMap fun x => x.2.uses x.1

/-- The names of the plain references that types make which are written in a unit. -/
def namesOf (uses : List (Site × TypeRef)) : List (List String) :=
  uses.flatMap fun x => x.2.plainNames unit x.1

/-- The names of the plain references of a unit, in order. -/
def plainNames : List (List String) := unit.namesOf unit.uses

theorem namesOf_append (uses uses' : List (Site × TypeRef)) :
    unit.namesOf (uses ++ uses') = unit.namesOf uses ++ unit.namesOf uses' :=
  List.flatMap_append

theorem namesOf_map (p : Site) (types : List TypeRef) :
    unit.namesOf (types.map (p, ·)) = types.flatMap (TypeRef.plainNames unit p) := by
  unfold namesOf
  rw [List.flatMap_map]

theorem namesOf_boundUses (p : Site) (parameters : List TypeParameter) :
    unit.namesOf (boundUses p parameters) =
      parameters.flatMap fun q => q.bounds.flatMap (TypeRef.plainNames unit p) := by
  unfold boundUses
  rw [namesOf, List.flatMap_assoc]
  simp only [List.flatMap_map]

theorem namesOf_flatMap {α : Type} (uses : α → List (Site × TypeRef)) (xs : List α) :
    unit.namesOf (xs.flatMap uses) = xs.flatMap fun x => unit.namesOf (uses x) :=
  List.flatMap_assoc

end CompilationUnit

/-- The names of the types of an environment that have one, in order. -/
def Environment.names (e : Environment) : List (List String) :=
  e.types.toList.filterMap fun t => t.declared?.map ReferenceBinding.name

/-! ### Steps and the names that they add -/

/-- At a site a resolver has the tables of a unit, and as type variables just those in scope. -/
structure Resolver.At (unit : CompilationUnit) (p : Site) (r : Resolver) : Prop where
  declared : r.declared = Resolve.nameTable unit.packageWords unit.declarations 0
  imported : r.imported = Resolve.singleImports unit
  scopes : r.scopes.flatten.map Prod.fst ⊆ p.typeVariables ∧
    p.typeVariables ⊆ r.scopes.flatten.map Prod.fst

theorem Resolver.At.later {unit : CompilationUnit} {p : Site} {r r' : Resolver}
    (h : r.At unit p) (hr : r.Steady r') : r'.At unit p where
  declared := hr.declared.trans h.declared
  imported := hr.imported.trans h.imported
  scopes := by
    rw [hr.scopes]
    exact h.scopes

namespace Resolve

variable {α β γ : Type} {unit : CompilationUnit} {p : Site} {r : Resolver} {a : Resolve α}
  {f : α → Resolve β} {names names' : List (List String)}

/-- From wherever it starts at a site, a step adds types with the names, and no others that have
one. -/
def AddsNames (unit : CompilationUnit) (p : Site) (names : List (List String)) (a : Resolve α) : Prop :=
  ∀ r : Resolver, r.At unit p → (a r).2.env.names = r.env.names ++ names

theorem addsNames_pure {b : α} : AddsNames unit p [] (pure b) := fun _ _ => (List.append_nil _).symm

/-- The second step may depend on what the first one gave. -/
theorem AddsNames.bind_of (ha : AddsNames unit p names a) (hsteady : IsSteady a)
    (hf : ∀ r : Resolver, AddsNames unit p names' (f (a r).1)) :
    AddsNames unit p (names ++ names') (a >>= f) := fun r hr => by
  have hfirst := ha r hr
  have hsecond := hf r (a r).2 (hr.later (hsteady r))
  rw [hfirst, List.append_assoc] at hsecond
  exact hsecond

theorem AddsNames.bind (ha : AddsNames unit p names a) (hsteady : IsSteady a)
    (hf : ∀ b, AddsNames unit p names' (f b)) : AddsNames unit p (names ++ names') (a >>= f) :=
  ha.bind_of hsteady fun _ => hf _

theorem AddsNames.get_bind {f : Resolver → Resolve β}
    (hf : ∀ r : Resolver, r.At unit p → AddsNames unit p names (f r)) :
    AddsNames unit p names (get >>= f) := fun r hr => hf r hr r hr

theorem addsNames_mapM {step : γ → Resolve α} {name : γ → List (List String)}
    (hsteady : ∀ x, IsSteady (step x)) (hstep : ∀ x, AddsNames unit p (name x) (step x)) (xs : List γ) :
    AddsNames unit p (xs.flatMap name) (xs.mapM step) := by
  induction xs with
  | nil => exact addsNames_pure
  | cons x xs ih =>
      rw [List.mapM_cons, List.flatMap_cons]
      refine (hstep x).bind (hsteady x) fun _ => ?_
      rw [← List.append_nil (xs.flatMap name)]
      exact ih.bind (steady_mapM hsteady xs) fun _ => addsNames_pure

theorem addsNames_forM {step : γ → Resolve PUnit} {name : γ → List (List String)}
    (hsteady : ∀ x, IsSteady (step x)) (hstep : ∀ x, AddsNames unit p (name x) (step x)) (xs : List γ) :
    AddsNames unit p (xs.flatMap name) (xs.forM step) := by
  induction xs with
  | nil => exact addsNames_pure
  | cons x xs ih =>
      rw [List.flatMap_cons]
      exact (hstep x).bind (hsteady x) fun _ => ih

/-! ### Types -/

theorem names_push (e : Environment) (t : TypeBinding) :
    Environment.names { e with types := e.types.push t } =
      e.names ++ (t.declared?.map ReferenceBinding.name).toList := by
  unfold Environment.names
  rw [Array.toList_push, List.filterMap_append]
  cases hname : t.declared?.map ReferenceBinding.name <;> simp [hname]

theorem addsNames_addType (t : TypeBinding) :
    AddsNames unit p (t.declared?.map ReferenceBinding.name).toList (addType t) :=
  fun r _ => names_push r.env t

theorem addsNames_arrayOf (leaf dims : Nat) : AddsNames unit p [] (arrayOf leaf dims) :=
  .get_bind fun _ _ => by
    split
    · exact addsNames_addType _
    · exact addsNames_addType _

theorem addsNames_baseType (word : String) : AddsNames unit p [] (baseType word) := by
  intro r hr
  rw [baseType_eq]
  split
  · exact (List.append_nil _).symm
  · exact names_push r.env _

/-- A class or interface that is not declared is added with its name. -/
theorem addsNames_plainType (declared : Option TypeId) (reference : ReferenceBinding) :
    AddsNames unit p (if declared.isNone then [reference.name] else [])
      (plainType declared reference) := by
  unfold plainType
  cases declared with
  | none => exact addsNames_addType _
  | some id =>
      rw [Option.isNone_some, if_neg Bool.false_ne_true]
      refine .get_bind fun r _ => ?_
      split
      · exact addsNames_addType _
      · exact addsNames_pure

/-- A name is looked up among the type variables in scope. -/
theorem isSome_wordVariable? (h : r.At unit p) (segments : List TypeSegment) :
    (wordVariable? segments r).isSome = p.isVariable segments := by
  rcases segments with _ | ⟨⟨word, _ | ⟨argument, arguments⟩, span⟩, _ | ⟨second, more⟩⟩
  · rfl
  · have hlookup : (typeVariable? word r).isSome = true ↔ word ∈ r.scopes.flatten.map Prod.fst := by
      unfold typeVariable?
      rw [List.findSome?_isSome_iff]
      simp only [List.mem_map, List.mem_flatten, List.lookup_isSome_iff]
      constructor
      · rintro ⟨scope, hscope, entry, hentry, heq⟩
        exact ⟨entry, ⟨scope, hscope, hentry⟩, (beq_iff_eq.mp heq).symm⟩
      · rintro ⟨entry, ⟨scope, hscope, hentry⟩, rfl⟩
        exact ⟨scope, hscope, entry, hentry, beq_self_eq_true _⟩
    unfold wordVariable? Site.isVariable
    rw [Bool.eq_iff_iff, hlookup, List.contains_iff_mem]
    exact ⟨fun hmem => h.scopes.1 hmem, fun hmem => h.scopes.2 hmem⟩
  · rfl
  · rfl
  · rfl

/-- What is known by a name that is not declared has the name as it is spelled. -/
theorem lookupName_eq (h : r.At unit p) (words : List String) :
    (lookupName words r).1 = unit.lastCalled? words ∧
      (unit.lastCalled? words = none → (lookupName words r).2.name = unit.spelling words) := by
  unfold lookupName
  dsimp only
  rw [h.declared, lookup_nameTable, h.imported]
  refine ⟨rfl, fun hnone => ?_⟩
  rw [hnone]
  rfl

theorem resolveArguments_eq_nil_iff (arguments : List TypeArgument) (r : Resolver) :
    (resolveArguments arguments r).1 = [] ↔ arguments = [] := by
  cases arguments with
  | nil => exact iff_of_true rfl rfl
  | cons argument rest => exact iff_of_false (List.cons_ne_nil _ _) (List.cons_ne_nil _ _)

theorem resolveLast_eq_nil_iff : (segments : List TypeSegment) → (r : Resolver) →
    ((resolveLast segments r).1 = [] ↔ lastArguments segments = [])
  | [], _ => iff_of_true rfl rfl
  | [⟨_, arguments, _⟩], r => resolveArguments_eq_nil_iff arguments r
  | ⟨_, _, _⟩ :: next :: rest, r => by
    unfold resolveLast lastArguments
    exact resolveLast_eq_nil_iff (next :: rest) r

mutual

theorem addsNames_resolveType : (t : TypeRef) →
    AddsNames unit p (t.plainNames unit p) (resolveType t)
  | ⟨segments, dims, primitive, _⟩ => by
    unfold resolveType
    extract_lets finish
    have hfinish : ∀ leaf, AddsNames unit p [] (finish leaf) := by
      intro leaf
      dsimp only [finish]
      split
      · exact addsNames_pure
      · exact addsNames_arrayOf leaf dims
    cases primitive with
    | true =>
        unfold TypeRef.plainNames
        exact (addsNames_baseType _).bind (steady_baseType _) hfinish
    | false =>
        unfold TypeRef.plainNames
        refine .get_bind fun r hr => ?_
        have hvariable := isSome_wordVariable? hr segments
        obtain ⟨hdeclared, hname⟩ := lookupName_eq hr (segments.map TypeSegment.name)
        generalize lookupName (segments.map TypeSegment.name) r = found at hdeclared hname ⊢
        obtain ⟨declared, reference⟩ := found
        obtain rfl : declared = unit.lastCalled? (segments.map TypeSegment.name) := hdeclared
        cases hfound : wordVariable? segments r with
        | some id =>
            have hyes : p.isVariable segments = true := by rw [← hvariable, hfound]; rfl
            rw [if_pos hyes]
            exact hfinish id
        | none =>
            have hno : p.isVariable segments = false := by rw [← hvariable, hfound]; rfl
            rw [hno, if_neg Bool.false_ne_true]
            refine (addsNames_resolveLast segments).bind_of (steady_resolveLast segments)
              fun r' => ?_
            have hnil := resolveLast_eq_nil_iff segments r'
            cases harguments : (resolveLast segments r').1 with
            | nil =>
                rw [hnil.mp harguments, List.isEmpty_nil, Bool.true_and, ← List.append_nil (ite _ _ _)]
                refine .bind ?_ (steady_plainType _ _) hfinish
                have hplain := @addsNames_plainType unit p
                  (unit.lastCalled? (segments.map TypeSegment.name)) reference
                cases hcalled : unit.lastCalled? (segments.map TypeSegment.name) with
                | none =>
                    rw [hcalled, hname hcalled] at hplain
                    exact hplain
                | some i =>
                    rw [hcalled] at hplain
                    exact hplain
            | cons id ids =>
                have hne : (lastArguments segments).isEmpty = false := by
                  rw [List.isEmpty_eq_false_iff]
                  intro hempty
                  rw [hnil.mpr hempty] at harguments
                  cases harguments
                rw [hne, Bool.false_and, if_neg Bool.false_ne_true]
                exact (addsNames_addType _).bind (steady_addType _) hfinish

theorem addsNames_resolveLast : (segments : List TypeSegment) →
    AddsNames unit p (plainNamesOfLast unit p segments) (resolveLast segments)
  | [] => addsNames_pure
  | [⟨_, arguments, _⟩] => addsNames_resolveArguments arguments
  | ⟨_, _, _⟩ :: next :: rest => by
    unfold resolveLast plainNamesOfLast
    exact addsNames_resolveLast (next :: rest)

theorem addsNames_resolveArguments : (arguments : List TypeArgument) →
    AddsNames unit p (plainNamesOfArguments unit p arguments) (resolveArguments arguments)
  | [] => addsNames_pure
  | argument :: rest => by
    unfold plainNamesOfArguments
    rw [← List.append_nil (plainNamesOfArguments unit p rest)]
    exact (addsNames_resolveArgument argument).bind (steady_resolveArgument argument) fun _ =>
      (addsNames_resolveArguments rest).bind (steady_resolveArguments rest) fun _ => addsNames_pure

theorem addsNames_resolveArgument : (argument : TypeArgument) →
    AddsNames unit p (argument.plainNames unit p) (resolveArgument argument)
  | .type t => addsNames_resolveType t
  | .wildcard _ none _ => addsNames_addType _
  | .wildcard _ (some bound) _ => by
    unfold TypeArgument.plainNames
    rw [← List.append_nil (bound.plainNames unit p)]
    exact (addsNames_resolveType bound).bind (steady_resolveType bound) fun _ =>
      addsNames_addType _

end

theorem addsNames_resolveTypes (types : List TypeRef) :
    AddsNames unit p (types.flatMap (TypeRef.plainNames unit p)) (types.mapM resolveType) :=
  addsNames_mapM steady_resolveType addsNames_resolveType types

theorem addsNames_resolveOptional (t : Option TypeRef) :
    AddsNames unit p (t.toList.flatMap (TypeRef.plainNames unit p)) (resolveOptional t) := by
  cases t with
  | none => exact addsNames_pure
  | some t =>
      intro r hr
      have htype := addsNames_resolveType t r hr
      rw [Option.toList_some, List.flatMap_singleton]
      exact htype

theorem addsNames_resolveParameter (q : Parameter) :
    AddsNames unit p (q.type.plainNames unit p) (resolveParameter q) := by
  rw [← List.append_nil (q.type.plainNames unit p)]
  refine (addsNames_resolveType q.type).bind (steady_resolveType q.type) fun type => ?_
  split
  · exact addsNames_arrayOf type 1
  · exact addsNames_pure

/-! ### Type variables -/

/-- What keeps what types are keeps their names. -/
theorem names_updateType {e : Environment} {id : TypeId} {change : TypeBinding → TypeBinding}
    (hbare : ∀ t, (change t).bare = t.bare) : (e.updateType id change).names = e.names := by
  have hname : ∀ t : TypeBinding, (change t).declared?.map ReferenceBinding.name =
      t.declared?.map ReferenceBinding.name := by
    intro t
    have hsame (t : TypeBinding) : t.bare.declared?.map ReferenceBinding.name =
        t.declared?.map ReferenceBinding.name := by
      cases t <;> rfl
    rw [← hsame, hbare, hsame]
  unfold Environment.names Environment.updateType
  dsimp only
  rw [Array.toList_modify]
  generalize e.types.toList = types
  induction types generalizing id with
  | nil => simp
  | cons t types ih =>
      cases id with
      | zero => rw [List.modify_zero_cons, List.filterMap_cons, List.filterMap_cons, hname]
      | succ id => rw [List.modify_succ_cons, List.filterMap_cons, List.filterMap_cons, ih]

theorem addsNames_setBounds (id : TypeId) (bounds : List TypeId) :
    AddsNames unit p [] (setBounds id bounds) := by
  intro r _
  obtain ⟨change, heq, hbare, _⟩ := setBounds_eq id bounds r
  rw [heq, List.append_nil]
  exact names_updateType hbare

theorem addsNames_setSupertypes (id : TypeId) (superclass : Option TypeId)
    (interfaces typeVariables : List TypeId) :
    AddsNames unit p [] (setSupertypes id superclass interfaces typeVariables) := by
  intro r _
  obtain ⟨change, heq, hbare, _⟩ := setSupertypes_eq id superclass interfaces typeVariables r
  rw [heq, List.append_nil]
  exact names_updateType hbare

theorem addsNames_boundLoop (pairs : List (TypeParameter × TypeId)) :
    AddsNames unit p (pairs.flatMap fun x => x.1.bounds.flatMap (TypeRef.plainNames unit p))
      (forIn pairs PUnit.unit fun x _ => do
        setBounds x.2 (← x.1.bounds.mapM resolveType)
        return ForInStep.yield PUnit.unit) := by
  induction pairs with
  | nil => exact addsNames_pure
  | cons x pairs ih =>
      rw [List.forIn_cons, List.flatMap_cons]
      have hsteady := (steady_mapM steady_resolveType x.1.bounds).bind (steady_setBounds x.2)
      have hturn := (@addsNames_resolveTypes unit p x.1.bounds).bind
        (steady_mapM steady_resolveType x.1.bounds) (addsNames_setBounds x.2)
      rw [List.append_nil] at hturn
      exact hturn.bind hsteady fun _ => ih

/-- From one moment to a later one a scope was opened, in which names were added. -/
structure OpensScope (unit : CompilationUnit) (p : Site) (names : List (List String))
    (r r' : Resolver) : Prop where
  at_ : r'.At unit p
  scopes : r'.scopes.tail = r.scopes
  names : r'.env.names = r.env.names ++ names

theorem OpensScope.step {r₁ : Resolver} (h : OpensScope unit p names r r₁)
    (ha : AddsNames unit p names' a) (hsteady : IsSteady a) :
    OpensScope unit p (names ++ names') r (a r₁).2 where
  at_ := h.at_.later (hsteady r₁)
  scopes := by rw [(hsteady r₁).scopes, h.scopes]
  names := by rw [ha r₁ h.at_, h.names, List.append_assoc]

/-- Type parameters open a scope with their names, in which their bounds are resolved. -/
theorem opensScope_bindTypeParameters (parameters : List TypeParameter) (owner : VariableOwner)
    (h : r.At unit p) :
    OpensScope unit (p.under parameters)
      (unit.namesOf (boundUses (p.under parameters) parameters)) r
      (bindTypeParameters parameters owner r).2 := by
  let news : Resolve (List TypeId) := parameters.mapM fun q => addType (blankVariable owner q)
  have hnews := @newVariables_eq owner parameters r
  have hlength : parameters.length = (news r).1.length := by
    rw [show (news r).1 = _ from congrArg Prod.fst hnews, List.length_range']
  have hsteady : r.Steady (news r).2 := steady_mapM (fun _ => steady_addType _) parameters r
  have hsame : (news r).2.env.names = r.env.names := by
    rw [show (news r).2 = _ from congrArg Prod.snd hnews]
    unfold Environment.names
    rw [Array.toList_append, List.filterMap_append, List.filterMap_map]
    have hnone : List.filterMap ((fun t : TypeBinding => t.declared?.map ReferenceBinding.name) ∘
        blankVariable owner) parameters = [] :=
      List.filterMap_eq_nil_iff.mpr fun _ _ => rfl
    rw [hnone, List.append_nil]
  let pairs := (parameters.map TypeParameter.name).zip (news r).1
  let opened : Resolver := { (news r).2 with scopes := pairs.reverse :: (news r).2.scopes }
  have hopened : opened.At unit (p.under parameters) := by
    refine ⟨hsteady.declared.trans h.declared, hsteady.imported.trans h.imported, ?_⟩
    have hfirst : pairs.map Prod.fst = parameters.map TypeParameter.name :=
      List.map_fst_zip (by rw [List.length_map, hlength])
    have hall : opened.scopes.flatten.map Prod.fst =
        (parameters.map TypeParameter.name).reverse ++ r.scopes.flatten.map Prod.fst := by
      change ((pairs.reverse :: (news r).2.scopes).flatten).map Prod.fst = _
      rw [hsteady.scopes, List.flatten_cons, List.map_append, List.map_reverse, hfirst]
    rw [hall]
    refine ⟨fun word hword => ?_, fun word hword => ?_⟩
    · rcases List.mem_append.mp hword with hin | hout
      · exact List.mem_append_left _ (List.mem_reverse.mp hin)
      · exact List.mem_append_right _ (h.scopes.1 hout)
    · rcases List.mem_append.mp hword with hin | hout
      · exact List.mem_append_left _ (List.mem_reverse.mpr hin)
      · exact List.mem_append_right _ (h.scopes.2 hout)
  have hloop := @addsNames_boundLoop unit (p.under parameters)
    (parameters.zip (news r).1) opened hopened
  have hloopSteady := steady_boundLoop (parameters.zip (news r).1) opened
  refine ⟨hopened.later hloopSteady, ?_, ?_⟩
  · exact (congrArg List.tail hloopSteady.scopes).trans hsteady.scopes
  · rw [CompilationUnit.namesOf_boundUses]
    have hbounds (f : TypeParameter → List (List String)) :
        ((parameters.zip (news r).1).flatMap fun x => f x.1) = parameters.flatMap f := by
      rw [← List.flatMap_map, List.map_fst_zip hlength.le]
    rw [← hbounds]
    exact hloop.trans (congrArg (· ++ _) hsame)

/-! ### Members -/

theorem addsNames_resolveMethod (owner : TypeId) (m : MethodDecl) :
    AddsNames unit p (unit.namesOf (m.uses p)) (resolveMethod owner m) := by
  intro r hr
  let blank : MethodBinding :=
    { selector := m.selector, modifiers := m.modifiers, declaringClass := some owner }
  let r₁ : Resolver := { r with env := (r.env.addMethod blank).2 }
  have h₁ : r₁.At unit p := hr.later (steady_addMethod blank r)
  suffices hends : Ends r (resolveMethod owner m) fun _ r' =>
      r'.env.names = r.env.names ++ unit.namesOf (m.uses p) from hends
  refine .bind (a := addMethod blank) (P := fun id r' => r' = r₁) rfl ?_
  rintro id _ rfl
  refine .bind (P := fun _ r₂ => OpensScope unit (p.under m.typeParameters) _ r₁ r₂)
    (opensScope_bindTypeParameters m.typeParameters (.method id) h₁) ?_
  rintro typeVariables r₂ h₂
  refine .bind (P := fun _ r₃ => OpensScope unit _ _ r₁ r₃)
    (h₂.step (addsNames_resolveOptional m.returnType) (steady_resolveOptional m.returnType)) ?_
  rintro returnType r₃ h₃
  refine .bind (P := fun _ r₄ => OpensScope unit _ _ r₁ r₄)
    (h₃.step (addsNames_mapM steady_resolveParameter addsNames_resolveParameter m.parameters)
      (steady_mapM steady_resolveParameter m.parameters)) ?_
  rintro parameters r₄ h₄
  refine .bind (P := fun _ r₅ => OpensScope unit _ _ r₁ r₅)
    (h₄.step (addsNames_resolveTypes m.throws) (steady_mapM steady_resolveType m.throws)) ?_
  rintro throws r₅ h₅
  refine h₅.names.trans ?_
  unfold MethodDecl.uses
  rw [CompilationUnit.namesOf_append, CompilationUnit.namesOf_map, List.flatMap_append,
    List.flatMap_append, List.flatMap_map]
  simp only [List.append_assoc]
  rfl

/-- Fields are resolved where a scope is open; they change no table of names. -/
theorem OpensScope.resolveFields {r₁ : Resolver} (owner : TypeId) (fields : List FieldDecl)
    (h : OpensScope unit p names r r₁) :
    Ends r₁ (fields.forM (resolveField owner)) fun _ r₂ =>
      OpensScope unit p (names ++ fields.flatMap fun f => f.type.plainNames unit p) r r₂ := by
  induction fields generalizing names r₁ with
  | nil =>
      rw [List.flatMap_nil, List.append_nil]
      exact h
  | cons f fields ih =>
      have htype := h.step (addsNames_resolveType f.type) (steady_resolveType f.type)
      have hfield : OpensScope unit p (names ++ f.type.plainNames unit p) r
          (resolveField owner f r₁).2 :=
        ⟨⟨htype.at_.declared, htype.at_.imported, htype.at_.scopes⟩, htype.scopes, htype.names⟩
      have hrest := ih hfield
      rw [List.append_assoc] at hrest
      exact hrest

/-- The header and the members of a declared type are resolved in the scope of its type
parameters. -/
theorem opensScope_resolveHeader {outer : Site} (id : TypeId) (t : TypeDecl) (h : r.At unit outer) :
    OpensScope unit (outer.within t.name t.typeParameters)
      (unit.namesOf (t.uses (outer.within t.name t.typeParameters))) r (resolveHeader id t r).2 := by
  let here : Site := { outer with path := outer.path ++ [t.name] }
  have hhere : r.At unit here := ⟨h.declared, h.imported, h.scopes⟩
  suffices hends : Ends r (resolveHeader id t) fun _ r' =>
      OpensScope unit (here.under t.typeParameters)
        (unit.namesOf (t.uses (here.under t.typeParameters))) r r' from hends
  refine .bind (P := fun _ r₁ => OpensScope unit (here.under t.typeParameters) _ r r₁)
    (opensScope_bindTypeParameters t.typeParameters (.type id) hhere) ?_
  rintro typeVariables r₁ h₁
  refine .bind (P := fun _ r₂ => OpensScope unit _ _ r r₂)
    (h₁.step (addsNames_resolveOptional t.superclass) (steady_resolveOptional t.superclass)) ?_
  rintro superclass r₂ h₂
  refine .bind (P := fun _ r₃ => OpensScope unit _ _ r r₃)
    (h₂.step (addsNames_resolveTypes t.interfaces) (steady_mapM steady_resolveType t.interfaces)) ?_
  rintro interfaces r₃ h₃
  refine .bind (P := fun _ r₄ => OpensScope unit _ _ r r₄)
    (h₃.step (addsNames_setSupertypes id superclass interfaces typeVariables)
      (steady_setSupertypes id superclass interfaces typeVariables)) ?_
  rintro _ r₄ h₄
  refine .bind (P := fun _ r₅ => OpensScope unit _ _ r r₅) (h₄.resolveFields id t.fields) ?_
  rintro _ r₅ h₅
  have h₆ := h₅.step (addsNames_forM (steady_resolveMethod id) (addsNames_resolveMethod id) t.methods)
    (steady_forM (steady_resolveMethod id) t.methods)
  refine ⟨h₆.at_, h₆.scopes, h₆.names.trans (congrArg (r.env.names ++ ·) ?_)⟩
  unfold TypeDecl.uses
  rw [CompilationUnit.namesOf_append, CompilationUnit.namesOf_append, CompilationUnit.namesOf_map,
    List.flatMap_append, List.flatMap_append, List.flatMap_map,
    CompilationUnit.namesOf_flatMap, List.append_nil]
  simp only [List.append_assoc]

/-! ### The whole unit -/

/-- Between two types of the second pass the types with names are the declared ones and the plain
references of the types that are done. -/
theorem carried_names (unit : CompilationUnit) : Carried unit fun p done r => r.At unit p ∧
    r.env.names = unit.declarations.map (unit.packageWords ++ ·.1) ++
      unit.namesOf (done.flatMap fun x => x.2.uses x.1) where
  header := by
    rintro outer done todo t r - ⟨hat, hnames⟩
    have hstart : Resolver.At unit outer { r with pending := r.pending.tail } :=
      ⟨hat.declared, hat.imported, hat.scopes⟩
    have h := opensScope_resolveHeader done.length t hstart
    refine ⟨h.scopes, h.at_, ?_⟩
    rw [List.flatMap_append, List.flatMap_singleton, CompilationUnit.namesOf_append,
      ← List.append_assoc, ← hnames]
    exact h.names
  close := by
    rintro outer inner done done' r r' ⟨hat, -⟩ ⟨hat', hnames⟩ hscopes
    refine ⟨⟨hat'.declared, hat'.imported, ?_⟩, hnames⟩
    rw [hscopes]
    exact hat.scopes

end Resolve

namespace CompilationUnit

variable (unit : CompilationUnit)

/-- The qualified names of the declared types, in order. -/
def declaredNames : List (List String) := unit.declarations.map (unit.packageWords ++ ·.1)

theorem at_firstPass : unit.firstPass.At unit ⟨[], []⟩ := by
  have hnone : unit.firstPass.scopes = [] := unit.named_firstPass.scopes
  refine ⟨unit.declared_firstPass, (Resolve.tables_forM unit.types unit.packageWords unit.start).1, ?_⟩
  rw [hnone]
  exact ⟨List.Subset.refl _, List.Subset.refl _⟩

theorem names_firstPass : unit.firstPass.env.names = unit.declaredNames := by
  have hdeclared : Resolve.Declared unit.packageWords unit.declarations unit.start unit.firstPass :=
    Resolve.declares_forM unit.types rfl
  unfold Environment.names declaredNames
  rw [hdeclared.types, List.filterMap_append, List.filterMap_map]
  change [] ++ _ = _
  rw [List.nil_append, ← List.filterMap_eq_map]
  congr 1
  funext x
  obtain ⟨-, b, hb, hname, -⟩ := @Resolve.declares_declaration unit.packageWords x.1 x.2
  rw [Function.comp_apply, Function.comp_apply, hb, Option.map_some, hname]

/-- **The types with names that a unit resolves to** are the declared ones and one plain reference for
each name that makes one. -/
theorem names_resolve : unit.resolve.names = unit.declaredNames ++ unit.plainNames := by
  have hfirst : unit.firstPass.env.names = unit.declaredNames ++ unit.namesOf [] :=
    unit.names_firstPass.trans (List.append_nil _).symm
  obtain ⟨r, hr, -, hnames⟩ :=
    (Resolve.carried_names unit).of_firstPass ⟨unit.at_firstPass, hfirst⟩
  rwa [hr] at hnames

end CompilationUnit

/-- A type is found by a name if and only if some type has it. -/
theorem Environment.declaredType?_eq_none_iff (e : Environment) (name : String) :
    e.declaredType? name = none ↔ name ∉ e.names.map (".".intercalate ·) := by
  unfold declaredType? names
  rw [Array.findIdx?_eq_none_iff]
  simp only [List.mem_map, List.mem_filterMap, Option.map_eq_some_iff, Array.mem_toList_iff,
    Option.any_eq_false]
  constructor
  · rintro hnone ⟨words, ⟨t, ht, b, hb, rfl⟩, hname⟩
    exact absurd (beq_iff_eq.mpr hname) (Bool.not_eq_true _ ▸ hnone t ht b hb)
  · rintro hno t ht b hb
    rw [beq_eq_false_iff_ne]
    exact fun hname => hno ⟨b.name, ⟨t, ht, b, hb, rfl⟩, hname⟩

namespace CompilationUnit

variable (unit : CompilationUnit)

/-- The first declared type with a qualified name, by its number. -/
def firstDeclared? (name : String) : Option TypeId :=
  unit.declaredNames.findIdx? (".".intercalate · == name)

theorem declaredType?_of_firstDeclared? {name : String} {i : TypeId}
    (hi : unit.firstDeclared? name = some i) : unit.resolve.declaredType? name = some i := by
  -- a declared type answers to the name as its declaration does
  have hsame : ∀ (k : Nat) (words : List String), unit.declaredNames[k]? = some words →
      ∃ b, unit.resolve.types[k]? = some b ∧
        b.declared?.any (·.qualifiedName == name) = (".".intercalate words == name) := by
    intro k words hwords
    unfold declaredNames at hwords
    rw [List.getElem?_map] at hwords
    obtain ⟨⟨path, t⟩, hk, rfl⟩ := Option.map_eq_some_iff.mp hwords
    obtain ⟨b, hb, -, r, hr, hname, -⟩ := unit.resolve_isArena.declared k path t hk
    refine ⟨b, hb, ?_⟩
    rw [hr, Option.any_some, ReferenceBinding.qualifiedName, hname]
  unfold firstDeclared? at hi
  obtain ⟨hlt, hname, hbefore⟩ := List.findIdx?_eq_some_iff_getElem.mp hi
  unfold Environment.declaredType?
  obtain ⟨b, hb, hany⟩ := hsame i _ (List.getElem?_eq_getElem hlt)
  obtain ⟨hsize, rfl⟩ := Array.getElem?_eq_some_iff.mp hb
  refine Array.findIdx?_eq_some_iff_getElem.mpr ⟨hsize, hany.trans hname, fun k hk => ?_⟩
  obtain ⟨b, hb, hany⟩ := hsame k _ (List.getElem?_eq_getElem (hk.trans hlt))
  obtain ⟨_, rfl⟩ := Array.getElem?_eq_some_iff.mp hb
  rw [hany]
  exact hbefore k hk

/-- **A declared type is found by its qualified name**, the first one of that name; and a name that no
type has is found if and only if a type as it is written makes a plain reference of it. -/
theorem declaredType?_finds (name : String) :
    unit.resolve.declaredType? name = unit.firstDeclared? name ↔
      (unit.firstDeclared? name).isSome ∨ name ∉ unit.plainNames.map (".".intercalate ·) := by
  cases hfirst : unit.firstDeclared? name with
  | some i => exact iff_of_true (unit.declaredType?_of_firstDeclared? hfirst) (.inl rfl)
  | none =>
      have hundeclared : name ∉ unit.declaredNames.map (".".intercalate ·) := by
        unfold firstDeclared? at hfirst
        rw [List.findIdx?_eq_none_iff] at hfirst
        intro hmem
        obtain ⟨words, hwords, hname⟩ := List.mem_map.mp hmem
        exact absurd (beq_iff_eq.mpr hname) (Bool.not_eq_true _ ▸ hfirst words hwords)
      rw [Environment.declaredType?_eq_none_iff, names_resolve, List.map_append, List.mem_append,
        Option.isSome_none]
      simp only [hundeclared, false_or, Bool.false_eq_true]

end CompilationUnit

/-- The class `A` with a field of the type `B`, which is not declared. -/
def foreignFieldUnit : CompilationUnit where
  types := [{ TypeDecl.new .classType with
    name := "A"
    members := [.field {
      name := "f"
      modifiers := 0
      annotations := []
      type := .ofName ⟨[⟨"B", {}⟩]⟩
      initializer := none
      extent := {} }] }]

/-- **A type that is only used is found**, as if it were declared. -/
theorem foreign_type_found : foreignFieldUnit.firstDeclared? "B" = none ∧
    foreignFieldUnit.resolve.declaredType? "B" = some 1 := by
  decide +kernel

end AspectLang
