import AspectLang.Proofs.Flow.Counting

/-! # What an analysis adds

The analysis of a unit comes down to diagnostics and numbers that are added to those in front of it,
the same ones whatever these are (`Contributes`).  An exception that leaves a method is recorded, if
the method infers exceptions (`MethodDecl.withInferred`), or reported, unless it is declared
(`MethodDecl.undeclared`); the declarations do not change otherwise.  What is recorded is not looked
at by an analysis, so a second one adds the same (`CompilationUnit.flow_adds`). -/

namespace AspectLang

open BodyFlow

/-! ### Declarations with other methods -/

mutual

/-- The type with its methods, and those of the types in it, mapped. -/
def TypeDecl.mapMethods (g : MethodDecl → MethodDecl) : TypeDecl → TypeDecl
  | ⟨kind, name, modifiers, annotations, typeParameters, superclass, interfaces, members, extent,
      bodyStart, bodyEnd, extension⟩ =>
    ⟨kind, name, modifiers, annotations, typeParameters, superclass, interfaces,
      mapMethodsOf g members, extent, bodyStart, bodyEnd, extension⟩

/-- The members with their methods mapped. -/
def mapMethodsOf (g : MethodDecl → MethodDecl) : List Member → List Member
  | [] => []
  | m :: rest => m.mapMethods g :: mapMethodsOf g rest

/-- The member with its methods mapped. -/
def Member.mapMethods (g : MethodDecl → MethodDecl) : Member → Member
  | .field f => .field f
  | .method m => .method (g m)
  | .type t => .type (t.mapMethods g)
  | .initializer i => .initializer i

end

mutual

theorem TypeDecl.everyMethod_mapMethods (g : MethodDecl → MethodDecl) (t : TypeDecl) :
    (t.mapMethods g).everyMethod = t.everyMethod.map g := by
  match t with
  | ⟨_, _, _, _, _, _, _, members, _, _, _, _⟩ =>
    rw [TypeDecl.mapMethods, TypeDecl.everyMethod, TypeDecl.everyMethod]
    exact everyMethodOf_mapMethodsOf g members

theorem everyMethodOf_mapMethodsOf (g : MethodDecl → MethodDecl) (ms : List Member) :
    everyMethodOf (mapMethodsOf g ms) = (everyMethodOf ms).map g := by
  match ms with
  | [] => rw [mapMethodsOf, everyMethodOf, List.map_nil]
  | m :: rest =>
    rw [mapMethodsOf, everyMethodOf, everyMethodOf, m.everyMethod_mapMethods,
      everyMethodOf_mapMethodsOf, List.map_append]

theorem Member.everyMethod_mapMethods (g : MethodDecl → MethodDecl) (m : Member) :
    (m.mapMethods g).everyMethod = m.everyMethod.map g := by
  match m with
  | .field _ | .initializer _ =>
    rw [Member.mapMethods, Member.everyMethod, List.map_nil]
  | .method m => rw [Member.mapMethods, Member.everyMethod, Member.everyMethod, List.map_singleton]
  | .type t =>
    rw [Member.mapMethods, Member.everyMethod, Member.everyMethod, t.everyMethod_mapMethods]

end

/-! ### What becomes of the exceptions -/

/-- Whether the exceptions that leave a method are recorded. -/
def MethodDecl.infers (m : MethodDecl) : Bool := m.extension.any MethodExtension.infersExceptions

theorem MethodDecl.infers_eq {m : MethodDecl} {e : MethodExtension} (h : m.extension = some e) :
    m.infers = e.infersExceptions := by
  rw [infers, h]
  rfl

/-- The method with the names recorded of the exceptions that leave its body, if it has one and
infers exceptions. -/
def MethodDecl.withInferred (m : MethodDecl) : MethodDecl :=
  match m.statements, m.extension with
  | some _, some e =>
    if e.infersExceptions then
      { m with extension := some (e.recordExceptions (escapeNames m.leaving)) }
    else m
  | _, _ => m

/-- The unit with inferred exceptions recorded, and no other change. -/
def CompilationUnit.withInferred (unit : CompilationUnit) : CompilationUnit :=
  { unit with types := unit.types.map (TypeDecl.mapMethods MethodDecl.withInferred) }

theorem CompilationUnit.everyMethod_withInferred (unit : CompilationUnit) :
    unit.withInferred.everyMethod = unit.everyMethod.map MethodDecl.withInferred := by
  unfold everyMethod withInferred
  rw [List.flatMap_map, List.map_flatMap]
  exact List.flatMap_congr fun t _ => t.everyMethod_mapMethods _

/-- The exceptions that an analysis records for a method. -/
def MethodDecl.recorded (m : MethodDecl) : List String :=
  match m.statements, m.extension with
  | some _, some e => if e.infersExceptions then e.inferred else []
  | _, _ => []

/-- The total length of what is recorded for methods. -/
def countRecorded (ms : List MethodDecl) : Nat := (ms.flatMap MethodDecl.recorded).length

theorem countRecorded_singleton (m : MethodDecl) : countRecorded [m] = m.recorded.length := by
  unfold countRecorded
  rw [List.flatMap_singleton]

/-- The reports on exceptions that none of the types `declared` covers. -/
def undeclaredReports (declared : List TypeRef) (escapes : List Escape) : List Diagnostic :=
  (escapes.filter fun e => !declared.any fun type => catches type.simpleName e.name).map
    fun e => ⟨.undeclaredException, e.span, [e.name], .warning⟩

/-- The reports on the exceptions that leave a method, unless the method infers them. -/
def MethodDecl.undeclared (m : MethodDecl) : List Diagnostic :=
  if m.infers then [] else undeclaredReports m.throws m.leaving

theorem MethodDecl.undeclared_id (m : MethodDecl) :
    ∀ d ∈ m.undeclared, d.id = .undeclaredException := by
  unfold undeclared undeclaredReports
  intro d hd
  split at hd
  · cases hd
  · obtain ⟨e, -, rfl⟩ := List.mem_map.mp hd
    rfl

theorem MethodDecl.undeclared_eq_nil {m : MethodDecl} (h : m.statements = none ∨ m.infers = true) :
    m.undeclared = [] := by
  unfold undeclared leaving
  split
  · rfl
  · rename_i hinfers
    rw [h.resolve_right hinfers]
    rfl

/-! ### Additions -/

/-- The analysis after diagnostics that were counted. -/
def UnitFlow.plus (u : UnitFlow) (ds : List Diagnostic) (stats : FlowCounts) : UnitFlow :=
  ⟨u.reporter.reportAll ds, u.stats + stats⟩

theorem UnitFlow.plus_plus (u : UnitFlow) (ds ds' : List Diagnostic) (s s' : FlowCounts) :
    (u.plus ds s).plus ds' s' = u.plus (ds ++ ds') (s + s') := by
  unfold plus
  rw [Reporter.reportAll_append, FlowCounts.add_assoc]

/-- A walk makes `result` of what it walks through and adds diagnostics with their numbers to what
was found before, whatever that is, and on `result` it does the same.  Exceptions that leave the
methods on the way are reported or recorded. -/
structure Contributes {α : Type} (walk : α → UnitFlow → α × UnitFlow) (x result : α)
    (methods : List MethodDecl) (ds : List Diagnostic) (stats : FlowCounts) : Prop where
  once : ∀ u, walk x u = (result, u.plus ds stats)
  again : ∀ u, walk result u = (result, u.plus ds stats)
  tallies : Tallies ds stats
  undeclared : ds.filter (·.id == .undeclaredException) = methods.flatMap MethodDecl.undeclared
  inferred : stats.inferred = countRecorded (methods.map MethodDecl.withInferred)

/-- What is not walked through. -/
theorem Contributes.none {α : Type} {walk : α → UnitFlow → α × UnitFlow} {x : α}
    (h : ∀ u, walk x u = (x, u)) : Contributes walk x x [] [] {} :=
  ⟨h, h, tallies_nil, rfl, rfl⟩

/-- A walk through the only part of something that is walked through. -/
theorem Contributes.within {α β : Type} {walk : α → UnitFlow → α × UnitFlow}
    {whole : β → UnitFlow → β × UnitFlow} {x result : α} {ms : List MethodDecl}
    {ds : List Diagnostic} {s : FlowCounts} (h : Contributes walk x result ms ds s) (wrap : α → β)
    (hwhole : ∀ x u, whole (wrap x) u = (wrap (walk x u).1, (walk x u).2)) :
    Contributes whole (wrap x) (wrap result) ms ds s where
  once u := by rw [hwhole, h.once]
  again u := by rw [hwhole, h.again]
  tallies := h.tallies
  undeclared := h.undeclared
  inferred := h.inferred

/-- Walks one after the other, through the parts of something. -/
theorem Contributes.both {α β γ : Type} {walk : α → UnitFlow → α × UnitFlow}
    {walk' : β → UnitFlow → β × UnitFlow} {whole : γ → UnitFlow → γ × UnitFlow}
    {join : α → β → γ} {x a : α} {y b : β} {ms ms' : List MethodDecl} {ds ds' : List Diagnostic}
    {s s' : FlowCounts} (h : Contributes walk x a ms ds s) (h' : Contributes walk' y b ms' ds' s')
    (hwhole : ∀ x y u, whole (join x y) u =
      (join (walk x u).1 (walk' y (walk x u).2).1, (walk' y (walk x u).2).2)) :
    Contributes whole (join x y) (join a b) (ms ++ ms') (ds ++ ds') (s + s') where
  once u := by rw [hwhole, h.once, h'.once, u.plus_plus]
  again u := by rw [hwhole, h.again, h'.again, u.plus_plus]
  tallies := h.tallies.append h'.tallies
  undeclared := by rw [List.filter_append, h.undeclared, h'.undeclared, List.flatMap_append]
  inferred := by
    unfold countRecorded
    rw [List.map_append, List.flatMap_append, List.length_append]
    exact congrArg₂ (· + ·) h.inferred h'.inferred

/-! ### Bodies -/

/-- A body that was walked through behind what was found before. -/
theorem UnitFlow.gather_behind (u : UnitFlow) (f : BodyFlow) :
    u.gather (f.behind u.reporter) = u.plus f.reporter.diagnostics.toList f.counts :=
  rfl

theorem UnitFlow.foldr_undeclared (declared : List TypeRef) (escapes : List Escape)
    (u : UnitFlow) :
    escapes.foldr (undeclared (declared.map TypeRef.simpleName)) u =
      u.plus (undeclaredReports declared escapes.reverse)
        { undeclared := (undeclaredReports declared escapes.reverse).length } := by
  induction escapes with
  | nil => rfl
  | cons e rest ih =>
    have hsplit : undeclaredReports declared (e :: rest).reverse =
        undeclaredReports declared rest.reverse ++ undeclaredReports declared [e] := by
      unfold undeclaredReports
      rw [List.reverse_cons, List.filter_append, List.map_append]
    have hany : ((declared.map TypeRef.simpleName).any fun name => catches name e.name) =
        declared.any fun type => catches type.simpleName e.name := List.any_map
    rw [List.foldr_cons, ih, undeclared, hany, hsplit]
    generalize undeclaredReports declared rest.reverse = ds
    cases hdeclared : declared.any fun type => catches type.simpleName e.name with
    | true =>
      have hnone : undeclaredReports declared [e] = [] := by simp [undeclaredReports, hdeclared]
      rw [hnone, List.append_nil, if_pos rfl]
    | false =>
      have hone : undeclaredReports declared [e] =
          [⟨.undeclaredException, e.span, [e.name], .warning⟩] := by
        simp [undeclaredReports, hdeclared]
      rw [hone, List.length_append, if_neg Bool.false_ne_true]
      exact u.plus_plus ds [⟨.undeclaredException, e.span, [e.name], .warning⟩]
        { undeclared := ds.length } { undeclared := 1 }

theorem tallies_of_undeclared {ds : List Diagnostic} (h : ∀ d ∈ ds, d.id = .undeclaredException) :
    Tallies ds { undeclared := ds.length } := by
  refine ⟨fun d hd => .inr (.inr (h d hd)), ?_, ?_, ?_⟩
  · exact (List.countP_eq_zero.mpr fun d hd => by simp [h d hd]).symm
  · exact (List.countP_eq_zero.mpr fun d hd => by simp [h d hd]).symm
  · exact (List.countP_eq_length.mpr fun d hd => by simp [h d hd]).symm

/-- A body reports no exceptions. -/
theorem BodyFlow.Counted.filter_undeclared {f : BodyFlow} (hf : f.Counted) :
    f.reporter.diagnostics.toList.filter (·.id == .undeclaredException) = [] := by
  rw [List.filter_eq_nil_iff, ← List.countP_eq_zero]
  exact hf.undeclared.symm

/-- A reporter in front of which nothing was reported. -/
def Reporter.blank : Reporter := { maxErrors := 0 }

/-- The body of a method, walked through behind nothing. -/
def MethodDecl.walkBody (m : MethodDecl) (statements : List Statement) : BodyFlow :=
  flowStatements statements (m.bodyFlow .blank)

theorem MethodDecl.flowStatements_bodyFlow (m : MethodDecl) (statements : List Statement)
    (r : Reporter) :
    flowStatements statements (m.bodyFlow r) = (m.walkBody statements).behind r := by
  obtain ⟨state, scopes, hstart⟩ := m.exists_bodyFlow
  have hbehind : m.bodyFlow r = (m.bodyFlow .blank).behind r := by
    rw [hstart, hstart]
    rfl
  rw [hbehind, flowStatements_behind]
  rfl

theorem MethodDecl.counted_walkBody (m : MethodDecl) (statements : List Statement) :
    (m.walkBody statements).Counted := by
  obtain ⟨state, scopes, hstart⟩ := m.exists_bodyFlow
  refine counted_flowStatements statements _ ?_
  rw [hstart]
  exact counted_of_empty rfl rfl rfl

theorem MethodDecl.escapes_walkBody {m : MethodDecl} {statements : List Statement}
    (hstatements : m.statements = some statements) :
    (m.walkBody statements).escapes = m.leaving.reverse := by
  rw [← m.escapes_eq .blank, MethodDecl.escapes, hstatements]
  rfl

/-! ### Methods -/

theorem MethodExtension.infersExceptions_recordExceptions (e : MethodExtension)
    (names : List String) : (e.recordExceptions names).infersExceptions = e.infersExceptions := by
  cases e <;> rfl

theorem MethodExtension.recordExceptions_twice (e : MethodExtension) (names names' : List String) :
    (e.recordExceptions names).recordExceptions names' = e.recordExceptions names' := by
  cases e <;> rfl

theorem MethodDecl.flow_of_infers {m : MethodDecl} {statements : List Statement}
    {e : MethodExtension} (hstatements : m.statements = some statements)
    (hextension : m.extension = some e) (hinfers : e.infersExceptions = true) (u : UnitFlow) :
    m.flow u = ({ m with extension := some (e.recordExceptions (escapeNames m.leaving)) },
      u.plus (m.walkBody statements).reporter.diagnostics.toList
        { (m.walkBody statements).counts with inferred := (escapeNames m.leaving).length }) := by
  have hnames : escapeNames ((m.walkBody statements).behind u.reporter).escapes =
      escapeNames m.leaving := by
    rw [← escapeNames_reverse m.leaving, ← escapes_walkBody hstatements]
    rfl
  simp only [MethodDecl.flow, hstatements, hextension, hinfers, if_true,
    m.flowStatements_bodyFlow statements, hnames]
  rfl

theorem MethodDecl.flow_of_declares {m : MethodDecl} {statements : List Statement}
    (hstatements : m.statements = some statements)
    (hinfers : m.infers = false) (u : UnitFlow) :
    m.flow u = (m, u.plus ((m.walkBody statements).reporter.diagnostics.toList ++ m.undeclared)
      ((m.walkBody statements).counts + { undeclared := m.undeclared.length })) := by
  have hundeclared : m.undeclared = undeclaredReports m.throws m.leaving := by
    unfold undeclared
    rw [hinfers]
    rfl
  rw [hundeclared, ← u.plus_plus, ← u.gather_behind, ← m.leaving.reverse_reverse,
    ← UnitFlow.foldr_undeclared, ← escapes_walkBody hstatements]
  cases hextension : m.extension with
  | none =>
    simp only [MethodDecl.flow, hstatements, hextension, m.flowStatements_bodyFlow statements]
    rfl
  | some e =>
    have hdeclares : e.infersExceptions = false := (infers_eq hextension).symm.trans hinfers
    simp only [MethodDecl.flow, hstatements, hextension, hdeclares,
      m.flowStatements_bodyFlow statements]
    rfl

/-- Nothing is recorded for a method without a body, or one that has to declare its exceptions. -/
theorem MethodDecl.withInferred_eq_self {m : MethodDecl}
    (h : m.statements = none ∨ m.infers = false) : m.withInferred = m ∧ m.recorded = [] := by
  unfold withInferred recorded
  split
  · rename_i statements e hstatements hextension
    have hdeclares : e.infersExceptions = false :=
      (infers_eq hextension).symm.trans (h.resolve_left (by simp [hstatements]))
    simp [hdeclares]
  · exact ⟨rfl, rfl⟩

theorem MethodDecl.exists_contributes_of_infers {m : MethodDecl} {statements : List Statement}
    (hstatements : m.statements = some statements) (hinfers : m.infers = true) :
    ∃ ds s, Contributes MethodDecl.flow m m.withInferred [m] ds s := by
  obtain ⟨e, hextension⟩ : ∃ e, m.extension = some e := by
    refine Option.ne_none_iff_exists'.mp fun hnone => ?_
    rw [infers, hnone] at hinfers
    cases hinfers
  have hconstruct : e.infersExceptions = true := (infers_eq hextension).symm.trans hinfers
  let names := escapeNames m.leaving
  let result : MethodDecl := { m with extension := some (e.recordExceptions names) }
  have hagain : (e.recordExceptions names).infersExceptions = true :=
    (e.infersExceptions_recordExceptions names).trans hconstruct
  have hresult : m.withInferred = result := by
    simp only [withInferred, hstatements, hextension, hconstruct, if_true, result, names]
  have hrecorded : result.recorded = names := by
    simp only [recorded, result, hstatements, hagain, if_true]
    exact MethodExtension.inferred_recordExceptions (e.infersExceptions_iff.mp hconstruct) names
  have hcounted := m.counted_walkBody statements
  refine ⟨_, { (m.walkBody statements).counts with inferred := names.length }, fun u => ?_,
    fun u => ?_, hcounted.of_same rfl rfl rfl, ?_, ?_⟩
  · rw [hresult]
    exact flow_of_infers hstatements hextension hconstruct u
  · -- The body of the result is that of the method, so the same exceptions leave it.
    have hflow := flow_of_infers (m := result) hstatements rfl hagain u
    rw [e.recordExceptions_twice] at hflow
    rw [hresult]
    exact hflow
  · rw [hcounted.filter_undeclared, List.flatMap_singleton, m.undeclared_eq_nil (.inr hinfers)]
  · rw [List.map_singleton, countRecorded_singleton, hresult, hrecorded]

/-- The analysis of a method records or reports what leaves its body. -/
theorem MethodDecl.exists_contributes (m : MethodDecl) :
    ∃ ds s, Contributes MethodDecl.flow m m.withInferred [m] ds s := by
  cases hstatements : m.statements with
  | none =>
    obtain ⟨hresult, hrecorded⟩ := m.withInferred_eq_self (.inl hstatements)
    have hflow : ∀ u, m.flow u = (m, u) := fun u => by simp only [MethodDecl.flow, hstatements]
    rw [hresult]
    refine ⟨[], {}, hflow, hflow, tallies_nil, ?_, ?_⟩
    · rw [List.flatMap_singleton, m.undeclared_eq_nil (.inl hstatements)]
      rfl
    · rw [List.map_singleton, countRecorded_singleton, hresult, hrecorded]
      rfl
  | some statements =>
    cases hinfers : m.infers with
    | true => exact exists_contributes_of_infers hstatements hinfers
    | false =>
      obtain ⟨hresult, hrecorded⟩ := m.withInferred_eq_self (.inr hinfers)
      have hcounted := m.counted_walkBody statements
      have hflow := flow_of_declares hstatements hinfers
      rw [hresult]
      refine ⟨_, _, hflow, hflow, hcounted.append (tallies_of_undeclared m.undeclared_id), ?_, ?_⟩
      · rw [List.filter_append, hcounted.filter_undeclared, List.flatMap_singleton,
          List.nil_append, List.filter_eq_self]
        exact fun d hd => by simp [m.undeclared_id d hd]
      · rw [List.map_singleton, countRecorded_singleton, hresult, hrecorded]
        rfl

/-! ### Units -/

theorem InitializerDecl.exists_contributes (i : InitializerDecl) :
    ∃ ds s, Contributes Member.flow (.initializer i) (.initializer i) [] ds s := by
  let f := ({ reporter := .blank } : BodyFlow).inScope (flowStatements i.block.statements)
  have hcounted : f.Counted :=
    counted_flowStatements i.block.statements (enter { reporter := .blank })
      (counted_of_empty rfl rfl rfl)
  have hflow : ∀ u, (Member.initializer i).flow u =
      (.initializer i, u.plus f.reporter.diagnostics.toList f.counts) := by
    intro u
    have hbehind := flowStatements_behind i.block.statements u.reporter
      (enter { reporter := .blank })
    rw [← u.gather_behind, Member.flow]
    exact congrArg (fun f => (Member.initializer i, u.gather f.leave)) hbehind
  exact ⟨_, _, hflow, hflow, hcounted, hcounted.filter_undeclared, rfl⟩

mutual

theorem TypeDecl.exists_contributes (t : TypeDecl) :
    ∃ ds s, Contributes TypeDecl.flow t (t.mapMethods MethodDecl.withInferred)
      t.everyMethod ds s := by
  match t with
  | ⟨kind, name, modifiers, annotations, typeParameters, superclass, interfaces, members, extent,
      bodyStart, bodyEnd, extension⟩ =>
    obtain ⟨ds, s, hmembers⟩ := exists_contributes_flowMembers members
    rw [TypeDecl.mapMethods, TypeDecl.everyMethod]
    let wrap : List Member → TypeDecl := fun members =>
      ⟨kind, name, modifiers, annotations, typeParameters, superclass, interfaces, members, extent,
        bodyStart, bodyEnd, extension⟩
    exact ⟨ds, s, hmembers.within wrap fun members u => by rw [TypeDecl.flow]⟩

theorem exists_contributes_flowMembers (ms : List Member) :
    ∃ ds s, Contributes flowMembers ms (mapMethodsOf MethodDecl.withInferred ms)
      (everyMethodOf ms) ds s := by
  match ms with
  | [] =>
    rw [mapMethodsOf, everyMethodOf]
    exact ⟨[], {}, .none fun u => by rw [flowMembers]⟩
  | m :: rest =>
    obtain ⟨ds, s, hfirst⟩ := m.exists_contributes
    obtain ⟨ds', s', hrest⟩ := exists_contributes_flowMembers rest
    rw [mapMethodsOf, everyMethodOf]
    exact ⟨_, _, hfirst.both hrest fun m rest u => by rw [flowMembers]⟩

theorem Member.exists_contributes (m : Member) :
    ∃ ds s, Contributes Member.flow m (m.mapMethods MethodDecl.withInferred)
      m.everyMethod ds s := by
  match m with
  | .field _ =>
    rw [Member.mapMethods, Member.everyMethod]
    exact ⟨[], {}, .none fun u => by rw [Member.flow]⟩
  | .initializer i =>
    rw [Member.mapMethods, Member.everyMethod]
    exact i.exists_contributes
  | .method m =>
    obtain ⟨ds, s, hmethod⟩ := m.exists_contributes
    rw [Member.mapMethods, Member.everyMethod]
    exact ⟨ds, s, hmethod.within Member.method fun m u => by rw [Member.flow]⟩
  | .type t =>
    obtain ⟨ds, s, htype⟩ := t.exists_contributes
    rw [Member.mapMethods, Member.everyMethod]
    exact ⟨ds, s, htype.within Member.type fun t u => by rw [Member.flow]⟩

end

theorem exists_contributes_flowTypes (ts : List TypeDecl) :
    ∃ ds s, Contributes flowTypes ts (ts.map (TypeDecl.mapMethods MethodDecl.withInferred))
      (ts.flatMap TypeDecl.everyMethod) ds s := by
  induction ts with
  | nil => exact ⟨[], {}, .none fun _ => rfl⟩
  | cons t rest ih =>
    obtain ⟨ds, s, hfirst⟩ := t.exists_contributes
    obtain ⟨ds', s', hrest⟩ := ih
    exact ⟨_, _, hfirst.both hrest fun t rest u => by rw [flowTypes]⟩

/-- **The analysis of a unit only adds what it says it adds.**  There are diagnostics and numbers,
the same for every reporter, that it adds to what the reporter has.  Of the unit nothing changes but
the exceptions recorded for constructs that infer them, which are the names of those that leave the
body, each once and in order; those that leave other methods are reported unless they are declared.
The numbers are those of the added diagnostics, and that of the recorded names.  The analysis of the
resulting unit leaves it as it is and adds the same again. -/
theorem CompilationUnit.flow_adds (unit : CompilationUnit) :
    ∃ added stats,
      (∀ r, unit.flow r = (unit.withInferred, ⟨r.reportAll added, stats⟩) ∧
        unit.withInferred.flow r = (unit.withInferred, ⟨r.reportAll added, stats⟩) ∧
        (r.reportAll added).diagnostics.toList = r.diagnostics.toList ++ added) ∧
      Tallies added stats ∧
      added.filter (·.id == .undeclaredException) =
        unit.everyMethod.flatMap MethodDecl.undeclared ∧
      stats.inferred = countRecorded unit.withInferred.everyMethod ∧
      ∀ m : MethodDecl, (escapeNames m.leaving).Pairwise (· < ·) ∧
        ∀ name, name ∈ escapeNames m.leaving ↔ ∃ e ∈ m.leaving, e.name = name := by
  obtain ⟨ds, s, htypes⟩ := exists_contributes_flowTypes unit.types
  have hplus : ∀ r : Reporter, UnitFlow.plus { reporter := r } ds s = ⟨r.reportAll ds, s⟩ :=
    fun r => congrArg (UnitFlow.mk _) s.zero_add
  refine ⟨ds, s, fun r => ⟨?_, ?_, r.diagnostics_reportAll ds⟩, htypes.tallies, htypes.undeclared,
    ?_, fun m => ⟨pairwise_escapeNames _, fun name => mem_escapeNames_iff⟩⟩
  · rw [CompilationUnit.flow, htypes.once, hplus]
    rfl
  · rw [CompilationUnit.flow, withInferred, htypes.again, hplus]
  · rw [unit.everyMethod_withInferred]
    exact htypes.inferred

end AspectLang
