import AspectLang.Proofs.Flow.Exceptions
import Mathlib.Data.List.Forall2

/-! # What becomes of the exceptions that leave a body

The analysis of a unit goes through the bodies one after the other, and each of them starts without
handlers and with its parameters in scope (`MethodDecl.bodyFlow_eq`).  So all checked exceptions that
leave a body by a `throw` are found, and an aspect construct records them, while an ordinary method
declares them or has them reported (`CompilationUnit.thrown_accounted`). -/

namespace AspectLang

open BodyFlow

/-! ### Methods and initializers -/

mutual

/-- The methods in a type, and in the types in it. -/
def TypeDecl.everyMethod : TypeDecl → List MethodDecl
  | ⟨_, _, _, _, _, _, _, members, _, _, _, _⟩ => everyMethodOf members

/-- The methods in members. -/
def everyMethodOf : List Member → List MethodDecl
  | [] => []
  | m :: rest => m.everyMethod ++ everyMethodOf rest

/-- The methods in a member. -/
def Member.everyMethod : Member → List MethodDecl
  | .field _ | .initializer _ => []
  | .method m => [m]
  | .type t => t.everyMethod

end

mutual

/-- The initializers in a type, and in the types in it. -/
def TypeDecl.everyInitializer : TypeDecl → List InitializerDecl
  | ⟨_, _, _, _, _, _, _, members, _, _, _, _⟩ => everyInitializerOf members

/-- The initializers in members. -/
def everyInitializerOf : List Member → List InitializerDecl
  | [] => []
  | m :: rest => m.everyInitializer ++ everyInitializerOf rest

/-- The initializers in a member. -/
def Member.everyInitializer : Member → List InitializerDecl
  | .field _ | .method _ => []
  | .initializer i => [i]
  | .type t => t.everyInitializer

end

/-- The methods of a unit. -/
def CompilationUnit.everyMethod (unit : CompilationUnit) : List MethodDecl :=
  unit.types.flatMap TypeDecl.everyMethod

/-- The initializers of a unit. -/
def CompilationUnit.everyInitializer (unit : CompilationUnit) : List InitializerDecl :=
  unit.types.flatMap TypeDecl.everyInitializer

/-- The parameters of a method with the simple names of their types, the last one first. -/
def MethodDecl.localTypes (m : MethodDecl) : LocalTypes :=
  (m.parameters.map fun p => (p.name.name, p.type.simpleName)).reverse

/-- Whether a path through the body of a method ends with a `throw` of an exception that nothing in
the body catches. -/
def MethodDecl.Throws (m : MethodDecl) (name : String) : Prop :=
  ∃ statements, m.statements = some statements ∧
    endingsOf m.localTypes statements (.raised name true)

/-- Whether a path through an initializer ends with such a `throw`. -/
def InitializerDecl.Throws (i : InitializerDecl) (name : String) : Prop :=
  endingsOf [] i.block.statements (.raised name true)

/-- The exceptions that leave the body of a method, as its analysis notes them. -/
def MethodDecl.escapes (m : MethodDecl) (r : Reporter) : List Escape :=
  match m.statements with
  | none => []
  | some statements => (flowStatements statements (m.bodyFlow r)).escapes

/-- The exceptions that leave an initializer, as its analysis notes them. -/
def InitializerDecl.escapes (i : InitializerDecl) (r : Reporter) : List Escape :=
  (({ reporter := r } : BodyFlow).inScope (flowStatements i.block.statements)).escapes

/-- Advice, and the methods and constructors that an aspect adds to other types. -/
def MethodExtension.IsInferring (e : MethodExtension) : Prop :=
  (∃ a, e = .advice a) ∨ ∃ i, e = .interType i ∧ i.kind ≠ .field

/-- The exceptions that are recorded. -/
def MethodExtension.inferred : MethodExtension → List String
  | .advice a => a.inferred
  | .interType i => i.inferred
  | .pointcut _ | .declare _ | .placeholder _ => []

theorem MethodExtension.infersExceptions_iff (e : MethodExtension) :
    e.infersExceptions = true ↔ e.IsInferring := by
  cases e <;> simp [infersExceptions, IsInferring]

theorem MethodExtension.inferred_recordExceptions {e : MethodExtension} (h : e.IsInferring)
    (names : List String) : (e.recordExceptions names).inferred = names := by
  obtain ⟨a, rfl⟩ | ⟨i, rfl, -⟩ := h
  · rfl
  · rfl

/-! ### Bodies -/

section

variable {name : String} {u v : UnitFlow}

/-- The body of a method starts with the parameters in scope, without handlers, and nothing has
left it. -/
theorem MethodDecl.bodyFlow_eq (m : MethodDecl) (r : Reporter) :
    (m.bodyFlow r).scopes = [m.localTypes] ∧ (m.bodyFlow r).handlers = [] := by
  have hall : ∀ (parameters : List Parameter) (f : BodyFlow) (scope : LocalTypes),
      f.scopes = [scope] → f.handlers = [] →
      (parameters.foldl (fun f p => f.declare p.name.name p.type.simpleName true) f).scopes =
          [(parameters.map fun p => (p.name.name, p.type.simpleName)).reverse ++ scope] ∧
        (parameters.foldl (fun f p => f.declare p.name.name p.type.simpleName true) f).handlers =
          [] := by
    intro parameters
    induction parameters with
    | nil => exact fun f scope hscopes hhandlers => ⟨hscopes, hhandlers⟩
    | cons p rest ih =>
        intro f scope hscopes hhandlers
        have hdeclare := ih (f.declare p.name.name p.type.simpleName true)
          ((p.name.name, p.type.simpleName) :: scope) (by rw [declare, hscopes]) hhandlers
        simpa using hdeclare
  have hparameters := hall m.parameters { reporter := r } [] rfl rfl
  rw [List.append_nil] at hparameters
  exact hparameters

/-- **What a method throws is noted.** -/
theorem MethodDecl.Throws.mem_escapes {m : MethodDecl} (h : m.Throws name)
    (hchecked : isUnchecked name = false) (r : Reporter) :
    name ∈ (m.escapes r).map Escape.name := by
  obtain ⟨statements, hstatements, hthrows⟩ := h
  obtain ⟨hscopes, hhandlers⟩ := m.bodyFlow_eq r
  have hrecords := records_flowStatements statements (m.bodyFlow r) (by rw [hscopes]; exact nofun)
  rw [hscopes, List.flatten_singleton] at hrecords
  unfold escapes
  rw [hstatements]
  exact hrecords name hthrows hchecked (by rw [isHandled, hhandlers]; rfl)

theorem InitializerDecl.Throws.mem_escapes {i : InitializerDecl} (h : i.Throws name)
    (hchecked : isUnchecked name = false) (r : Reporter) :
    name ∈ (i.escapes r).map Escape.name :=
  records_inScope (records_flowStatements i.block.statements · ·) { reporter := r } name h hchecked
    rfl

/-! ### What is done about them -/

/-- From one reporter to a later one an exception is reported as not declared. -/
def Reporter.Undeclares (name : String) (r later : Reporter) : Prop :=
  ∃ more, later.diagnostics.toList = r.diagnostics.toList ++ more ∧
    ∃ d ∈ more, d.id = .undeclaredException ∧ d.arguments = [name]

theorem Reporter.Undeclares.mono {r s t later : Reporter} (h : s.Undeclares name t)
    (hr : r.Precedes s) (ht : t.Precedes later) : r.Undeclares name later := by
  obtain ⟨first, hfirst⟩ := hr
  obtain ⟨last, hlast⟩ := ht
  obtain ⟨more, hmore, d, hd, hnamed⟩ := h
  refine ⟨first ++ (more ++ last), ?_, d, ?_, hnamed⟩
  · rw [← hlast, hmore, ← hfirst, List.append_assoc, List.append_assoc]
  · exact List.mem_append_right _ (List.mem_append_left _ hd)

theorem mem_escapeNames {escapes : List Escape} (h : name ∈ escapes.map Escape.name) :
    name ∈ escapeNames escapes :=
  List.mem_mergeSort.mpr (List.mem_eraseDups.mpr h)

/-- An exception that leaves a method is declared or reported. -/
theorem UnitFlow.declared_or_undeclares {declared : List String} {escapes : List Escape}
    (h : name ∈ escapes.map Escape.name) (u : UnitFlow) :
    (∃ caught ∈ declared, Handles caught name) ∨
      u.reporter.Undeclares name (escapes.foldr (UnitFlow.undeclared declared) u).reporter := by
  induction escapes with
  | nil => cases h
  | cons e rest ih =>
      have hrest := UnitFlow.precedes_foldr_undeclared declared rest u
      rw [List.foldr_cons]
      generalize rest.foldr (UnitFlow.undeclared declared) u = v at ih hrest
      unfold UnitFlow.undeclared
      rcases List.mem_cons.mp h with rfl | h
      · split
        · rename_i hany
          obtain ⟨caught, hcaught, hcatches⟩ := List.any_eq_true.mp hany
          exact .inl ⟨caught, hcaught, catches_iff.mp hcatches⟩
        · have hreported : v.reporter.Undeclares e.name
              (v.reporter.warning .undeclaredException e.span [e.name]) :=
            ⟨[_], Array.toList_push, _, List.mem_singleton_self _, rfl, rfl⟩
          exact .inr (hreported.mono hrest (.refl _))
      · refine (ih h).imp_right fun hreported => hreported.mono (.refl _) ?_
        split
        · exact .refl _
        · exact ⟨[_], Array.toList_push.symm⟩

/-- What becomes of a checked exception that a method throws: the analysis notes it, an aspect
construct has it recorded, and any other method declares it or has it reported. -/
structure MethodDecl.Accounts (name : String) (r later : Reporter) (m result : MethodDecl) :
    Prop where
  noted : ∀ r', name ∈ (m.escapes r').map Escape.name
  recorded : ∀ e, m.extension = some e → e.IsInferring →
    ∃ e', result.extension = some e' ∧ name ∈ e'.inferred
  declared : (∀ e, m.extension = some e → ¬ e.IsInferring) →
    (∃ type ∈ m.throws, Handles type.simpleName name) ∨ r.Undeclares name later

theorem MethodDecl.Accounts.mono {r s t later : Reporter} {m result : MethodDecl}
    (h : m.Accounts name s t result) (hr : r.Precedes s) (ht : t.Precedes later) :
    m.Accounts name r later result :=
  ⟨h.noted, h.recorded, fun hother => (h.declared hother).imp_right fun h => h.mono hr ht⟩

theorem MethodDecl.Throws.accounts {m : MethodDecl} (h : m.Throws name)
    (hchecked : isUnchecked name = false) (u : UnitFlow) :
    m.Accounts name u.reporter (m.flow u).2.reporter (m.flow u).1 := by
  have hescapes := h.mem_escapes hchecked
  have hnoted := hescapes u.reporter
  obtain ⟨statements, hstatements, -⟩ := h
  simp only [MethodDecl.escapes, hstatements] at hnoted
  refine ⟨hescapes, fun e he hinferring => ?_, fun hother => ?_⟩
  · simp only [MethodDecl.flow, hstatements, he, e.infersExceptions_iff.mpr hinferring, if_true]
    refine ⟨_, rfl, ?_⟩
    rw [MethodExtension.inferred_recordExceptions hinferring]
    exact mem_escapeNames hnoted
  · have hbody := (onward_flowStatements statements (m.bodyFlow u.reporter)).precedes
    rw [m.reporter_bodyFlow] at hbody
    have hflow : (m.flow u).2 = (flowStatements statements (m.bodyFlow u.reporter)).escapes.foldr
        (UnitFlow.undeclared (m.throws.map TypeRef.simpleName))
        (u.gather (flowStatements statements (m.bodyFlow u.reporter))) := by
      simp only [MethodDecl.flow, hstatements]
      split
      · rename_i e he
        rw [if_neg fun hinfers => hother e he (e.infersExceptions_iff.mp hinfers)]
      · rfl
    rw [hflow]
    refine (UnitFlow.declared_or_undeclares hnoted _).imp (fun hdeclared => ?_)
      fun hreported => hreported.mono hbody (.refl _)
    obtain ⟨caught, hcaught, hhandles⟩ := hdeclared
    obtain ⟨type, htype, rfl⟩ := List.mem_map.mp hcaught
    exact ⟨type, htype, hhandles⟩

/-! ### Units -/

/-- The methods that an analysis leads to, one for each method, with what becomes of what they
throw. -/
def AllAccount (name : String) (r later : Reporter) (ms results : List MethodDecl) : Prop :=
  List.Forall₂ (fun m result => m.Throws name → m.Accounts name r later result) ms results

theorem AllAccount.mono {r s t later : Reporter} {ms results : List MethodDecl}
    (h : AllAccount name s t ms results) (hr : r.Precedes s) (ht : t.Precedes later) :
    AllAccount name r later ms results :=
  List.Forall₂.imp (fun _ _ h hthrows => (h hthrows).mono hr ht) h

theorem AllAccount.append {r later : Reporter} {ms ms' results results' : List MethodDecl}
    (h : AllAccount name r later ms results) (h' : AllAccount name r later ms' results') :
    AllAccount name r later (ms ++ ms') (results ++ results') :=
  List.rel_append h h'

mutual

theorem TypeDecl.allAccount (hchecked : isUnchecked name = false) (t : TypeDecl) (u : UnitFlow) :
    AllAccount name u.reporter (t.flow u).2.reporter t.everyMethod (t.flow u).1.everyMethod := by
  match t with
  | ⟨_, _, _, _, _, _, _, members, _, _, _, _⟩ =>
    rw [TypeDecl.flow, TypeDecl.everyMethod]
    exact allAccount_flowMembers hchecked members u

theorem allAccount_flowMembers (hchecked : isUnchecked name = false) (ms : List Member)
    (u : UnitFlow) :
    AllAccount name u.reporter (flowMembers ms u).2.reporter (everyMethodOf ms)
      (everyMethodOf (flowMembers ms u).1) := by
  match ms with
  | [] => rw [flowMembers, everyMethodOf]; exact .nil
  | m :: rest =>
    rw [flowMembers, everyMethodOf, everyMethodOf]
    exact ((m.allAccount hchecked u).mono (.refl _) (flowMembers_reporter rest _).1).append
      ((allAccount_flowMembers hchecked rest _).mono (m.flow_reporter u).1 (.refl _))

theorem Member.allAccount (hchecked : isUnchecked name = false) (m : Member) (u : UnitFlow) :
    AllAccount name u.reporter (m.flow u).2.reporter m.everyMethod (m.flow u).1.everyMethod := by
  match m with
  | .field _ | .initializer _ => rw [Member.flow, Member.everyMethod]; exact .nil
  | .method m =>
    rw [Member.flow, Member.everyMethod, Member.everyMethod]
    exact .cons (fun hthrows => hthrows.accounts hchecked u) .nil
  | .type t =>
    rw [Member.flow, Member.everyMethod, Member.everyMethod]
    exact t.allAccount hchecked u

end

/-- **Checked exceptions that leave a body are inferred.**  If a path through the body of a method or
an initializer ends with a `throw` of a checked exception that the body does not catch, the analysis
notes the exception.  Advice and the methods and constructors that aspects add to other types have it
recorded; any other method declares it, or it is reported. -/
theorem CompilationUnit.thrown_accounted (unit : CompilationUnit) (r : Reporter)
    (hchecked : isUnchecked name = false) :
    List.Forall₂ (fun m result => m.Throws name →
        m.Accounts name r (unit.flow r).2.reporter result)
      unit.everyMethod (unit.flow r).1.everyMethod ∧
    ∀ i ∈ unit.everyInitializer, i.Throws name → ∀ r', name ∈ (i.escapes r').map Escape.name := by
  have htypes : ∀ (ts : List TypeDecl) (u : UnitFlow),
      u.reporter.Precedes (flowTypes ts u).2.reporter ∧
        AllAccount name u.reporter (flowTypes ts u).2.reporter (ts.flatMap TypeDecl.everyMethod)
          ((flowTypes ts u).1.flatMap TypeDecl.everyMethod) := by
    intro ts
    induction ts with
    | nil => exact fun u => ⟨.refl _, .nil⟩
    | cons t rest ih =>
      intro u
      have hfirst := (t.flow_reporter u).1
      obtain ⟨hrest, haccounts⟩ := ih (t.flow u).2
      rw [flowTypes, List.flatMap_cons, List.flatMap_cons]
      exact ⟨hfirst.trans hrest,
        ((t.allAccount hchecked u).mono (.refl _) hrest).append (haccounts.mono hfirst (.refl _))⟩
  exact ⟨(htypes unit.types { reporter := r }).2,
    fun i _ hthrows => hthrows.mem_escapes hchecked⟩

end

/-- A type whose name is one word. -/
def TypeRef.ofWord (word : String) : TypeRef := .ofName ⟨[⟨word, {}⟩]⟩

/-- A method `void m() { try { throw new E(); } catch (F f) { } }`. -/
def throwingMethod : MethodDecl where
  kind := .method
  selector := "m"
  statements := some [.trying ⟨[.throwing (.new (.ofWord "E") [] {}) {}], {}⟩
    [⟨⟨⟨"f", {}⟩, .ofWord "F", 0, [], false, {}⟩, ⟨[], {}⟩, {}⟩] none {}]

/-- A unit with this method. -/
def throwingUnit : CompilationUnit where
  types := [{ TypeDecl.new .classType with name := "A", members := [.method throwingMethod] }]

theorem throwingMethod_throws : throwingMethod.Throws "E" := by
  refine ⟨_, rfl, ?_⟩
  simp only [endingsOf, Statement.endings]
  have hthrow : Endings.seq .pass (Expr.throwEndings [] (.new (.ofWord "E") [] {}))
      (.raised "E" true) := .inl ⟨.inl rfl, rfl⟩
  refine .inr ⟨nofun, .inr ⟨.inr ⟨nofun, hthrow⟩, fun name thrown heq c hc => ?_⟩⟩
  cases heq
  obtain rfl : c = "F" := List.mem_singleton.mp hc
  simp [Handles]

/-- What is thrown past a handler for another type is noted, and reported. -/
theorem throwingUnit_reported : isUnchecked "E" = false ∧ throwingMethod.Throws "E" ∧
    ∃ result, (throwingUnit.flow (.new 100)).1.everyMethod = [result] ∧
      throwingMethod.Accounts "E" (.new 100) (throwingUnit.flow (.new 100)).2.reporter result := by
  have haccounts := (throwingUnit.thrown_accounted (.new 100) (show isUnchecked "E" = false by decide)).1
  obtain ⟨result, rest, haccount, hrest, hresult⟩ := List.forall₂_cons_left_iff.mp haccounts
  obtain rfl := List.forall₂_nil_left_iff.mp hrest
  exact ⟨by decide, throwingMethod_throws, result, hresult, haccount throwingMethod_throws⟩

end AspectLang
