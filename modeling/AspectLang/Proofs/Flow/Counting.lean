import AspectLang.Proofs.Flow.LeavingExceptions

/-! # Counting what a body reports

No step of the analysis looks at what was reported before, so a body is walked through in the same
way behind any diagnostics (`Statement.flow_behind`).  What is reported is counted at the same step:
a variable that is noted as reported stands for one diagnostic, and so does each statement without a
path to it (`Statement.counted`). -/

namespace AspectLang

/-! ### Diagnostics in front -/

/-- The reporter after diagnostics. -/
def Reporter.reportAll (r : Reporter) (ds : List Diagnostic) : Reporter := ds.foldl report r

theorem Reporter.reportAll_append (r : Reporter) (ds ds' : List Diagnostic) :
    r.reportAll (ds ++ ds') = (r.reportAll ds).reportAll ds' :=
  List.foldl_append

/-- Reports come behind those that are there. -/
theorem Reporter.diagnostics_reportAll (r : Reporter) (ds : List Diagnostic) :
    (r.reportAll ds).diagnostics.toList = r.diagnostics.toList ++ ds := by
  induction ds generalizing r with
  | nil => exact (List.append_nil _).symm
  | cons d rest ih =>
    rw [reportAll, List.foldl_cons, ← reportAll, ih, report, Array.toList_push, List.append_assoc]
    rfl

/-- The analysis of a body behind what a reporter has. -/
def BodyFlow.behind (r : Reporter) (f : BodyFlow) : BodyFlow :=
  { f with reporter := r.reportAll f.reporter.diagnostics.toList }

namespace BodyFlow

variable (r : Reporter) (f : BodyFlow)

@[simp] theorem behind_state : (f.behind r).state = f.state := rfl

@[simp] theorem behind_enter : (f.behind r).enter = f.enter.behind r := rfl

@[simp] theorem behind_leave : (f.behind r).leave = f.leave.behind r := rfl

@[simp] theorem behind_setState (state : PathState) :
    (f.behind r).setState state = (f.setState state).behind r := rfl

@[simp] theorem behind_setAssigned (assigned : List String) :
    (f.behind r).setAssigned assigned = (f.setAssigned assigned).behind r := rfl

@[simp] theorem behind_setAlive (alive : Bool) :
    (f.behind r).setAlive alive = (f.setAlive alive).behind r := rfl

@[simp] theorem behind_declare (name type : String) (assigned : Bool) :
    (f.behind r).declare name type assigned = (f.declare name type assigned).behind r := rfl

theorem behind_report (d : Diagnostic) :
    (r.reportAll f.reporter.diagnostics.toList).report d =
      r.reportAll (f.reporter.report d).diagnostics.toList := by
  have hpush : (f.reporter.report d).diagnostics.toList = f.reporter.diagnostics.toList ++ [d] :=
    Array.toList_push
  rw [hpush, Reporter.reportAll_append]
  rfl

@[simp] theorem behind_assign (name : String) :
    (f.behind r).assign name = (f.assign name).behind r := by
  unfold assign
  rw [apply_ite (behind r)]
  rfl

@[simp] theorem behind_throws (name : String) (span : Span) :
    (f.behind r).throws name span = (f.throws name span).behind r := by
  unfold throws
  rw [apply_ite (behind r)]
  rfl

@[simp] theorem behind_use (name : String) (span : Span) :
    (f.behind r).use name span = (f.use name span).behind r := by
  unfold use
  rw [apply_ite (behind r)]
  dsimp only [behind, Reporter.error]
  rw [← behind_report]
  rfl

@[simp] theorem behind_reach (span : Span) : (f.behind r).reach span = (f.reach span).behind r := by
  unfold reach
  rw [apply_ite (behind r)]
  dsimp only [behind, Reporter.warning]
  rw [← behind_report]
  rfl

@[simp] theorem behind_handlers (handlers : List (List String)) :
    { f.behind r with handlers } = ({ f with handlers } : BodyFlow).behind r := rfl

end BodyFlow

open BodyFlow

@[simp] theorem Expr.thrownType?_behind (e : Expr) (r : Reporter) (f : BodyFlow) :
    e.thrownType? (f.behind r) = e.thrownType? f :=
  (e.thrownType?_eq _).trans (e.thrownType?_eq f).symm

mutual

theorem Expr.flow_behind (e : Expr) (r : Reporter) (f : BodyFlow) :
    e.flow (f.behind r) = (e.flow f).behind r := by
  match e with
  | .literal _ _ _ | .this _ | .super _ | .annotationUse _ => rw [Expr.flow, Expr.flow]
  | .name n =>
    rw [Expr.flow, Expr.flow]
    cases n.segments with
    | nil => rfl
    | cons word _ => exact behind_use r f word.name word.span
  | .fieldAccess receiver _ _ => rw [Expr.flow, Expr.flow, receiver.flow_behind]
  | .send none _ arguments _ _ => rw [Expr.flow, Expr.flow, flowExprs_behind]
  | .send (some receiver) _ arguments _ _ =>
    rw [Expr.flow, Expr.flow, receiver.flow_behind, flowExprs_behind]
  | .new _ arguments _ => rw [Expr.flow, Expr.flow, flowExprs_behind]
  | .assign target operator value _ =>
    rw [Expr.flow, Expr.flow]
    cases target.word? with
    | none => dsimp only; rw [target.flow_behind, value.flow_behind]
    | some word =>
      dsimp only
      rw [target.flow_behind, ← apply_ite (behind r), value.flow_behind, behind_assign]
  | .binary left operator right _ =>
    rw [Expr.flow_binary, Expr.flow_binary, left.flow_behind, right.flow_behind,
      apply_ite (behind r)]
    rfl
  | .unary _ operand _ => rw [Expr.flow, Expr.flow, operand.flow_behind]
  | .conditional condition whenTrue whenFalse _ =>
    rw [Expr.flow, Expr.flow, condition.flow_behind, whenTrue.flow_behind, behind_state,
      behind_setAssigned, whenFalse.flow_behind]
    rfl
  | .instanceOf value _ _ => rw [Expr.flow, Expr.flow, value.flow_behind]
  | .paren inner _ => rw [Expr.flow, Expr.flow, inner.flow_behind]

theorem flowExprs_behind (es : List Expr) (r : Reporter) (f : BodyFlow) :
    flowExprs es (f.behind r) = (flowExprs es f).behind r := by
  match es with
  | [] => rw [flowExprs, flowExprs]
  | e :: rest => rw [flowExprs, flowExprs, e.flow_behind, flowExprs_behind rest]

end

@[simp] theorem flowOptional_behind (e : Option Expr) (r : Reporter) (f : BodyFlow) :
    flowOptional e (f.behind r) = (flowOptional e f).behind r := by
  cases e with
  | none => rfl
  | some e => exact e.flow_behind r f

@[simp] theorem flowThrow_behind (value : Expr) (span : Span) (r : Reporter) (f : BodyFlow) :
    flowThrow value span (f.behind r) = (flowThrow value span f).behind r := by
  unfold flowThrow
  rw [value.flow_behind]
  dsimp only
  rw [Expr.thrownType?_behind]
  cases value.thrownType? (value.flow f) with
  | none => rfl
  | some type => dsimp only; rw [behind_throws, behind_setAlive]

theorem flowGuarded_behind {statements : List Statement} {handlers : List CatchClause}
    (r : Reporter) (f : BodyFlow)
    (hblock : ∀ f : BodyFlow,
      flowStatements statements (f.behind r) = (flowStatements statements f).behind r)
    (hcatches : ∀ before joined (f : BodyFlow),
      flowCatches handlers before joined (f.behind r) =
        (flowCatches handlers before joined f).behind r) :
    flowGuarded statements handlers (f.behind r) =
      (flowGuarded statements handlers f).behind r := by
  have htry : ∀ caught,
      (f.behind r).handled caught (fun f => f.inScope (flowStatements statements)) =
        (f.handled caught fun f => f.inScope (flowStatements statements)).behind r := by
    intro caught
    dsimp only [handled, inScope]
    rw [behind_handlers, behind_enter, hblock]
    rfl
  unfold flowGuarded
  dsimp only
  rw [htry, hcatches]
  rfl

mutual

/-- **A statement is walked through in the same way behind any diagnostics.** -/
theorem Statement.flow_behind (s : Statement) (r : Reporter) (f : BodyFlow) :
    s.flow (f.behind r) = (s.flow f).behind r := by
  match s with
  | .block ⟨statements, _⟩ =>
    simp only [Statement.flow, inScope, behind_enter, flowStatements_behind, behind_leave]
  | .localVariable v =>
    simp only [Statement.flow, flowOptional_behind, behind_declare]
  | .expression value _ => simp only [Statement.flow, value.flow_behind]
  | .ifThen condition thenBranch none _ =>
    simp only [Statement.flow, condition.flow_behind, thenBranch.flow_behind, behind_state,
      behind_setState]
  | .ifThen condition thenBranch (some elseBranch) _ =>
    simp only [Statement.flow, condition.flow_behind, thenBranch.flow_behind, behind_state,
      behind_setState, elseBranch.flow_behind]
  | .whileLoop condition body _ =>
    simp only [Statement.flow, condition.flow_behind, body.flow_behind, behind_state,
      behind_setState, behind_setAlive]
  | .doLoop body condition _ =>
    simp only [Statement.flow, body.flow_behind, behind_setAlive, condition.flow_behind]
  | .forLoop init condition update body _ =>
    simp only [Statement.flow, behind_enter, flowInit_behind, flowOptional_behind, body.flow_behind,
      behind_setAlive, flowExprs_behind, behind_state, behind_setState, behind_leave]
  | .forEach element collection body _ =>
    simp only [Statement.flow, collection.flow_behind, behind_enter, behind_declare,
      body.flow_behind, behind_state, behind_setState, behind_setAlive, behind_leave]
  | .returning value _ => simp only [Statement.flow, flowOptional_behind, behind_setAlive]
  | .throwing value span => simp only [Statement.flow, flowThrow_behind]
  | .breaking _ _ | .continuing _ _ => simp only [Statement.flow, behind_setAlive]
  | .labeled _ body _ => simp only [Statement.flow, body.flow_behind, behind_setAlive]
  | .trying ⟨statements, _⟩ handlers none _ =>
    rw [Statement.flow_trying_none, Statement.flow_trying_none]
    exact flowGuarded_behind r f (flowStatements_behind statements r ·)
      (flowCatches_behind handlers · · r ·)
  | .trying ⟨statements, _⟩ handlers (some ⟨final, _⟩) _ =>
    rw [Statement.flow_trying_some, Statement.flow_trying_some,
      flowGuarded_behind r f (flowStatements_behind statements r ·)
        (flowCatches_behind handlers · · r ·)]
    simp only [flowFinal, inScope, behind_state, behind_setState, behind_enter,
      flowStatements_behind, behind_leave]
  | .assertion condition message _ =>
    simp only [Statement.flow, condition.flow_behind, flowOptional_behind, behind_state,
      behind_setState]
  | .constructorCall _ arguments _ => simp only [Statement.flow, flowExprs_behind]
  | .empty _ => simp only [Statement.flow]

theorem flowStatements_behind (ss : List Statement) (r : Reporter) (f : BodyFlow) :
    flowStatements ss (f.behind r) = (flowStatements ss f).behind r := by
  match ss with
  | [] => rw [flowStatements, flowStatements]
  | s :: rest =>
    rw [flowStatements, flowStatements, behind_reach, s.flow_behind, flowStatements_behind rest]

theorem flowInit_behind (ss : List Statement) (r : Reporter) (f : BodyFlow) :
    flowInit ss (f.behind r) = (flowInit ss f).behind r := by
  match ss with
  | [] => rw [flowInit, flowInit]
  | s :: rest => rw [flowInit, flowInit, s.flow_behind, flowInit_behind rest]

theorem flowCatches_behind (handlers : List CatchClause) (before : List String) (joined : PathState)
    (r : Reporter) (f : BodyFlow) :
    flowCatches handlers before joined (f.behind r) =
      (flowCatches handlers before joined f).behind r := by
  match handlers with
  | [] => rw [flowCatches, flowCatches, behind_setState]
  | ⟨parameter, ⟨statements, _⟩, _⟩ :: rest =>
    simp only [flowCatches, inScope, behind_setState, behind_enter, behind_declare,
      flowStatements_behind, behind_leave, behind_state, flowCatches_behind rest]

end

/-! ### What is counted -/

instance : Add FlowCounts where
  add s t :=
    ⟨s.bodies + t.bodies, s.uninitialized + t.uninitialized, s.unreachable + t.unreachable,
      s.undeclared + t.undeclared, s.inferred + t.inferred⟩

theorem FlowCounts.add_assoc (s t v : FlowCounts) : s + t + v = s + (t + v) := by
  change FlowCounts.mk _ _ _ _ _ = FlowCounts.mk _ _ _ _ _
  congr 1 <;> exact Nat.add_assoc _ _ _

theorem FlowCounts.zero_add (s : FlowCounts) : {} + s = s := by
  change FlowCounts.mk _ _ _ _ _ = FlowCounts.mk _ _ _ _ _
  congr 1 <;> exact Nat.zero_add _

/-- Diagnostics are of the three kinds that the analysis reports, and `stats` has the number of each
kind. -/
structure Tallies (ds : List Diagnostic) (stats : FlowCounts) : Prop where
  kinds : ∀ d ∈ ds,
    d.id = .uninitializedLocal ∨ d.id = .unreachableCode ∨ d.id = .undeclaredException
  uninitialized : stats.uninitialized = ds.countP (·.id == .uninitializedLocal)
  unreachable : stats.unreachable = ds.countP (·.id == .unreachableCode)
  undeclared : stats.undeclared = ds.countP (·.id == .undeclaredException)

theorem tallies_nil : Tallies [] {} := ⟨nofun, rfl, rfl, rfl⟩

theorem Tallies.append {ds ds' : List Diagnostic} {s s' : FlowCounts} (h : Tallies ds s)
    (h' : Tallies ds' s') : Tallies (ds ++ ds') (s + s') where
  kinds d hd := (List.mem_append.mp hd).elim (h.kinds d) (h'.kinds d)
  uninitialized := by rw [List.countP_append, ← h.uninitialized, ← h'.uninitialized]; rfl
  unreachable := by rw [List.countP_append, ← h.unreachable, ← h'.unreachable]; rfl
  undeclared := by rw [List.countP_append, ← h.undeclared, ← h'.undeclared]; rfl

/-- Bodies and inferred exceptions are counted apart from the diagnostics. -/
theorem Tallies.of_same {ds : List Diagnostic} {s s' : FlowCounts} (h : Tallies ds s)
    (huninitialized : s'.uninitialized = s.uninitialized)
    (hunreachable : s'.unreachable = s.unreachable) (hundeclared : s'.undeclared = s.undeclared) :
    Tallies ds s' :=
  ⟨h.kinds, huninitialized.trans h.uninitialized, hunreachable.trans h.unreachable,
    hundeclared.trans h.undeclared⟩

/-- What the analysis of a body counted. -/
def BodyFlow.counts (f : BodyFlow) : FlowCounts :=
  { bodies := 1, uninitialized := f.uninitialized, unreachable := f.unreachable }

/-- What the analysis of a body reported is what it counted. -/
def BodyFlow.Counted (f : BodyFlow) : Prop := Tallies f.reporter.diagnostics.toList f.counts

section

variable {f : BodyFlow}

/-- Nothing was reported. -/
theorem BodyFlow.counted_of_empty (hdiagnostics : f.reporter.diagnostics = #[])
    (hreported : f.reported = []) (hunreachable : f.unreachable = 0) : f.Counted := by
  unfold Counted counts uninitialized
  rw [hdiagnostics, hreported, hunreachable]
  exact ⟨nofun, rfl, rfl, rfl⟩

theorem BodyFlow.Counted.use (hf : f.Counted) (name : String) (span : Span) :
    (f.use name span).Counted := by
  unfold BodyFlow.use
  split
  · exact hf
  · have hreport : Tallies [.of .uninitializedLocal span [name]] { uninitialized := 1 } :=
      ⟨by simp [Diagnostic.of], rfl, rfl, rfl⟩
    have hboth := hf.append hreport
    rwa [← Array.toList_push] at hboth

theorem BodyFlow.Counted.reach (hf : f.Counted) (span : Span) : (f.reach span).Counted := by
  unfold BodyFlow.reach
  split
  · exact hf
  · have hreport : Tallies [⟨.unreachableCode, span, [], .warning⟩] { unreachable := 1 } :=
      ⟨by simp, rfl, rfl, rfl⟩
    have hboth := hf.append hreport
    rwa [← Array.toList_push] at hboth

theorem BodyFlow.Counted.assign (hf : f.Counted) (name : String) : (f.assign name).Counted := by
  unfold BodyFlow.assign
  split
  · exact hf
  · exact hf

theorem BodyFlow.Counted.throws (hf : f.Counted) (name : String) (span : Span) :
    (f.throws name span).Counted := by
  unfold BodyFlow.throws
  split
  · exact hf
  · exact hf

end

mutual

theorem Expr.counted (e : Expr) {f : BodyFlow} (hf : f.Counted) : (e.flow f).Counted := by
  match e with
  | .literal _ _ _ | .this _ | .super _ | .annotationUse _ => rw [Expr.flow]; exact hf
  | .name n =>
    rw [Expr.flow]
    cases n.segments with
    | nil => exact hf
    | cons word _ => exact hf.use word.name word.span
  | .fieldAccess receiver _ _ => rw [Expr.flow]; exact receiver.counted hf
  | .send none _ arguments _ _ => rw [Expr.flow]; exact counted_flowExprs arguments hf
  | .send (some receiver) _ arguments _ _ =>
    rw [Expr.flow]
    exact counted_flowExprs arguments (receiver.counted hf)
  | .new _ arguments _ => rw [Expr.flow]; exact counted_flowExprs arguments hf
  | .assign target operator value _ =>
    rw [Expr.flow]
    cases target.word? with
    | none => exact value.counted (target.counted hf)
    | some word =>
      refine (value.counted ?_).assign word
      split
      · exact target.counted hf
      · exact hf
  | .binary left operator right _ =>
    rw [Expr.flow_binary]
    split
    · exact right.counted (left.counted hf)
    · exact right.counted (left.counted hf)
  | .unary _ operand _ => rw [Expr.flow]; exact operand.counted hf
  | .conditional condition whenTrue whenFalse _ =>
    rw [Expr.flow]
    have htrue := whenTrue.counted (condition.counted hf)
    exact whenFalse.counted (f := (whenTrue.flow (condition.flow f)).setAssigned _) htrue
  | .instanceOf value _ _ => rw [Expr.flow]; exact value.counted hf
  | .paren inner _ => rw [Expr.flow]; exact inner.counted hf

theorem counted_flowExprs (es : List Expr) {f : BodyFlow} (hf : f.Counted) :
    (flowExprs es f).Counted := by
  match es with
  | [] => rw [flowExprs]; exact hf
  | e :: rest => rw [flowExprs]; exact counted_flowExprs rest (e.counted hf)

end

theorem counted_flowOptional (e : Option Expr) {f : BodyFlow} (hf : f.Counted) :
    (flowOptional e f).Counted := by
  cases e with
  | none => exact hf
  | some e => exact e.counted hf

theorem counted_flowThrow (value : Expr) (span : Span) {f : BodyFlow} (hf : f.Counted) :
    (flowThrow value span f).Counted := by
  unfold flowThrow
  dsimp only
  cases value.thrownType? (value.flow f) with
  | none => exact value.counted hf
  | some type => exact (value.counted hf).throws type span

theorem counted_flowGuarded {statements : List Statement} {handlers : List CatchClause}
    {f : BodyFlow} (hf : f.Counted)
    (hblock : ∀ f : BodyFlow, f.Counted → (flowStatements statements f).Counted)
    (hcatches : ∀ before joined (f : BodyFlow), f.Counted →
      (flowCatches handlers before joined f).Counted) :
    (flowGuarded statements handlers f).Counted :=
  hcatches _ _ _ (hblock (enter { f with handlers := _ }) hf)

mutual

/-- **The analysis counts what it reports.** -/
theorem Statement.counted (s : Statement) (f : BodyFlow) (hf : f.Counted) : (s.flow f).Counted := by
  match s with
  | .block ⟨statements, _⟩ =>
    rw [Statement.flow]
    exact counted_flowStatements statements f.enter hf
  | .localVariable v => rw [Statement.flow]; exact counted_flowOptional v.initializer hf
  | .expression value _ => rw [Statement.flow]; exact value.counted hf
  | .ifThen condition thenBranch none _ =>
    rw [Statement.flow]
    exact thenBranch.counted _ (condition.counted hf)
  | .ifThen condition thenBranch (some elseBranch) _ =>
    rw [Statement.flow]
    have hthen := thenBranch.counted _ (condition.counted hf)
    exact elseBranch.counted (setState (condition.flow f).state _) hthen
  | .whileLoop condition body _ => rw [Statement.flow]; exact body.counted _ (condition.counted hf)
  | .doLoop body condition _ =>
    rw [Statement.flow]
    have hbody := body.counted f hf
    exact condition.counted (f := (body.flow f).setAlive true) hbody
  | .forLoop init condition update body _ =>
    rw [Statement.flow]
    have hhead := counted_flowOptional condition (counted_flowInit init f.enter hf)
    have hbody := body.counted _ hhead
    exact counted_flowExprs update (f := (body.flow _).setAlive true) hbody
  | .forEach element collection body _ =>
    rw [Statement.flow]
    have hcollection := collection.counted hf
    exact body.counted ((collection.flow f).enter.declare element.name.name
      element.type.simpleName true) hcollection
  | .returning value _ => rw [Statement.flow]; exact counted_flowOptional value hf
  | .throwing value span => rw [Statement.flow]; exact counted_flowThrow value span hf
  | .breaking _ _ | .continuing _ _ => rw [Statement.flow]; exact hf
  | .labeled _ body _ => rw [Statement.flow]; exact body.counted f hf
  | .trying ⟨statements, _⟩ handlers none _ =>
    rw [Statement.flow_trying_none]
    exact counted_flowGuarded hf (counted_flowStatements statements)
      (counted_flowCatches handlers)
  | .trying ⟨statements, _⟩ handlers (some ⟨final, _⟩) _ =>
    rw [Statement.flow_trying_some]
    have hguarded := counted_flowGuarded hf (counted_flowStatements statements)
      (counted_flowCatches handlers)
    exact counted_flowStatements final
      ((flowGuarded statements handlers f).setState ⟨f.state.assigned, true⟩).enter hguarded
  | .assertion condition message _ =>
    rw [Statement.flow]
    exact counted_flowOptional message (condition.counted hf)
  | .constructorCall _ arguments _ => rw [Statement.flow]; exact counted_flowExprs arguments hf
  | .empty _ => rw [Statement.flow]; exact hf

theorem counted_flowStatements (ss : List Statement) (f : BodyFlow) (hf : f.Counted) :
    (flowStatements ss f).Counted := by
  match ss with
  | [] => rw [flowStatements]; exact hf
  | s :: rest =>
    rw [flowStatements]
    exact counted_flowStatements rest _ (s.counted _ (hf.reach s.span))

theorem counted_flowInit (ss : List Statement) (f : BodyFlow) (hf : f.Counted) :
    (flowInit ss f).Counted := by
  match ss with
  | [] => rw [flowInit]; exact hf
  | s :: rest => rw [flowInit]; exact counted_flowInit rest _ (s.counted f hf)

theorem counted_flowCatches (handlers : List CatchClause) (before : List String)
    (joined : PathState) (f : BodyFlow) (hf : f.Counted) :
    (flowCatches handlers before joined f).Counted := by
  match handlers with
  | [] => rw [flowCatches]; exact hf
  | ⟨parameter, ⟨statements, _⟩, _⟩ :: rest =>
    rw [flowCatches]
    have hblock := counted_flowStatements statements (((f.setState ⟨before, true⟩).enter.declare
      parameter.name.name parameter.type.simpleName true).enter) hf
    exact counted_flowCatches rest before _ _ hblock

end

end AspectLang
