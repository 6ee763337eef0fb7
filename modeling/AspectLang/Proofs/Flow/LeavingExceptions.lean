import AspectLang.Proofs.Flow.InferredExceptions
import AspectLang.Proofs.Lists
import Mathlib.Data.String.Basic

/-! # Exceptions that leave a body, read off the text

Which exceptions the analysis notes can be read off a body: those of each `throw` whose operand has
a known type, if the exception is checked and no `try` around the `throw` has a handler for it
(`Statement.leaving`).  Neither the path states nor what was reported before has a part in it: the
analysis notes these and no others, in the order of the text (`Statement.lets`), and a method lets
out the same ones whatever was found before (`MethodDecl.escapes_eq`). -/

namespace AspectLang

open BodyFlow

/-- The exception that throwing an expression lets out of the handlers `around`, if it is known. -/
def Expr.leaving (value : Expr) (span : Span) (scope : LocalTypes) (around : List String) :
    List Escape :=
  match value.thrown? scope with
  | some type =>
    if isUnchecked type || around.any fun caught => catches caught type then [] else [⟨type, span⟩]
  | none => []

mutual

/-- The exceptions that leave a statement with given local variables, past the handlers `around`. -/
def Statement.leaving (s : Statement) (scope : LocalTypes) (around : List String) : List Escape :=
  match s with
  | .block ⟨statements, _⟩ => leavingOf statements scope around
  | .ifThen _ thenBranch none _ => thenBranch.leaving scope around
  | .ifThen _ thenBranch (some elseBranch) _ =>
    thenBranch.leaving scope around ++ elseBranch.leaving (thenBranch.declared ++ scope) around
  | .whileLoop _ body _ | .doLoop body _ _ | .labeled _ body _ => body.leaving scope around
  | .forLoop init _ _ body _ =>
    leavingOf init scope around ++ body.leaving (declaredBy init ++ scope) around
  | .forEach element _ body _ =>
    body.leaving ((element.name.name, element.type.simpleName) :: scope) around
  | .throwing value span => value.leaving span scope around
  | .trying ⟨statements, _⟩ handlers none _ =>
    leavingOf statements scope (handlers.map CatchClause.caught ++ around) ++
      leavingHandlers handlers scope around
  | .trying ⟨statements, _⟩ handlers (some ⟨final, _⟩) _ =>
    leavingOf statements scope (handlers.map CatchClause.caught ++ around) ++
      leavingHandlers handlers scope around ++ leavingOf final scope around
  | .localVariable _ | .expression _ _ | .returning _ _ | .breaking _ _ | .continuing _ _
  | .assertion _ _ _ | .constructorCall _ _ _ | .empty _ => []

/-- The exceptions that leave one of the statements of a block. -/
def leavingOf (ss : List Statement) (scope : LocalTypes) (around : List String) : List Escape :=
  match ss with
  | [] => []
  | s :: rest => s.leaving scope around ++ leavingOf rest (s.declared ++ scope) around

/-- The exceptions that leave a handler; the handlers of the same `try` do not catch them. -/
def leavingHandlers (handlers : List CatchClause) (scope : LocalTypes) (around : List String) :
    List Escape :=
  match handlers with
  | [] => []
  | ⟨parameter, ⟨statements, _⟩, _⟩ :: rest =>
    leavingOf statements ((parameter.name.name, parameter.type.simpleName) :: scope) around ++
      leavingHandlers rest scope around

end

/-- The exceptions that leave the body of a method. -/
def MethodDecl.leaving (m : MethodDecl) : List Escape :=
  match m.statements with
  | none => []
  | some statements => leavingOf statements m.localTypes []

/-! ### What the analysis notes -/

/-- From one state of the analysis to a later one, exceptions leave the body. -/
def BodyFlow.Lets (found : List Escape) (f g : BodyFlow) : Prop :=
  g.escapes = found.reverse ++ f.escapes

section

variable {f g h : BodyFlow} {found later : List Escape} {new : LocalTypes}

theorem BodyFlow.Lets.of_same (h : g.escapes = f.escapes) : f.Lets [] g := h

theorem BodyFlow.Lets.trans (hf : f.Lets found g) (hg : g.Lets later h) :
    f.Lets (found ++ later) h := by
  unfold Lets at *
  rw [hg, hf, List.reverse_append, List.append_assoc]

/-- What a part of a construct lets out, in the scope and under the handlers of the construct. -/
theorem BodyFlow.Lets.behind {leaving : LocalTypes → List String → List Escape}
    (hf : f.Widens new g) (hscoped : f.scopes ≠ [])
    (hg : g.Lets (leaving g.scopes.flatten g.handlers.flatten) h) :
    g.Lets (leaving (new ++ f.scopes.flatten) f.handlers.flatten) h := by
  rwa [hf.flatten hscoped, hf.handlers] at hg

end

mutual

/-- Expressions let nothing out. -/
theorem Expr.escapes_flow (e : Expr) (f : BodyFlow) : (e.flow f).escapes = f.escapes := by
  match e with
  | .literal _ _ _ | .this _ | .super _ | .annotationUse _ => rw [Expr.flow]
  | .name n =>
    rw [Expr.flow]
    cases n.segments with
    | nil => rfl
    | cons word _ =>
      dsimp only [use]
      split <;> rfl
  | .fieldAccess receiver _ _ => rw [Expr.flow, receiver.escapes_flow]
  | .send none _ arguments _ _ => rw [Expr.flow, escapes_flowExprs]
  | .send (some receiver) _ arguments _ _ =>
    rw [Expr.flow, escapes_flowExprs, receiver.escapes_flow]
  | .new _ arguments _ => rw [Expr.flow, escapes_flowExprs]
  | .assign target operator value _ =>
    rw [Expr.flow]
    cases target.word? with
    | none => exact (value.escapes_flow _).trans (target.escapes_flow f)
    | some word =>
      have hassign : ∀ g : BodyFlow, (g.assign word).escapes = g.escapes := by
        intro g
        unfold BodyFlow.assign
        split <;> rfl
      dsimp only
      rw [hassign, value.escapes_flow]
      split
      · exact target.escapes_flow f
      · rfl
  | .binary left operator right _ =>
    rw [Expr.flow_binary]
    split
    · exact (right.escapes_flow _).trans (left.escapes_flow f)
    · exact (right.escapes_flow _).trans (left.escapes_flow f)
  | .unary _ operand _ => rw [Expr.flow, operand.escapes_flow]
  | .conditional condition whenTrue whenFalse _ =>
    rw [Expr.flow]
    exact (whenFalse.escapes_flow _).trans
      ((whenTrue.escapes_flow _).trans (condition.escapes_flow f))
  | .instanceOf value _ _ => rw [Expr.flow, value.escapes_flow]
  | .paren inner _ => rw [Expr.flow, inner.escapes_flow]

theorem escapes_flowExprs (es : List Expr) (f : BodyFlow) :
    (flowExprs es f).escapes = f.escapes := by
  match es with
  | [] => rw [flowExprs]
  | e :: rest => rw [flowExprs, escapes_flowExprs rest, e.escapes_flow]

end

theorem escapes_flowOptional (e : Option Expr) (f : BodyFlow) :
    (flowOptional e f).escapes = f.escapes := by
  cases e with
  | none => rfl
  | some e => exact e.escapes_flow f

theorem lets_flowThrow (value : Expr) (span : Span) (f : BodyFlow) (hscoped : f.scopes ≠ []) :
    f.Lets (value.leaving span f.scopes.flatten f.handlers.flatten) (flowThrow value span f) := by
  have hvalue := value.widens f
  have htype : value.thrownType? (value.flow f) = value.thrown? f.scopes.flatten := by
    rw [value.thrownType?_eq, hvalue.flatten hscoped, List.nil_append]
  unfold flowThrow Expr.leaving Lets
  dsimp only
  rw [htype]
  cases value.thrown? f.scopes.flatten with
  | none => exact value.escapes_flow f
  | some type =>
    change ((value.flow f).throws type span).escapes = _
    dsimp only [throws]
    rw [hvalue.handlers, List.any_flatten]
    split
    · exact value.escapes_flow f
    · exact congrArg (_ :: ·) (value.escapes_flow f)

/-- Statements under handlers, in a scope of their own. -/
theorem lets_flowGuarded {statements : List Statement} {handlers : List CatchClause} (f : BodyFlow)
    (hscoped : f.scopes ≠ [])
    (hblock : ∀ f : BodyFlow, f.scopes ≠ [] →
      f.Lets (leavingOf statements f.scopes.flatten f.handlers.flatten)
        (flowStatements statements f))
    (hcatches : ∀ before joined (f : BodyFlow), f.scopes ≠ [] →
      f.Lets (leavingHandlers handlers f.scopes.flatten f.handlers.flatten)
        (flowCatches handlers before joined f)) :
    f.Lets (leavingOf statements f.scopes.flatten
        (handlers.map CatchClause.caught ++ f.handlers.flatten) ++
      leavingHandlers handlers f.scopes.flatten f.handlers.flatten)
      (flowGuarded statements handlers f) := by
  let inner : BodyFlow := { f with handlers := handlers.map CatchClause.caught :: f.handlers }
  let afterTry := f.handled (handlers.map CatchClause.caught) fun f =>
    f.inScope (flowStatements statements)
  have htry : f.Widens [] afterTry :=
    widens_handled f _ (widens_flowStatements statements _).leave
  have hblock : f.Lets (leavingOf statements f.scopes.flatten
      (handlers.map CatchClause.caught ++ f.handlers.flatten)) afterTry :=
    hblock inner.enter (List.cons_ne_nil _ _)
  have hhandlers := Lets.behind htry hscoped
    (hcatches f.state.assigned afterTry.state afterTry (htry.hasScope hscoped))
  exact hblock.trans hhandlers

-- The recursion is that of the analysis, and each part is read in the scope in which it stands.
mutual

/-- **The analysis notes the exceptions that leave a statement, and no others.** -/
theorem Statement.lets (s : Statement) (f : BodyFlow) (hscoped : f.scopes ≠ []) :
    f.Lets (s.leaving f.scopes.flatten f.handlers.flatten) (s.flow f) := by
  match s with
  | .block ⟨statements, _⟩ =>
    rw [Statement.flow, Statement.leaving]
    exact lets_flowStatements statements f.enter (List.cons_ne_nil _ _)
  | .localVariable v =>
    rw [Statement.flow, Statement.leaving]
    exact escapes_flowOptional v.initializer f
  | .expression value _ =>
    rw [Statement.flow, Statement.leaving]
    exact value.escapes_flow f
  | .ifThen condition thenBranch none _ =>
    rw [Statement.flow, Statement.leaving]
    have hcondition := condition.widens f
    have hthen := Lets.behind hcondition hscoped
      (thenBranch.lets _ (hcondition.hasScope hscoped))
    exact (Lets.of_same (condition.escapes_flow f)).trans hthen
  | .ifThen condition thenBranch (some elseBranch) _ =>
    rw [Statement.flow, Statement.leaving]
    have hcondition := condition.widens f
    have hwidens := (hcondition.trans (thenBranch.widens _)).setState (condition.flow f).state
    rw [List.append_nil] at hwidens
    have hthen := Lets.behind hcondition hscoped
      (thenBranch.lets _ (hcondition.hasScope hscoped))
    have helse := Lets.behind hwidens hscoped (elseBranch.lets _ (hwidens.hasScope hscoped))
    exact (Lets.of_same (condition.escapes_flow f)).trans (hthen.trans helse)
  | .whileLoop condition body _ =>
    rw [Statement.flow, Statement.leaving]
    have hcondition := condition.widens f
    have hbody := Lets.behind hcondition hscoped (body.lets _ (hcondition.hasScope hscoped))
    exact (Lets.of_same (condition.escapes_flow f)).trans hbody
  | .doLoop body condition _ =>
    rw [Statement.flow, Statement.leaving]
    have hbody := (body.lets f hscoped).trans
      (Lets.of_same (condition.escapes_flow ((body.flow f).setAlive true)))
    rwa [List.append_nil] at hbody
  | .forLoop init condition update body _ =>
    rw [Statement.flow, Statement.leaving]
    have henter : f.enter.scopes ≠ [] := List.cons_ne_nil _ _
    have hcondition := (widens_flowInit init f.enter).trans (widens_flowOptional condition _)
    have hinit := (lets_flowInit init f.enter henter).trans
      (.of_same (escapes_flowOptional condition _))
    have hbody := Lets.behind hcondition henter (body.lets _ (hcondition.hasScope henter))
    have hupdate := Lets.of_same (escapes_flowExprs update ((body.flow
      (flowOptional condition (flowInit init f.enter))).setAlive true))
    have hloop := (hinit.trans hbody).trans hupdate
    rwa [List.append_nil, List.append_nil] at hloop
  | .forEach element collection body _ =>
    rw [Statement.flow, Statement.leaving]
    have hcollection := collection.widens f
    have hdeclare := widens_declare (collection.flow f).enter element.name.name
      element.type.simpleName true
    have hbody := body.lets _ (hdeclare.hasScope (List.cons_ne_nil _ _))
    have hscopes := (hdeclare.flatten (List.cons_ne_nil _ _)).trans
      (congrArg (_ :: ·) (hcollection.flatten hscoped))
    rw [hscopes, hdeclare.handlers.trans hcollection.handlers] at hbody
    exact (Lets.of_same (collection.escapes_flow f)).trans hbody
  | .returning value _ =>
    rw [Statement.flow, Statement.leaving]
    exact escapes_flowOptional value f
  | .throwing value span =>
    rw [Statement.flow, Statement.leaving]
    exact lets_flowThrow value span f hscoped
  | .breaking _ _ | .continuing _ _ => rw [Statement.flow, Statement.leaving]; rfl
  | .labeled _ body _ =>
    rw [Statement.flow, Statement.leaving]
    exact body.lets f hscoped
  | .trying ⟨statements, _⟩ handlers none _ =>
    rw [Statement.flow_trying_none, Statement.leaving]
    exact lets_flowGuarded f hscoped (lets_flowStatements statements · ·)
      (lets_flowCatches handlers · · · ·)
  | .trying ⟨statements, _⟩ handlers (some ⟨final, _⟩) _ =>
    rw [Statement.flow_trying_some, Statement.leaving]
    have hguarded := lets_flowGuarded f hscoped (lets_flowStatements statements · ·)
      (lets_flowCatches handlers · · · ·)
    have hwidens := (widens_flowGuarded f (widens_flowStatements statements ·)
      (widens_flowCatches handlers · · ·)).setState ⟨f.state.assigned, true⟩
    have hfinal := Lets.behind hwidens hscoped (lets_flowStatements final
      ((flowGuarded statements handlers f).setState ⟨f.state.assigned, true⟩).enter
      (List.cons_ne_nil _ _))
    exact hguarded.trans hfinal
  | .assertion condition message _ =>
    rw [Statement.flow, Statement.leaving]
    exact (escapes_flowOptional message _).trans (condition.escapes_flow f)
  | .constructorCall _ arguments _ =>
    rw [Statement.flow, Statement.leaving]
    exact escapes_flowExprs arguments f
  | .empty _ => rw [Statement.flow, Statement.leaving]; rfl

theorem lets_flowStatements (ss : List Statement) (f : BodyFlow) (hscoped : f.scopes ≠ []) :
    f.Lets (leavingOf ss f.scopes.flatten f.handlers.flatten) (flowStatements ss f) := by
  match ss with
  | [] => rw [flowStatements, leavingOf]; rfl
  | s :: rest =>
    rw [flowStatements, leavingOf]
    have hreach := widens_reach f s.span
    have hwidens := hreach.trans (s.widens (f.reach s.span))
    rw [List.append_nil] at hwidens
    have hescapes : (f.reach s.span).escapes = f.escapes := by
      unfold reach
      split <;> rfl
    have hfirst := Lets.behind hreach hscoped (s.lets _ (hreach.hasScope hscoped))
    have hrest := Lets.behind hwidens hscoped
      (lets_flowStatements rest _ (hwidens.hasScope hscoped))
    exact (Lets.of_same hescapes).trans (hfirst.trans hrest)

theorem lets_flowInit (ss : List Statement) (f : BodyFlow) (hscoped : f.scopes ≠ []) :
    f.Lets (leavingOf ss f.scopes.flatten f.handlers.flatten) (flowInit ss f) := by
  match ss with
  | [] => rw [flowInit, leavingOf]; rfl
  | s :: rest =>
    rw [flowInit, leavingOf]
    exact (s.lets f hscoped).trans (Lets.behind (s.widens f) hscoped
      (lets_flowInit rest _ ((s.widens f).hasScope hscoped)))

theorem lets_flowCatches (handlers : List CatchClause) (before : List String) (joined : PathState)
    (f : BodyFlow) (hscoped : f.scopes ≠ []) :
    f.Lets (leavingHandlers handlers f.scopes.flatten f.handlers.flatten)
      (flowCatches handlers before joined f) := by
  match handlers with
  | [] => rw [flowCatches, leavingHandlers]; rfl
  | ⟨parameter, ⟨statements, _⟩, _⟩ :: rest =>
    rw [flowCatches, leavingHandlers]
    let inner := (f.setState ⟨before, true⟩).enter.declare parameter.name.name
      parameter.type.simpleName true
    have hdeclare := widens_declare (f.setState ⟨before, true⟩).enter parameter.name.name
      parameter.type.simpleName true
    have hhandler := ((Widens.refl f).setState ⟨before, true⟩).trans
      (hdeclare.trans (widens_flowStatements statements _).leave).leave
    have hblock := Lets.behind hdeclare (List.cons_ne_nil _ _)
      (lets_flowStatements statements inner.enter (List.cons_ne_nil _ _))
    exact Lets.trans hblock (Lets.behind hhandler hscoped
      (lets_flowCatches rest before _ _ (hhandler.hasScope hscoped)))

end

/-! ### Methods -/

/-- Declaring the parameters of a method sets the scope and the path state, and nothing else. -/
theorem MethodDecl.exists_bodyFlow (m : MethodDecl) :
    ∃ state scopes, ∀ r, m.bodyFlow r = { reporter := r, state, scopes } := by
  have hall : ∀ (parameters : List Parameter) state scopes, ∃ state' scopes', ∀ r,
      parameters.foldl (fun f p => f.declare p.name.name p.type.simpleName true)
          ({ reporter := r, state, scopes } : BodyFlow) =
        { reporter := r, state := state', scopes := scopes' } := by
    intro parameters
    induction parameters with
    | nil => exact fun state scopes => ⟨state, scopes, fun _ => rfl⟩
    | cons p rest ih =>
      intro state scopes
      let f := ({ reporter := .new 0, state, scopes } : BodyFlow).declare p.name.name
        p.type.simpleName true
      exact ih f.state f.scopes
  exact hall m.parameters {} [[]]

/-- **The exceptions that leave a method are those of its text, whatever was found before.** -/
theorem MethodDecl.escapes_eq (m : MethodDecl) (r : Reporter) :
    m.escapes r = m.leaving.reverse := by
  unfold escapes MethodDecl.leaving
  cases m.statements with
  | none => rfl
  | some statements =>
    obtain ⟨hscopes, hhandlers⟩ := m.bodyFlow_eq r
    have hlets := lets_flowStatements statements (m.bodyFlow r) (by rw [hscopes]; exact nofun)
    have hnone : (m.bodyFlow r).escapes = [] := by
      obtain ⟨state, scopes, hstart⟩ := m.exists_bodyFlow
      rw [hstart]
    rwa [hscopes, hhandlers, List.flatten_singleton, Lets, hnone, List.append_nil] at hlets

/-! ### Their names -/

theorem mem_escapeNames_iff {escapes : List Escape} {name : String} :
    name ∈ escapeNames escapes ↔ ∃ e ∈ escapes, e.name = name := by
  rw [escapeNames, List.mem_mergeSort, List.mem_eraseDups, List.mem_map]

/-- The names are sorted, and each of them stands there once. -/
theorem pairwise_escapeNames (escapes : List Escape) : (escapeNames escapes).Pairwise (· < ·) :=
  sorted_eraseDups _

/-- The names do not depend on the order of the exceptions. -/
theorem escapeNames_reverse (escapes : List Escape) :
    escapeNames escapes.reverse = escapeNames escapes :=
  sorted_eraseDups_congr fun name => by simp only [List.mem_map, List.mem_reverse]

end AspectLang
