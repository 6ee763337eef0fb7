import AspectLang.Flow.State

/-! # Flow through expressions and statements

Each construct is a function from the state before it to the state after it.  A condition may
go either way, a loop body may not run at all, and a handler starts from what was assigned
before its `try`. -/

namespace AspectLang

/-- The word of a name without dots. -/
def QualifiedName.word? (n : QualifiedName) : Option String :=
  match n.segments with
  | [word] => some word.name
  | _ => none

/-- The local variable that an assignment to an expression would assign, if it is a word. -/
def Expr.word? : Expr → Option String
  | .name n => n.word?
  | _ => none

mutual

/-- The state after an expression. -/
def Expr.flow (e : Expr) (f : BodyFlow) : BodyFlow :=
  match e with
  | .literal _ _ _ | .this _ | .super _ | .annotationUse _ => f
  | .name n =>
    match n.segments with
    | word :: _ => f.use word.name word.span
    | [] => f
  | .fieldAccess receiver _ _ => receiver.flow f
  | .send none _ arguments _ _ => flowExprs arguments f
  | .send (some receiver) _ arguments _ _ => flowExprs arguments (receiver.flow f)
  | .new _ arguments _ => flowExprs arguments f
  | .assign target operator value _ =>
    match target.word? with
    | some word =>
      let f := if operator.isSome then target.flow f else f
      (value.flow f).assign word
    | none => value.flow (target.flow f)
  | .binary left operator right _ =>
    let f := left.flow f
    match operator with
    | .andAnd | .orOr => (right.flow f).setAssigned f.state.assigned
    | _ => right.flow f
  | .unary _ operand _ => operand.flow f
  | .conditional condition whenTrue whenFalse _ =>
    let f := condition.flow f
    let afterTrue := whenTrue.flow f
    let afterFalse := whenFalse.flow (afterTrue.setAssigned f.state.assigned)
    afterFalse.setAssigned (PathState.meet afterFalse.state.assigned afterTrue.state.assigned)
  | .instanceOf value _ _ => value.flow f
  | .paren inner _ => inner.flow f

/-- The state after expressions in order. -/
def flowExprs (es : List Expr) (f : BodyFlow) : BodyFlow :=
  match es with
  | [] => f
  | e :: rest => flowExprs rest (e.flow f)

end

/-- The state after an expression, if there is one. -/
def flowOptional (e : Option Expr) (f : BodyFlow) : BodyFlow :=
  match e with
  | some e => e.flow f
  | none => f

/-- The simple name of the exception that throwing an expression throws, where it is known. -/
def Expr.thrownType? (f : BodyFlow) : Expr → Option String
  | .new type _ _ => some type.simpleName
  | .name n =>
    match n.word? with
    | some word => f.localType? word
    | none => none
  | .paren inner _ => inner.thrownType? f
  | _ => none

/-- The state after an expression is thrown. -/
def flowThrow (value : Expr) (span : Span) (f : BodyFlow) : BodyFlow :=
  let f := value.flow f
  let f := match value.thrownType? f with
    | some name => f.throws name span
    | none => f
  f.setAlive false

mutual

/-- The state after a statement. -/
def Statement.flow (s : Statement) (f : BodyFlow) : BodyFlow :=
  match s with
  | .block ⟨statements, _⟩ => f.inScope (flowStatements statements)
  | .localVariable v =>
    (flowOptional v.initializer f).declare v.name.name v.type.simpleName v.initializer.isSome
  | .expression value _ => value.flow f
  | .ifThen condition thenBranch none _ =>
    let f := condition.flow f
    let afterThen := thenBranch.flow f
    afterThen.setState (afterThen.state.join f.state)
  | .ifThen condition thenBranch (some elseBranch) _ =>
    let f := condition.flow f
    let afterThen := thenBranch.flow f
    let afterElse := elseBranch.flow (afterThen.setState f.state)
    afterElse.setState (afterThen.state.join afterElse.state)
  | .whileLoop condition body _ =>
    let f := condition.flow f
    ((body.flow f).setState f.state).setAlive true
  | .doLoop body condition _ => condition.flow ((body.flow f).setAlive true)
  | .forLoop init condition update body _ =>
    let f := flowOptional condition (flowInit init f.enter)
    ((flowExprs update ((body.flow f).setAlive true)).setState f.state).leave
  | .forEach element collection body _ =>
    let f := (collection.flow f).enter.declare element.name.name element.type.simpleName true
    (((body.flow f).setState f.state).setAlive true).leave
  | .returning value _ => (flowOptional value f).setAlive false
  | .throwing value span => flowThrow value span f
  | .breaking _ _ | .continuing _ _ => f.setAlive false
  | .labeled _ body _ => (body.flow f).setAlive true
  | .trying ⟨statements, _⟩ handlers final _ =>
    let before := f.state.assigned
    let caught := handlers.map fun c => c.parameter.type.simpleName
    let afterTry := f.handled caught fun f => f.inScope (flowStatements statements)
    let after := flowCatches handlers before afterTry.state afterTry
    match final with
    | none => after
    | some ⟨statements, _⟩ =>
      let afterFinal := (after.setState ⟨before, true⟩).inScope (flowStatements statements)
      afterFinal.setState
        ⟨afterFinal.state.assigned.foldl (fun assigned name =>
            if assigned.contains name then assigned else name :: assigned) after.state.assigned,
          after.state.alive && afterFinal.state.alive⟩
  | .assertion condition message _ =>
    (flowOptional message (condition.flow f)).setState f.state
  | .constructorCall _ arguments _ => flowExprs arguments f
  | .empty _ => f

/-- The state after the statements of a block; the first one without a path to it is
reported. -/
def flowStatements (ss : List Statement) (f : BodyFlow) : BodyFlow :=
  match ss with
  | [] => f
  | s :: rest => flowStatements rest (s.flow (f.reach s.span))

/-- The state after the statements at the head of a loop. -/
def flowInit (ss : List Statement) (f : BodyFlow) : BodyFlow :=
  match ss with
  | [] => f
  | s :: rest => flowInit rest (s.flow f)

/-- The state after handlers, each of which starts from `before`; `joined` is what the `try`
block and the earlier handlers lead to. -/
def flowCatches (handlers : List CatchClause) (before : List String) (joined : PathState)
    (f : BodyFlow) : BodyFlow :=
  match handlers with
  | [] => f.setState joined
  | ⟨parameter, ⟨statements, _⟩, _⟩ :: rest =>
    let g := (f.setState ⟨before, true⟩).inScope fun f =>
      (f.declare parameter.name.name parameter.type.simpleName true).inScope
        (flowStatements statements)
    flowCatches rest before (joined.join g.state) g

end

end AspectLang
