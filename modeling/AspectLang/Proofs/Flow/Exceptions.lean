import AspectLang.Proofs.Flow.Reports

/-! # Exceptions that leave a body

A path through a construct has a free choice at every condition, a loop may make any number of
rounds, and the evaluation of an expression may raise an exception of any type.  As nothing that a
path does decides how it goes on, the paths of a construct are known by how they can end
(`Statement.endings`).  An exception is caught by a `try` block if one of its handlers is for the
type of the exception, or for all of them.

The analysis walks through a body once and notes what is thrown outside the handlers for it.  What
it declares on its way is what stands in the text (`Statement.widens`), and so it knows the types of
the local variables that a path throws.  An exception that leaves a body by a `throw` is noted
(`Statement.notes`). -/

namespace AspectLang

/-! ### Endings -/

/-- How a path through a construct ends. -/
inductive Ending where
  | normal
  | broke (label : Option String)
  | continued (label : Option String)
  | returned
  /-- An exception goes on.  It was `thrown` if a statement threw it whose operand has a known
  type. -/
  | raised (name : String) (thrown : Bool)
deriving DecidableEq

namespace Ending

/-- Whether an ending of its body ends a round of a loop with given labels, and no more. -/
def endsRound (labels : List String) : Ending → Bool
  | continued none => true
  | continued (some label) => labels.contains label
  | _ => false

/-- Whether an ending of its body ends a loop. -/
def endsLoop : Ending → Bool
  | broke none => true
  | _ => false

/-- Whether an ending of a statement lands behind it because of its label. -/
def endsLabeled (label : String) : Ending → Bool
  | broke (some target) => target == label
  | _ => false

end Ending

/-- How the paths of a construct can end. -/
abbrev Endings := Ending → Prop

/-- Whether a handler catches an exception: both have the same simple name, or it catches all. -/
def Handles (caught name : String) : Prop :=
  caught = name ∨ caught = "Exception" ∨ caught = "Throwable"

namespace Endings

def only (x : Ending) : Endings := fun y => y = x

def either (p q : Endings) : Endings := fun x => p x ∨ q x

/-- An exception of any type comes up. -/
def fail : Endings := fun x => ∃ name, x = .raised name false

/-- Nothing happens, unless an exception comes up. -/
def pass : Endings := either (only .normal) fail

/-- A path of `p`, and then one of `q` unless the first one ends otherwise than normally. -/
def seq (p q : Endings) : Endings := fun x => (p .normal ∧ q x) ∨ (x ≠ .normal ∧ p x)

/-- The paths of `p`, some endings of which land behind it. -/
def landing (lands : Ending → Bool) (p : Endings) : Endings := fun x =>
  ∃ y, p y ∧ x = if lands y then .normal else y

/-- Any number of rounds, the last of which may end otherwise than normally. -/
inductive rounds (p : Endings) : Endings
  | none : rounds p .normal
  | next {x : Ending} : p .normal → rounds p x → rounds p x
  | last {x : Ending} : p x → x ≠ .normal → rounds p x

/-- A loop with given labels: a round goes through `head`, `body` and `tail`, and after any number
of rounds the loop ends with `exit`. -/
def loop (labels : List String) (head body tail exit : Endings) : Endings :=
  landing Ending.endsLoop
    ((rounds (head.seq ((landing (Ending.endsRound labels) body).seq tail))).seq exit)

/-- The paths of `p` under handlers.  What one of them handles goes on as `handler` says, and
nothing else is caught. -/
def catching (caught : List String) (handler : String → Endings) (p : Endings) : Endings := fun x =>
  (∃ name thrown, p (.raised name thrown) ∧ handler name x) ∨
    (p x ∧ ∀ name thrown, x = .raised name thrown → ∀ c ∈ caught, ¬ Handles c name)

/-- However a path of `p` ends, one of `final` follows it; if that one ends normally, the ending
of the first one still holds. -/
def finishing (p final : Endings) : Endings := fun x =>
  ∃ y z, p y ∧ final z ∧ x = if z = .normal then y else z

end Endings

/-! ### Paths through statements -/

/-- The local variables in scope with the simple names of their types, the innermost first. -/
abbrev LocalTypes := List (String × String)

/-- What a statement declares for those behind it in its block, the last one first.  A declaration
holds up to the end of the block, or of the loop, around it. -/
def Statement.declared (s : Statement) : LocalTypes :=
  match s with
  | .localVariable v => [(v.name.name, v.type.simpleName)]
  | .ifThen _ thenBranch none _ => thenBranch.declared
  | .ifThen _ thenBranch (some elseBranch) _ => elseBranch.declared ++ thenBranch.declared
  | .whileLoop _ body _ | .doLoop body _ _ | .labeled _ body _ => body.declared
  | .block _ | .expression _ _ | .forLoop _ _ _ _ _ | .forEach _ _ _ _ | .returning _ _
  | .throwing _ _ | .breaking _ _ | .continuing _ _ | .trying _ _ _ _ | .assertion _ _ _
  | .constructorCall _ _ _ | .empty _ => []

/-- What statements declare, the last one first. -/
def declaredBy (ss : List Statement) : LocalTypes :=
  match ss with
  | [] => []
  | s :: rest => declaredBy rest ++ s.declared

/-- The type of what an expression throws: that of a new object or of a local variable, maybe in
parentheses. -/
def Expr.thrown? (scope : LocalTypes) : Expr → Option String
  | .new type _ _ => some type.simpleName
  | .name n => n.word?.bind fun word => scope.lookup word
  | .paren inner _ => inner.thrown? scope
  | _ => none

/-- The paths on which an expression is thrown that was evaluated. -/
def Expr.throwEndings (scope : LocalTypes) (e : Expr) : Endings :=
  match e.thrown? scope with
  | some type => .only (.raised type true)
  | none => .fail

/-- The type of the exceptions that a handler is for. -/
def CatchClause.caught (c : CatchClause) : String := c.parameter.type.simpleName

mutual

/-- How the paths through a statement with given labels can end. -/
def Statement.endings (scope : LocalTypes) (labels : List String) (s : Statement) : Endings :=
  match s with
  | .block ⟨statements, _⟩ => endingsOf scope statements
  | .localVariable _ | .expression _ _ | .assertion _ _ _ | .constructorCall _ _ _ | .empty _ => .pass
  | .ifThen _ thenBranch none _ =>
    .seq .pass (.either (thenBranch.endings scope []) (.only .normal))
  | .ifThen _ thenBranch (some elseBranch) _ =>
    .seq .pass (.either (thenBranch.endings scope [])
      (elseBranch.endings (thenBranch.declared ++ scope) []))
  | .whileLoop _ body _ => .loop labels .pass (body.endings scope []) .pass .pass
  | .doLoop body _ _ =>
    let round := (Endings.landing (Ending.endsRound labels) (body.endings scope [])).seq .pass
    .landing Ending.endsLoop (round.seq (.rounds round))
  | .forLoop init condition _ body _ =>
    (endingsOf scope init).seq (.loop labels .pass (body.endings (declaredBy init ++ scope) []) .pass
      (if condition.isSome then .pass else fun _ => False))
  | .forEach element _ body _ =>
    .seq .pass (.loop labels .pass
      (body.endings ((element.name.name, element.type.simpleName) :: scope) []) .pass .pass)
  | .returning _ _ => .seq .pass (.only .returned)
  | .throwing value _ => .seq .pass (value.throwEndings scope)
  | .breaking label _ => .only (.broke label)
  | .continuing label _ => .only (.continued label)
  | .labeled label body _ =>
    .landing (Ending.endsLabeled label) (body.endings scope (label :: labels))
  | .trying ⟨statements, _⟩ handlers none _ =>
    (endingsOf scope statements).catching (handlers.map CatchClause.caught)
      (endingsHandling scope handlers)
  | .trying ⟨statements, _⟩ handlers (some ⟨final, _⟩) _ =>
    ((endingsOf scope statements).catching (handlers.map CatchClause.caught)
      (endingsHandling scope handlers)).finishing (endingsOf scope final)

/-- How the paths through the statements of a block can end. -/
def endingsOf (scope : LocalTypes) (ss : List Statement) : Endings :=
  match ss with
  | [] => .only .normal
  | s :: rest => (s.endings scope []).seq (endingsOf (s.declared ++ scope) rest)

/-- How the paths through the handlers of an exception can end. -/
def endingsHandling (scope : LocalTypes) (handlers : List CatchClause) (name : String) : Endings :=
  match handlers with
  | [] => fun _ => False
  | ⟨parameter, ⟨statements, _⟩, _⟩ :: rest =>
    .either
      (fun x => Handles parameter.type.simpleName name ∧
        endingsOf ((parameter.name.name, parameter.type.simpleName) :: scope) statements x)
      (endingsHandling scope rest name)

end

/-! ### What the analysis keeps -/

/-- From a state of the analysis to a later one around which the same handlers stand: the innermost
scope has new declarations, and exceptions that leave the body are added. -/
structure BodyFlow.Widens (new : LocalTypes) (f g : BodyFlow) : Prop where
  scopes : g.scopes = f.scopes.modifyHead (new ++ ·)
  handlers : g.handlers = f.handlers
  escapes : f.escapes <:+ g.escapes

namespace BodyFlow

variable {f g h : BodyFlow} {new newer : LocalTypes} {name type : String} {span : Span}

theorem Widens.of_same (hscopes : g.scopes = f.scopes) (hhandlers : g.handlers = f.handlers)
    (hescapes : f.escapes <:+ g.escapes) : f.Widens [] g where
  scopes := by rw [hscopes]; cases f.scopes <;> rfl
  handlers := hhandlers
  escapes := hescapes

theorem Widens.refl (f : BodyFlow) : f.Widens [] f := .of_same rfl rfl List.suffix_rfl

theorem Widens.trans (hf : f.Widens new g) (hg : g.Widens newer h) :
    f.Widens (newer ++ new) h where
  scopes := by
    rw [hg.scopes, hf.scopes, List.modifyHead_modifyHead]
    congr 1
    funext scope
    exact (List.append_assoc newer new scope).symm
  handlers := hg.handlers.trans hf.handlers
  escapes := hf.escapes.trans hg.escapes

theorem Widens.hasScope (hf : f.Widens new g) (hscoped : f.scopes ≠ []) : g.scopes ≠ [] := by
  rw [hf.scopes]
  cases hs : f.scopes with
  | nil => exact absurd hs hscoped
  | cons inner outer => simp

/-- The local variables behind a construct are those in front of it and the new ones. -/
theorem Widens.flatten (hf : f.Widens new g) (hscoped : f.scopes ≠ []) :
    g.scopes.flatten = new ++ f.scopes.flatten := by
  rw [hf.scopes]
  cases hs : f.scopes with
  | nil => exact absurd hs hscoped
  | cons inner outer => simp

theorem Widens.setState (hf : f.Widens new g) (state : PathState) : f.Widens new (g.setState state) :=
  ⟨hf.scopes, hf.handlers, hf.escapes⟩

theorem Widens.setAlive (hf : f.Widens new g) (alive : Bool) : f.Widens new (g.setAlive alive) :=
  ⟨hf.scopes, hf.handlers, hf.escapes⟩

theorem Widens.setAssigned (hf : f.Widens new g) (assigned : List String) :
    f.Widens new (g.setAssigned assigned) :=
  ⟨hf.scopes, hf.handlers, hf.escapes⟩

/-- What is declared in a scope of its own is gone behind it. -/
theorem Widens.leave (hf : f.enter.Widens new g) : f.Widens [] g.leave where
  scopes := by
    rw [BodyFlow.leave, hf.scopes, enter]
    cases f.scopes <;> rfl
  handlers := hf.handlers
  escapes := hf.escapes

theorem widens_declare (f : BodyFlow) (name type : String) (assigned : Bool) :
    f.Widens [(name, type)] (f.declare name type assigned) where
  scopes := by rw [declare]; cases f.scopes <;> rfl
  handlers := rfl
  escapes := List.suffix_rfl

theorem widens_throws (f : BodyFlow) (name : String) (span : Span) :
    f.Widens [] (f.throws name span) := by
  unfold throws
  split
  · exact .refl f
  · exact .of_same rfl rfl (List.suffix_cons _ _)

theorem widens_reach (f : BodyFlow) (span : Span) : f.Widens [] (f.reach span) := by
  unfold reach
  split
  · exact .refl f
  · exact .of_same rfl rfl List.suffix_rfl

theorem widens_handled {inner : BodyFlow → BodyFlow} (f : BodyFlow) (caught : List String)
    (h : ({ f with handlers := caught :: f.handlers } : BodyFlow).Widens new
      (inner { f with handlers := caught :: f.handlers })) :
    f.Widens new (f.handled caught inner) where
  scopes := h.scopes
  handlers := by
    unfold handled
    dsimp only
    rw [h.handlers]
    rfl
  escapes := h.escapes

theorem widens_assign (f : BodyFlow) (name : String) : f.Widens [] (f.assign name) := by
  unfold assign
  split
  · exact .of_same rfl rfl List.suffix_rfl
  · exact .refl f

theorem widens_use (f : BodyFlow) (name : String) (span : Span) : f.Widens [] (f.use name span) := by
  unfold use
  split
  · exact .refl f
  · exact .of_same rfl rfl List.suffix_rfl

end BodyFlow

open BodyFlow

mutual

theorem Expr.widens (e : Expr) (f : BodyFlow) : f.Widens [] (e.flow f) := by
  match e with
  | .literal _ _ _ | .this _ | .super _ | .annotationUse _ => rw [Expr.flow]; exact .refl f
  | .name n =>
    rw [Expr.flow]
    cases n.segments with
    | nil => exact .refl f
    | cons word _ => exact widens_use f word.name word.span
  | .fieldAccess receiver _ _ => rw [Expr.flow]; exact receiver.widens f
  | .send none _ arguments _ _ => rw [Expr.flow]; exact widens_flowExprs arguments f
  | .send (some receiver) _ arguments _ _ =>
    rw [Expr.flow]
    exact (receiver.widens f).trans (widens_flowExprs arguments _)
  | .new _ arguments _ => rw [Expr.flow]; exact widens_flowExprs arguments f
  | .assign target operator value _ =>
    rw [Expr.flow]
    cases target.word? with
    | none => exact (target.widens f).trans (value.widens _)
    | some word =>
      have htarget : f.Widens [] (if operator.isSome then target.flow f else f) := by
        split
        · exact target.widens f
        · exact .refl f
      exact (htarget.trans (value.widens _)).trans (widens_assign _ word)
  | .binary left operator right _ =>
    rw [Expr.flow_binary]
    have hboth := (left.widens f).trans (right.widens _)
    split
    · exact hboth.setAssigned _
    · exact hboth
  | .unary _ operand _ => rw [Expr.flow]; exact operand.widens f
  | .conditional condition whenTrue whenFalse _ =>
    rw [Expr.flow]
    have htrue := (condition.widens f).trans (whenTrue.widens _)
    exact ((htrue.setAssigned _).trans (whenFalse.widens _)).setAssigned _
  | .instanceOf value _ _ => rw [Expr.flow]; exact value.widens f
  | .paren inner _ => rw [Expr.flow]; exact inner.widens f

theorem widens_flowExprs (es : List Expr) (f : BodyFlow) : f.Widens [] (flowExprs es f) := by
  match es with
  | [] => rw [flowExprs]; exact .refl f
  | e :: rest => rw [flowExprs]; exact (e.widens f).trans (widens_flowExprs rest _)

end

theorem widens_flowOptional (e : Option Expr) (f : BodyFlow) :
    f.Widens [] (flowOptional e f) := by
  cases e with
  | none => exact .refl f
  | some e => exact e.widens f

theorem widens_flowThrow (value : Expr) (span : Span) (f : BodyFlow) :
    f.Widens [] (flowThrow value span f) := by
  unfold flowThrow
  dsimp only
  cases value.thrownType? (value.flow f) with
  | none => exact (value.widens f).setAlive false
  | some name => exact ((value.widens f).trans (widens_throws _ name span)).setAlive false

theorem widens_flowGuarded {statements : List Statement} {handlers : List CatchClause}
    {new : LocalTypes} (f : BodyFlow)
    (hblock : ∀ f : BodyFlow, f.Widens new (flowStatements statements f))
    (hcatches : ∀ before joined (f : BodyFlow),
      f.Widens [] (flowCatches handlers before joined f)) :
    f.Widens [] (flowGuarded statements handlers f) :=
  (widens_handled f _ (hblock (enter { f with handlers := _ })).leave).trans (hcatches _ _ _)

mutual

/-- The analysis of a statement declares what the statement declares. -/
theorem Statement.widens (s : Statement) (f : BodyFlow) : f.Widens s.declared (s.flow f) := by
  match s with
  | .block ⟨statements, _⟩ =>
    rw [Statement.flow, Statement.declared]
    exact (widens_flowStatements statements f.enter).leave
  | .localVariable v =>
    rw [Statement.flow, Statement.declared]
    exact (widens_flowOptional v.initializer f).trans (widens_declare _ _ _ _)
  | .expression value _ => rw [Statement.flow, Statement.declared]; exact value.widens f
  | .ifThen condition thenBranch none _ =>
    rw [Statement.flow, Statement.declared, ← List.append_nil thenBranch.declared]
    exact ((condition.widens f).trans (thenBranch.widens _)).setState _
  | .ifThen condition thenBranch (some elseBranch) _ =>
    rw [Statement.flow, Statement.declared, ← List.append_nil thenBranch.declared]
    have hthen := (condition.widens f).trans (thenBranch.widens _)
    exact ((hthen.setState _).trans (elseBranch.widens _)).setState _
  | .whileLoop condition body _ =>
    rw [Statement.flow, Statement.declared, ← List.append_nil body.declared]
    exact (((condition.widens f).trans (body.widens _)).setState _).setAlive _
  | .doLoop body condition _ =>
    rw [Statement.flow, Statement.declared]
    exact ((body.widens f).setAlive true).trans (condition.widens _)
  | .forLoop init condition update body _ =>
    rw [Statement.flow, Statement.declared]
    have hhead := (widens_flowInit init f.enter).trans (widens_flowOptional condition _)
    have hbody := (hhead.trans (body.widens _)).setAlive true
    exact ((hbody.trans (widens_flowExprs update _)).setState _).leave
  | .forEach element collection body _ =>
    rw [Statement.flow, Statement.declared]
    have hbody := (widens_declare (collection.flow f).enter element.name.name
      element.type.simpleName true).trans (body.widens _)
    exact (collection.widens f).trans ((hbody.setState _).setAlive _).leave
  | .returning value _ =>
    rw [Statement.flow, Statement.declared]
    exact (widens_flowOptional value f).setAlive false
  | .throwing value span =>
    rw [Statement.flow, Statement.declared]
    exact widens_flowThrow value span f
  | .breaking _ _ | .continuing _ _ =>
    rw [Statement.flow, Statement.declared]
    exact (Widens.refl f).setAlive false
  | .labeled _ body _ =>
    rw [Statement.flow, Statement.declared]
    exact (body.widens f).setAlive true
  | .trying ⟨statements, _⟩ handlers none _ =>
    rw [Statement.flow_trying_none, Statement.declared]
    exact widens_flowGuarded f (widens_flowStatements statements ·)
      (widens_flowCatches handlers · · ·)
  | .trying ⟨statements, _⟩ handlers (some ⟨final, _⟩) _ =>
    rw [Statement.flow_trying_some, Statement.declared]
    have hguarded := widens_flowGuarded f (widens_flowStatements statements ·)
      (widens_flowCatches handlers · · ·)
    exact ((hguarded.setState _).trans (widens_flowStatements final _).leave).setState _
  | .assertion condition message _ =>
    rw [Statement.flow, Statement.declared]
    exact ((condition.widens f).trans (widens_flowOptional message _)).setState _
  | .constructorCall _ arguments _ =>
    rw [Statement.flow, Statement.declared]
    exact widens_flowExprs arguments f
  | .empty _ => rw [Statement.flow, Statement.declared]; exact .refl f

theorem widens_flowStatements (ss : List Statement) (f : BodyFlow) :
    f.Widens (declaredBy ss) (flowStatements ss f) := by
  match ss with
  | [] => rw [flowStatements]; exact .refl f
  | s :: rest =>
    rw [flowStatements, declaredBy, ← List.append_nil s.declared]
    exact ((widens_reach f s.span).trans (s.widens _)).trans (widens_flowStatements rest _)

theorem widens_flowInit (ss : List Statement) (f : BodyFlow) :
    f.Widens (declaredBy ss) (flowInit ss f) := by
  match ss with
  | [] => rw [flowInit]; exact .refl f
  | s :: rest => rw [flowInit, declaredBy]; exact (s.widens f).trans (widens_flowInit rest _)

theorem widens_flowCatches (handlers : List CatchClause) (before : List String)
    (joined : PathState) (f : BodyFlow) : f.Widens [] (flowCatches handlers before joined f) := by
  match handlers with
  | [] => rw [flowCatches]; exact (Widens.refl f).setState joined
  | ⟨parameter, ⟨statements, _⟩, _⟩ :: rest =>
    rw [flowCatches]
    have hblock := (widens_declare (f.setState ⟨before, true⟩).enter parameter.name.name
      parameter.type.simpleName true).trans (widens_flowStatements statements _).leave
    exact (((Widens.refl f).setState _).trans hblock.leave).trans (widens_flowCatches rest _ _ _)

end

/-! ### What the analysis notes -/

theorem catches_iff {caught name : String} : catches caught name = true ↔ Handles caught name := by
  simp [catches, catchAll, Handles]

/-- Whether a handler around the current statement catches an exception. -/
def BodyFlow.isHandled (f : BodyFlow) (name : String) : Bool :=
  f.handlers.any (·.any fun caught => catches caught name)

/-- Every checked exception with which a path ends by a `throw`, and which is not caught around the
construct, is noted behind the construct. -/
def Records (p : Endings) (f g : BodyFlow) : Prop :=
  ∀ name, p (.raised name true) → isUnchecked name = false → f.isHandled name = false →
    name ∈ g.escapes.map Escape.name

section

variable {f g h : BodyFlow} {new : LocalTypes} {p q : Endings}

theorem Records.later (hp : Records p f g) (hg : g.escapes <:+ h.escapes) : Records p f h :=
  fun name hname hchecked hhandled =>
    (hg.map Escape.name).subset (hp name hname hchecked hhandled)

theorem Records.earlier (hf : f.Widens new g) (hp : Records p g h) : Records p f h := by
  intro name hname hchecked hhandled
  refine hp name hname hchecked ?_
  unfold BodyFlow.isHandled
  rw [hf.handlers]
  exact hhandled

/-- A part of a construct is walked through in the scope of its paths. -/
theorem Records.behind (q : LocalTypes → Endings) {scope : LocalTypes} (hf : f.Widens new g)
    (hscoped : f.scopes ≠ []) (hscope : new ++ f.scopes.flatten = scope)
    (hq : Records (q g.scopes.flatten) g h) : Records (q scope) f h := by
  rw [hf.flatten hscoped, hscope] at hq
  exact hq.earlier hf

theorem records_pass : Records .pass f g := by
  rintro name (h | ⟨_, h⟩) <;> cases h

theorem records_fail : Records .fail f g := by
  rintro name ⟨_, h⟩
  cases h

theorem records_only {x : Ending} (hx : ∀ name, x ≠ .raised name true) : Records (.only x) f g :=
  fun name hname => absurd hname.symm (hx name)

theorem Records.either (hp : Records p f g) (hq : Records q f g) : Records (.either p q) f g :=
  fun name hname => hname.elim (hp name) (hq name)

theorem Records.seq (hp : Records p f g) (hq : Records q f g) : Records (p.seq q) f g :=
  fun name hname => hname.elim (fun h => hq name h.2) (fun h => hp name h.2)

theorem Records.landing (lands : Ending → Bool) (hp : Records p f g) :
    Records (p.landing lands) f g := by
  rintro name ⟨y, hy, hname⟩
  split at hname
  · cases hname
  · exact hp name (hname ▸ hy)

theorem Records.rounds (hp : Records p f g) : Records (.rounds p) f g := by
  intro name hname
  generalize hx : Ending.raised name true = x at hname
  induction hname with
  | none => cases hx
  | next _ _ ih => exact ih hx
  | last h _ => exact hp name (hx ▸ h)

/-- The statements of a loop stand in its body. -/
theorem Records.loop {labels : List String} {exit : Endings} (hp : Records p f g)
    (hexit : Records exit f g) : Records (.loop labels .pass p .pass exit) f g :=
  ((records_pass.seq ((hp.landing _).seq records_pass)).rounds.seq hexit).landing _

/-- What leaves the block of a `try` and is not caught there is noted in the block already. -/
theorem Records.catching {caught : List String} {handler : String → Endings}
    (hp : Records p { f with handlers := caught :: f.handlers } g)
    (hhandler : ∀ name, Records (handler name) f g) :
    Records (p.catching caught handler) f g := by
  rintro name (⟨other, thrown, _, hname⟩ | ⟨hname, hnone⟩) hchecked hhandled
  · exact hhandler other name hname hchecked hhandled
  · refine hp name hname hchecked ?_
    have hfree : (caught.any fun c => catches c name) = false := by
      rw [List.any_eq_false]
      exact fun c hc hcatches => hnone name true rfl c hc (catches_iff.mp hcatches)
    rw [BodyFlow.isHandled, List.any_cons, hfree, Bool.false_or]
    exact hhandled

theorem Records.finishing (hp : Records p f g) (hq : Records q f g) :
    Records (p.finishing q) f g := by
  rintro name ⟨y, z, hy, hz, hname⟩
  split at hname
  · exact hp name (hname ▸ hy)
  · exact hq name (hname ▸ hz)

/-- The variables in scope are those of all scopes, one after the other. -/
theorem BodyFlow.localType?_eq (f : BodyFlow) (name : String) :
    f.localType? name = f.scopes.flatten.lookup name := by
  unfold localType?
  induction f.scopes with
  | nil => rfl
  | cons scope outer ih =>
      rw [List.findSome?_cons, List.flatten_cons, List.lookup_append, ih]
      cases scope.lookup name <;> rfl

theorem Expr.thrownType?_eq (e : Expr) (f : BodyFlow) :
    e.thrownType? f = e.thrown? f.scopes.flatten := by
  fun_induction Expr.thrown? f.scopes.flatten e with
  | case1 type => rfl
  | case2 n =>
      rw [thrownType?]
      cases n.word? with
      | none => rfl
      | some word => exact f.localType?_eq word
  | case3 inner _ ih => rw [thrownType?, ih]
  | case4 e hnew hname hparen =>
      unfold thrownType?
      split
      · exact absurd rfl (hnew _ _ _)
      · exact absurd rfl (hname _)
      · exact absurd rfl (hparen _ _)
      · rfl

/-- A `throw` is noted unless a handler around it catches the exception. -/
theorem records_flowThrow (value : Expr) (span : Span) (f : BodyFlow) (hscoped : f.scopes ≠ []) :
    Records (.seq .pass (value.throwEndings f.scopes.flatten)) f (flowThrow value span f) := by
  have hvalue := value.widens f
  have htype : value.thrownType? (value.flow f) = value.thrown? f.scopes.flatten := by
    rw [value.thrownType?_eq, hvalue.flatten hscoped]
    rfl
  refine records_pass.seq (Records.earlier hvalue ?_)
  unfold flowThrow Expr.throwEndings
  dsimp only
  rw [htype]
  cases value.thrown? f.scopes.flatten with
  | none => exact records_fail
  | some type =>
      rintro name hname hchecked hhandled
      obtain ⟨rfl, -⟩ := Ending.raised.inj hname
      change name ∈ ((value.flow f).throws name span).escapes.map Escape.name
      unfold BodyFlow.throws
      unfold BodyFlow.isHandled at hhandled
      rw [hchecked, hhandled]
      exact List.mem_cons_self

theorem records_exit (condition : Option Expr) :
    Records (if condition.isSome then .pass else fun _ => False) f g := by
  cases condition with
  | none => exact nofun
  | some _ => exact records_pass

/-- Statements in a scope of their own. -/
theorem records_inScope {statements : List Statement}
    (h : ∀ f : BodyFlow, f.scopes ≠ [] →
      Records (endingsOf f.scopes.flatten statements) f (flowStatements statements f))
    (f : BodyFlow) :
    Records (endingsOf f.scopes.flatten statements) f (f.inScope (flowStatements statements)) :=
  h f.enter (List.cons_ne_nil _ _)

theorem records_flowGuarded {statements : List Statement} {handlers : List CatchClause}
    (f : BodyFlow) (hscoped : f.scopes ≠ [])
    (hblock : ∀ f : BodyFlow, f.scopes ≠ [] →
      Records (endingsOf f.scopes.flatten statements) f (flowStatements statements f))
    (hcatches : ∀ before joined (f : BodyFlow), f.scopes ≠ [] → ∀ name,
      Records (endingsHandling f.scopes.flatten handlers name) f
        (flowCatches handlers before joined f)) :
    Records ((endingsOf f.scopes.flatten statements).catching (handlers.map CatchClause.caught)
      (endingsHandling f.scopes.flatten handlers)) f (flowGuarded statements handlers f) := by
  let afterTry := f.handled (handlers.map CatchClause.caught) fun f =>
    f.inScope (flowStatements statements)
  have htry : f.Widens [] afterTry :=
    widens_handled f _ (widens_flowStatements statements _).leave
  refine Records.catching ?_ fun name => ?_
  · have hinner := records_inScope hblock
      { f with handlers := handlers.map CatchClause.caught :: f.handlers }
    exact hinner.later (widens_flowCatches handlers _ _ afterTry).escapes
  · exact Records.behind (endingsHandling · handlers name) htry hscoped rfl
      (hcatches _ _ afterTry (htry.hasScope hscoped) name)

end

-- The recursion is that of the analysis: each part of a statement is walked through once, in the
-- scope that its paths have.
mutual

theorem Statement.records (s : Statement) (labels : List String) (f : BodyFlow)
    (hscoped : f.scopes ≠ []) : Records (s.endings f.scopes.flatten labels) f (s.flow f) := by
  match s with
  | .block ⟨statements, _⟩ =>
    rw [Statement.flow, Statement.endings]
    exact records_inScope (records_flowStatements statements · ·) f
  | .localVariable _ | .expression _ _ | .assertion _ _ _ | .constructorCall _ _ _ | .empty _ =>
    rw [Statement.endings]
    exact records_pass
  | .ifThen condition thenBranch none _ =>
    rw [Statement.flow, Statement.endings]
    have hcondition := condition.widens f
    have hthen := Records.behind (thenBranch.endings · []) hcondition hscoped rfl
      (thenBranch.records [] _ (hcondition.hasScope hscoped))
    exact records_pass.seq (hthen.either (records_only nofun))
  | .ifThen condition thenBranch (some elseBranch) _ =>
    rw [Statement.flow, Statement.endings]
    have hcondition := condition.widens f
    have hwidens := (hcondition.trans (thenBranch.widens _)).setState (condition.flow f).state
    rw [List.append_nil] at hwidens
    have hthen := Records.behind (thenBranch.endings · []) hcondition hscoped rfl
      (thenBranch.records [] _ (hcondition.hasScope hscoped))
    have helse := Records.behind (elseBranch.endings · []) hwidens hscoped rfl
      (elseBranch.records [] _ (hwidens.hasScope hscoped))
    have hlater := elseBranch.widens ((thenBranch.flow (condition.flow f)).setState
      (condition.flow f).state)
    exact records_pass.seq ((hthen.later hlater.escapes).either helse)
  | .whileLoop condition body _ =>
    rw [Statement.flow, Statement.endings]
    have hcondition := condition.widens f
    have hbody := Records.behind (body.endings · []) hcondition hscoped rfl
      (body.records [] _ (hcondition.hasScope hscoped))
    exact hbody.loop records_pass
  | .doLoop body condition _ =>
    rw [Statement.flow, Statement.endings]
    have hbody := (body.records [] f hscoped).later (condition.widens (setAlive true _)).escapes
    have hround := (hbody.landing (Ending.endsRound labels)).seq records_pass
    exact (hround.seq hround.rounds).landing _
  | .forLoop init condition update body _ =>
    rw [Statement.flow, Statement.endings]
    have henter : f.enter.scopes ≠ [] := List.cons_ne_nil _ _
    have hcondition := (widens_flowInit init f.enter).trans (widens_flowOptional condition _)
    have hinit := (records_flowInit init f.enter henter).later
      ((widens_flowOptional condition _).trans (body.widens _)).escapes
    have hbody := Records.behind (body.endings · []) hcondition henter rfl
      (body.records [] _ (hcondition.hasScope henter))
    exact (hinit.seq (hbody.loop (records_exit condition))).later
      (widens_flowExprs update (setAlive true _)).escapes
  | .forEach element collection body _ =>
    rw [Statement.flow, Statement.endings]
    have hcollection := collection.widens f
    have hdeclare := widens_declare (collection.flow f).enter element.name.name
      element.type.simpleName true
    have hbody := Records.behind (body.endings · []) hdeclare (List.cons_ne_nil _ _)
      (congrArg (_ :: ·) (hcollection.flatten hscoped))
      (body.records [] _ (hdeclare.hasScope (List.cons_ne_nil _ _)))
    exact records_pass.seq ((hbody.earlier hcollection).loop records_pass)
  | .returning value _ =>
    rw [Statement.endings]
    exact records_pass.seq (records_only nofun)
  | .throwing value span =>
    rw [Statement.flow, Statement.endings]
    exact records_flowThrow value span f hscoped
  | .breaking _ _ | .continuing _ _ =>
    rw [Statement.endings]
    exact records_only nofun
  | .labeled label body _ =>
    rw [Statement.flow, Statement.endings]
    exact (body.records (label :: labels) f hscoped).landing _
  | .trying ⟨statements, _⟩ handlers none _ =>
    rw [Statement.flow_trying_none, Statement.endings]
    exact records_flowGuarded f hscoped (records_flowStatements statements · ·)
      (records_flowCatches handlers · · · ·)
  | .trying ⟨statements, _⟩ handlers (some ⟨final, _⟩) _ =>
    rw [Statement.flow_trying_some, Statement.endings]
    have hguarded := records_flowGuarded f hscoped (records_flowStatements statements · ·)
      (records_flowCatches handlers · · · ·)
    have hwidens := (widens_flowGuarded f (widens_flowStatements statements ·)
      (widens_flowCatches handlers · · ·)).setState ⟨f.state.assigned, true⟩
    have hfinal := Records.behind (endingsOf · final) hwidens hscoped rfl
      (records_inScope (records_flowStatements final · ·) _)
    have hlater := widens_flowStatements final
      ((flowGuarded statements handlers f).setState ⟨f.state.assigned, true⟩).enter
    exact (hguarded.later hlater.leave.escapes).finishing hfinal

theorem records_flowStatements (ss : List Statement) (f : BodyFlow) (hscoped : f.scopes ≠ []) :
    Records (endingsOf f.scopes.flatten ss) f (flowStatements ss f) := by
  match ss with
  | [] => rw [endingsOf]; exact records_only nofun
  | s :: rest =>
    rw [flowStatements, endingsOf]
    have hreach := widens_reach f s.span
    have hwidens := hreach.trans (s.widens (f.reach s.span))
    rw [List.append_nil] at hwidens
    have hfirst := Records.behind (s.endings · []) hreach hscoped rfl
      (s.records [] _ (hreach.hasScope hscoped))
    have hrest := Records.behind (endingsOf · rest) hwidens hscoped rfl
      (records_flowStatements rest _ (hwidens.hasScope hscoped))
    exact (hfirst.later (widens_flowStatements rest _).escapes).seq hrest

theorem records_flowInit (ss : List Statement) (f : BodyFlow) (hscoped : f.scopes ≠ []) :
    Records (endingsOf f.scopes.flatten ss) f (flowInit ss f) := by
  match ss with
  | [] => rw [endingsOf]; exact records_only nofun
  | s :: rest =>
    rw [flowInit, endingsOf]
    have hrest := Records.behind (endingsOf · rest) (s.widens f) hscoped rfl
      (records_flowInit rest _ ((s.widens f).hasScope hscoped))
    exact ((s.records [] f hscoped).later (widens_flowInit rest _).escapes).seq hrest

theorem records_flowCatches (handlers : List CatchClause) (before : List String)
    (joined : PathState) (f : BodyFlow) (hscoped : f.scopes ≠ []) (name : String) :
    Records (endingsHandling f.scopes.flatten handlers name) f
      (flowCatches handlers before joined f) := by
  match handlers with
  | [] => rw [endingsHandling]; exact nofun
  | ⟨parameter, ⟨statements, _⟩, _⟩ :: rest =>
    rw [flowCatches, endingsHandling]
    let after := (f.setState ⟨before, true⟩).inScope fun f =>
      (f.declare parameter.name.name parameter.type.simpleName true).inScope
        (flowStatements statements)
    have hdeclare := widens_declare (f.setState ⟨before, true⟩).enter parameter.name.name
      parameter.type.simpleName true
    have hhandler := ((Widens.refl f).setState ⟨before, true⟩).trans
      (hdeclare.trans (widens_flowStatements statements _).leave).leave
    have hblock := Records.behind (endingsOf · statements) hdeclare (List.cons_ne_nil _ _) rfl
      (records_inScope (records_flowStatements statements · ·) _)
    refine Records.either (fun other hother => ?_)
      (Records.behind (endingsHandling · rest name) hhandler hscoped rfl
        (records_flowCatches rest before _ _ (hhandler.hasScope hscoped) name))
    exact hblock.later (widens_flowCatches rest before _ after).escapes other hother.2

end

end AspectLang
