import AspectLang.Flow.Unit

/-! # Paths through bodies

A path through a construct starts with the variables that are assigned so far and ends with
those assigned then.  Every condition may go either way, a loop may make any number of rounds,
an exception may come up at any point, and a jump lands where its label says.

A path is followed up to any point of a run: `Exit.misread` is where it evaluates a local
variable that was not assigned on it.  Since the run may also go on from there, one path can
be looked at up to each such evaluation.

The paths of a construct are made from those of its parts with a few combinators, one for each
way in which parts follow each other. -/

namespace AspectLang

/-- How a path through a construct ends. -/
inductive Exit where
  | normal
  | broke (label : Option String)
  | continued (label : Option String)
  | returned
  | thrown
  /-- The path is at the evaluation of a local variable that it did not assign. -/
  | misread (name : String)
deriving DecidableEq

namespace Exit

/-- Whether a path ends by a jump within its body. -/
def isJump : Exit → Bool
  | broke _ | continued _ => true
  | _ => false

/-- Whether an exit of its body ends a round of a loop with given labels, and no more. -/
def endsRound (labels : List String) : Exit → Bool
  | continued none => true
  | continued (some label) => labels.contains label
  | _ => false

/-- Whether an exit of its body ends a loop. -/
def endsLoop : Exit → Bool
  | broke none => true
  | _ => false

/-- Whether an exit of a statement lands behind it because of its label. -/
def endsLabeled (label : String) : Exit → Bool
  | broke (some target) => target == label
  | _ => false

end Exit

/-- Which paths there are: the variables assigned before, how the path ends, and the variables
assigned then. -/
abbrev Paths := List String → Exit → List String → Prop

namespace Paths

/-- The path that ends at once. -/
def halt (exit : Exit) : Paths := fun before x after => x = exit ∧ after = before

/-- The paths of one of two constructs. -/
def either (p q : Paths) : Paths := fun before x after => p before x after ∨ q before x after

/-- Nothing happens, unless an exception comes up. -/
def pass : Paths := either (halt .normal) (halt .thrown)

/-- The path that assigns a variable. -/
def assign (name : String) : Paths := fun before x after => x = .normal ∧ after = name :: before

/-- The path that makes a variable without a value. -/
def create (name : String) : Paths :=
  fun before x after => x = .normal ∧ after = before.filter (· != name)

/-- The paths that evaluate a name, where the variables `scope` are in scope. -/
def read (scope : List String) (name : String) : Paths :=
  either pass fun before x after =>
    (name ∈ scope ∧ name ∉ before) ∧ halt (.misread name) before x after

/-- A path of `p`, and then one of `q` unless the first one ends otherwise than normally. -/
def seq (p q : Paths) : Paths := fun before x after =>
  (∃ between, p before .normal between ∧ q between x after) ∨ (x ≠ .normal ∧ p before x after)

/-- The paths of `p`, some exits of which land behind it. -/
def landing (lands : Exit → Bool) (p : Paths) : Paths := fun before x after =>
  ∃ y, p before y after ∧ x = if lands y then .normal else y

/-- Any number of rounds, the last of which may end otherwise than normally. -/
inductive rounds (p : Paths) : Paths
  | none {before} : rounds p before .normal before
  | next {before between x after} : p before .normal between → rounds p between x after →
      rounds p before x after
  | last {before x after} : p before x after → x ≠ .normal → rounds p before x after

/-- A loop with given labels: a round goes through `head`, `body` and `tail`, and after any number
of rounds the loop ends with `exit`. -/
def loop (labels : List String) (head body tail exit : Paths) : Paths :=
  landing Exit.endsLoop
    ((rounds (head.seq ((landing (Exit.endsRound labels) body).seq tail))).seq exit)

/-- The paths of `p`; an exception may be caught by `handler`, or go on. -/
def catching (p handler : Paths) : Paths := either p fun before x after =>
  ∃ between, p before .thrown between ∧ handler between x after

/-- However a path of `p` ends, one of `final` follows it; if that one ends normally, the exit
of the first one still holds. -/
def finishing (p final : Paths) : Paths := fun before x after =>
  (∃ y between z, (p before y between ∧ ∀ name, y ≠ .misread name) ∧ final between z after ∧
    x = if z = .normal then y else z) ∨
  (∃ name, x = .misread name ∧ p before x after)

end Paths

/-! ### Expressions -/

/-- Whether the value of its left side may decide an operation. -/
def BinaryOperator.isShortcut : BinaryOperator → Bool
  | .andAnd | .orOr => true
  | _ => false

/-- Whether an operator stores into its operand. -/
def UnaryOperator.stores : UnaryOperator → Bool
  | .preIncrement | .preDecrement | .postIncrement | .postDecrement => true
  | _ => false

/-- The path that stores into an expression that was evaluated: it matters for a word only. -/
def Expr.storePaths (e : Expr) : Paths :=
  match e.word? with
  | some word => .assign word
  | none => .pass

mutual

/-- The paths through an expression. -/
def Expr.paths (scope : List String) (e : Expr) : Paths :=
  match e with
  | .literal _ _ _ | .this _ | .super _ | .annotationUse _ => .pass
  | .name n =>
    match n.segments with
    | word :: _ => .read scope word.name
    | [] => .pass
  | .fieldAccess receiver _ _ => (receiver.paths scope).seq .pass
  | .send none _ arguments _ _ => (pathsExprs scope arguments).seq .pass
  | .send (some receiver) _ arguments _ _ =>
    ((receiver.paths scope).seq (pathsExprs scope arguments)).seq .pass
  | .new _ arguments _ => (pathsExprs scope arguments).seq .pass
  | .assign target operator value _ =>
    match target.word? with
    | some word =>
      let first := if operator.isSome then target.paths scope else .pass
      (first.seq (value.paths scope)).seq (.assign word)
    | none => ((target.paths scope).seq (value.paths scope)).seq .pass
  | .binary left operator right _ =>
    (left.paths scope).seq (if operator.isShortcut then .either (.halt .normal) (right.paths scope)
      else (right.paths scope).seq .pass)
  | .unary operator operand _ =>
    (operand.paths scope).seq (if operator.stores then operand.storePaths else .pass)
  | .conditional condition whenTrue whenFalse _ =>
    (condition.paths scope).seq (.either (whenTrue.paths scope) (whenFalse.paths scope))
  | .instanceOf value _ _ => value.paths scope
  | .paren inner _ => inner.paths scope

/-- The paths through expressions in order. -/
def pathsExprs (scope : List String) (es : List Expr) : Paths :=
  match es with
  | [] => .pass
  | e :: rest => (e.paths scope).seq (pathsExprs scope rest)

end

/-- The paths through an expression, if there is one. -/
def pathsOptional (scope : List String) (e : Option Expr) : Paths :=
  match e with
  | some e => e.paths scope
  | none => .pass

/-- The paths that leave a loop by its condition: a loop without one is never left so. -/
def exitPaths (scope : List String) (condition : Option Expr) : Paths :=
  match condition with
  | some condition => condition.paths scope
  | none => fun _ _ _ => False

/-! ### Statements -/

/-- The variables in scope behind a statement of a block. -/
def Statement.scopeAfter (scope : List String) : Statement → List String
  | .localVariable v => v.name.name :: scope
  | _ => scope

/-- The paths that declare a local variable.  It is in scope in its own initial value. -/
def LocalVariable.paths (scope : List String) (v : LocalVariable) : Paths :=
  match v.initializer with
  | some value =>
    ((Paths.create v.name.name).seq (value.paths (v.name.name :: scope))).seq (.assign v.name.name)
  | none => .create v.name.name

mutual

/-- The paths through a statement with given labels. -/
def Statement.paths (scope labels : List String) (s : Statement) : Paths :=
  match s with
  | .block ⟨statements, _⟩ => pathsStatements scope statements
  | .localVariable v => v.paths scope
  | .expression value _ => value.paths scope
  | .ifThen condition thenBranch none _ =>
    (condition.paths scope).seq (.either (thenBranch.paths scope []) (.halt .normal))
  | .ifThen condition thenBranch (some elseBranch) _ =>
    (condition.paths scope).seq
      (.either (thenBranch.paths scope []) (elseBranch.paths scope []))
  | .whileLoop condition body _ =>
    .loop labels (condition.paths scope) (body.paths scope []) .pass (condition.paths scope)
  | .doLoop body condition _ =>
    let round := (Paths.landing (Exit.endsRound labels) (body.paths scope [])).seq
      (condition.paths scope)
    .landing Exit.endsLoop (round.seq (.rounds round))
  | .forLoop init condition update body _ =>
    let inner := init.foldl Statement.scopeAfter scope
    (pathsStatements scope init).seq
      (.loop labels (pathsOptional inner condition) (body.paths inner [])
        (pathsExprs inner update) (exitPaths inner condition))
  | .forEach element collection body _ =>
    (collection.paths scope).seq
      (.loop labels (.assign element.name.name) (body.paths (element.name.name :: scope) []) .pass
        .pass)
  | .returning value _ => (pathsOptional scope value).seq (.halt .returned)
  | .throwing value _ => (value.paths scope).seq (.halt .thrown)
  | .breaking label _ => .halt (.broke label)
  | .continuing label _ => .halt (.continued label)
  | .labeled label body _ => .landing (Exit.endsLabeled label) (body.paths scope (label :: labels))
  | .trying ⟨statements, _⟩ handlers none _ =>
    (pathsStatements scope statements).catching (pathsCatches scope handlers)
  | .trying ⟨statements, _⟩ handlers (some ⟨final, _⟩) _ =>
    ((pathsStatements scope statements).catching (pathsCatches scope handlers)).finishing
      (pathsStatements scope final)
  | .assertion condition message _ =>
    .either (.halt .normal) ((condition.paths scope).seq
      (.either (.halt .normal) ((pathsOptional scope message).seq (.halt .thrown))))
  | .constructorCall _ arguments _ => (pathsExprs scope arguments).seq .pass
  | .empty _ => .pass

/-- The paths through the statements of a block. -/
def pathsStatements (scope : List String) (ss : List Statement) : Paths :=
  match ss with
  | [] => .pass
  | s :: rest => (s.paths scope []).seq (pathsStatements (s.scopeAfter scope) rest)

/-- The paths through one of some handlers. -/
def pathsCatches (scope : List String) (handlers : List CatchClause) : Paths :=
  match handlers with
  | [] => fun _ _ _ => False
  | ⟨parameter, ⟨statements, _⟩, _⟩ :: rest =>
    .either ((Paths.assign parameter.name.name).seq
        (pathsStatements (parameter.name.name :: scope) statements))
      (pathsCatches scope rest)

end

/-! ### Bodies -/

/-- A body of a unit, with the variables that are in scope and assigned from the start. -/
structure Body where
  parameters : List String
  statements : List Statement

/-- Whether some path through a body evaluates a local variable that the path did not assign
before. -/
def Body.Misreads (b : Body) (name : String) : Prop :=
  ∃ after, pathsStatements b.parameters b.statements b.parameters (.misread name) after

/-- The body of a method, if it has one. -/
def MethodDecl.bodies (m : MethodDecl) : List Body :=
  match m.statements with
  | none => []
  | some statements => [⟨m.parameters.map (·.name.name), statements⟩]

mutual

/-- The bodies in a type. -/
def TypeDecl.bodies : TypeDecl → List Body
  | ⟨_, _, _, _, _, _, _, members, _, _, _, _⟩ => bodiesOf members

/-- The bodies in members. -/
def bodiesOf : List Member → List Body
  | [] => []
  | m :: rest => m.bodies ++ bodiesOf rest

/-- The bodies in a member. -/
def Member.bodies : Member → List Body
  | .field _ => []
  | .method m => m.bodies
  | .type t => t.bodies
  | .initializer i => [⟨[], i.block.statements⟩]

end

/-- The bodies in a unit. -/
def CompilationUnit.bodies (unit : CompilationUnit) : List Body :=
  unit.types.flatMap TypeDecl.bodies

end AspectLang
