import AspectLang.Flow.Body

/-! # Flow analysis of a unit

Every body of a unit is analysed on its own.  An exception that leaves a method without being
declared is reported; a construct that infers its exceptions records them instead. -/

namespace AspectLang

/-- What a flow analysis counted. -/
structure FlowCounts where
  bodies : Nat := 0
  uninitialized : Nat := 0
  unreachable : Nat := 0
  undeclared : Nat := 0
  inferred : Nat := 0
deriving DecidableEq, Inhabited, Repr

/-- The analysis of a unit so far. -/
structure UnitFlow where
  reporter : Reporter
  stats : FlowCounts := {}

namespace UnitFlow

/-- The analysis after a body. -/
def gather (u : UnitFlow) (f : BodyFlow) : UnitFlow where
  reporter := f.reporter
  stats := { u.stats with
    bodies := u.stats.bodies + 1
    uninitialized := u.stats.uninitialized + f.uninitialized
    unreachable := u.stats.unreachable + f.unreachable }

/-- Reports an exception that leaves a method, unless one of `declared` covers it. -/
def undeclared (declared : List String) (e : Escape) (u : UnitFlow) : UnitFlow :=
  if declared.any fun name => catches name e.name then u
  else
    { reporter := u.reporter.warning .undeclaredException e.span [e.name]
      stats := { u.stats with undeclared := u.stats.undeclared + 1 } }

end UnitFlow

/-- The names of exceptions, each once and in order. -/
def escapeNames (escapes : List Escape) : List String :=
  (escapes.map (·.name)).eraseDups.mergeSort (· ≤ ·)

/-- The body of a method before its first statement. -/
def MethodDecl.bodyFlow (m : MethodDecl) (r : Reporter) : BodyFlow :=
  m.parameters.foldl (fun f p => f.declare p.name.name p.type.simpleName true) { reporter := r }

/-- Analyses a method. -/
def MethodDecl.flow (m : MethodDecl) (u : UnitFlow) : MethodDecl × UnitFlow :=
  match m.statements with
  | none => (m, u)
  | some statements =>
    let f := flowStatements statements (m.bodyFlow u.reporter)
    let u := u.gather f
    match m.extension with
    | some extension =>
      if extension.infersExceptions then
        let names := escapeNames f.escapes
        ({ m with extension := some (extension.recordExceptions names) },
          { u with stats.inferred := u.stats.inferred + names.length })
      else (m, f.escapes.foldr (UnitFlow.undeclared (m.throws.map TypeRef.simpleName)) u)
    | none => (m, f.escapes.foldr (UnitFlow.undeclared (m.throws.map TypeRef.simpleName)) u)

mutual

/-- Analyses the bodies of a type. -/
def TypeDecl.flow (t : TypeDecl) (u : UnitFlow) : TypeDecl × UnitFlow :=
  match t with
  | ⟨kind, name, modifiers, annotations, typeParameters, superclass, interfaces, members, extent,
      bodyStart, bodyEnd, extension⟩ =>
    let (members, u) := flowMembers members u
    (⟨kind, name, modifiers, annotations, typeParameters, superclass, interfaces, members, extent,
      bodyStart, bodyEnd, extension⟩, u)

/-- Analyses the bodies of members. -/
def flowMembers (ms : List Member) (u : UnitFlow) : List Member × UnitFlow :=
  match ms with
  | [] => ([], u)
  | m :: rest =>
    let (m, u) := m.flow u
    let (rest, u) := flowMembers rest u
    (m :: rest, u)

/-- Analyses the bodies of a member. -/
def Member.flow (m : Member) (u : UnitFlow) : Member × UnitFlow :=
  match m with
  | .field f => (.field f, u)
  | .method m =>
    let (m, u) := m.flow u
    (.method m, u)
  | .type t =>
    let (t, u) := t.flow u
    (.type t, u)
  | .initializer i =>
    let f : BodyFlow := { reporter := u.reporter }
    (.initializer i, u.gather (f.inScope (flowStatements i.block.statements)))

end

/-- Analyses the bodies of types. -/
def flowTypes (ts : List TypeDecl) (u : UnitFlow) : List TypeDecl × UnitFlow :=
  match ts with
  | [] => ([], u)
  | t :: rest =>
    let (t, u) := t.flow u
    let (rest, u) := flowTypes rest u
    (t :: rest, u)

/-- Analyses a unit: the unit with inferred exceptions recorded, and what was found. -/
def CompilationUnit.flow (unit : CompilationUnit) (reporter : Reporter) :
    CompilationUnit × UnitFlow :=
  let (types, u) := flowTypes unit.types { reporter }
  ({ unit with types }, u)

end AspectLang
