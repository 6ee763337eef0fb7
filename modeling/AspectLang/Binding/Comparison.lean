import AspectLang.Binding.Environment

/-! # Structural equality of bindings

Two bindings, possibly of two environments, are equal when they are of the same kind, have the
same name and the same flags under `Modifiers.equalityMask`, and their components are equal.
Type variables can reach themselves through their bounds, so a comparison remembers the pairs
of types on which it met a variable on the left, and takes a pair that it meets again for
equal.

A plain or raw reference only asks that the other side is no generic declaration, so it equals
a parameterization of the same name, while the reverse comparison fails. -/

namespace AspectLang

/-- The pairs of types that a comparison has met. -/
abbrev MetPairs := List (TypeId × TypeId)

/-- A comparison: it may go on without end, which is `none`. -/
abbrev Comparison := StateT MetPairs Option Bool

namespace Comparison

/-- The second comparison counts only if the first one holds. -/
def andThen (a b : Comparison) : Comparison := do
  if ← a then b else return false

/-- A test before a comparison. -/
def guarded (test : Bool) (a : Comparison) : Comparison := if test then a else return false

/-- Pairwise comparison of two lists of the same length. -/
def pairwise (compare : TypeId → TypeId → Comparison) : List TypeId → List TypeId → Comparison
  | [], [] => return true
  | l :: ls, r :: rs => (compare l r).andThen (pairwise compare ls rs)
  | _, _ => return false

/-- Compares what may be absent. -/
def optional (compare : TypeId → TypeId → Comparison) : Option TypeId → Option TypeId → Comparison
  | none, none => return true
  | some l, some r => compare l r
  | _, _ => return false

/-- Compares lists; those of different lengths differ without a look at their elements. -/
def lists (compare : TypeId → TypeId → Comparison) (ls rs : List TypeId) : Comparison :=
  guarded (ls.length == rs.length) (pairwise compare ls rs)

/-- Notes a pair, and does the comparison unless the pair was met before. -/
def meeting (pair : TypeId × TypeId) (a : Comparison) : Comparison := do
  if (← get).contains pair then return true
  else
    modify (pair :: ·)
    a

end Comparison

/-- Whether two sets of modifiers agree where it matters for equality. -/
def Modifiers.agree (a b : Modifiers) : Bool :=
  a &&& Modifiers.equalityMask == b &&& Modifiers.equalityMask

/-- Whether two sets of modifiers agree in the flags of a class file. -/
def Modifiers.agreeInFlags (a b : Modifiers) : Bool :=
  a &&& Modifiers.classFileMask == b &&& Modifiers.classFileMask

/-- Whether two references have the same name and agree in modifiers. -/
def ReferenceBinding.agree (a b : ReferenceBinding) : Bool :=
  a.name == b.name && a.modifiers.agree b.modifiers

/-- Two environments whose bindings are compared. -/
structure EnvironmentPair where
  left : Environment
  right : Environment

namespace EnvironmentPair

open Comparison

variable (p : EnvironmentPair) (compare : TypeId → TypeId → Comparison)

/-! ### One step, with a comparison for the components -/

/-- Compares methods by their components. -/
def stepMethod (l r : MethodBinding) : Comparison :=
  guarded (l.selector == r.selector) <|
    (optional compare l.returnType r.returnType).andThen <|
    (lists compare l.throws r.throws).andThen <|
    (optional compare l.declaringClass r.declaringClass).andThen <|
    (lists compare l.typeVariables r.typeVariables).andThen <|
    lists compare l.parameters r.parameters

/-- Compares methods by number. -/
def stepMethodId (l r : MethodId) : Comparison :=
  match p.left.methods[l]?, p.right.methods[r]? with
  | some l, some r => stepMethod compare l r
  | _, _ => return false

/-- Compares the places where type variables are declared. -/
def stepDeclaring : Option VariableOwner → Option VariableOwner → Comparison
  | none, none => return true
  | some (.type l), some (.type r) => compare l r
  | some (.method l), some (.method r) => p.stepMethodId compare l r
  | _, _ => return false

/-- Compares type variables by their components. -/
def stepVariable (l r : VariableType) : Comparison :=
  guarded (l.name == r.name) <|
    (p.stepDeclaring compare l.declaring r.declaring).andThen <|
    (optional compare l.superclass r.superclass).andThen <|
    lists compare l.interfaces r.interfaces

/-- The rule for plain and raw references. -/
def defaultRule (reference : ReferenceBinding) (l r : TypeBinding) : Bool :=
  match r.reference? with
  | some other =>
    reference.name == other.name && reference.poolName == other.poolName && !r.isGeneric &&
      l.isRaw == r.isRaw && reference.modifiers.agree other.modifiers
  | none => false

/-- Compares two types by their components; `pair` are their numbers. -/
def stepBinding (pair : TypeId × TypeId) (l r : TypeBinding) : Comparison :=
  match l with
  | .base id _ =>
    match r with
    | .base other _ => return id == other
    | _ => return false
  | .array leaf dims =>
    match r with
    | .array otherLeaf otherDims => guarded (dims == otherDims) (compare leaf otherLeaf)
    | _ => return false
  | .parameterized reference _ arguments =>
    match r with
    | .parameterized other _ otherArguments =>
      guarded (reference.agree other) (lists compare arguments otherArguments)
    | _ => return false
  | .wildcard kind bound =>
    match r with
    | .wildcard otherKind otherBound =>
      (optional compare bound otherBound).andThen (return kind == otherKind)
    | _ => return false
  | .typeVariable v =>
    meeting pair <|
      match r with
      | .typeVariable other | .capture other _ _ _ => p.stepVariable compare v other
      | _ => return false
  | .capture _ position wildcard sourceType =>
    meeting pair <|
      match r with
      | .capture _ otherPosition otherWildcard otherSourceType =>
        guarded (position == otherPosition) <|
          (optional compare wildcard otherWildcard).andThen <|
          optional compare sourceType otherSourceType
      | _ => return false
  | .generic reference =>
    match r with
    | .generic other =>
      guarded (reference.agree other) (lists compare reference.typeVariables other.typeVariables)
    | _ => return false
  | .raw reference | .reference reference => return defaultRule reference l r

/-- Compares two types by number; a number without a type equals nothing. -/
def stepType (l r : TypeId) : Comparison :=
  match p.left.types[l]?, p.right.types[r]? with
  | some a, some b => p.stepBinding compare (l, r) a b
  | _, _ => return false

/-! ### Comparisons -/

/-- Compares two types, at most `depth` levels down. -/
def compareWithin : (depth : Nat) → TypeId → TypeId → Comparison
  | 0, _, _ => fun _ => none
  | depth + 1, l, r => p.stepType (compareWithin depth) l r

/-- Levels beyond which a comparison repeats itself: without a new pair that it remembers, no
pair can come back on the way down, and there are no more than `pairs` of either. -/
def depthLimit : Nat :=
  let pairs := p.left.types.size * p.right.types.size
  (pairs + 1) * (pairs + 2)

/-- Compares two types. -/
def compareTypes (l r : TypeId) : Comparison := p.compareWithin p.depthLimit l r

/-- Compares two fields. -/
def compareFields (l r : FieldBinding) : Comparison :=
  guarded (l.modifiers.agreeInFlags r.modifiers && l.name == r.name) <|
    (optional p.compareTypes l.type r.type).andThen <|
    optional p.compareTypes l.declaringClass r.declaringClass

/-- Compares two local variables. -/
def compareVariables (l r : VariableBinding) : Comparison :=
  guarded (l.modifiers.agreeInFlags r.modifiers && l.name == r.name) <|
    (optional p.compareTypes l.type r.type).andThen <|
    return l.position == r.position

/-- Compares two bindings. -/
def compareBindings : Binding → Binding → Comparison
  | .type l, .type r => p.compareTypes l r
  | .method l, .method r => p.stepMethodId p.compareTypes l r
  | .field l, .field r =>
    match p.left.fields[l]?, p.right.fields[r]? with
    | some l, some r => p.compareFields l r
    | _, _ => return false
  | .localVariable l, .localVariable r =>
    match p.left.locals[l]?, p.right.locals[r]? with
    | some l, some r => p.compareVariables l r
    | _, _ => return false
  | .package l, .package r => return l == r
  | .importing l lStatic lOnDemand, .importing r rStatic rOnDemand =>
    return lStatic == rStatic && lOnDemand == rOnDemand && l == r
  | _, _ => return false

end EnvironmentPair

/-- The answer of a comparison from the start; one without end does not hold. -/
def Comparison.holds (c : Comparison) : Bool :=
  match c.run [] with
  | some (answer, _) => answer
  | none => false

/-- Whether two types are equal. -/
def typesEqual (left : Environment) (l : TypeId) (right : Environment) (r : TypeId) : Bool :=
  (EnvironmentPair.compareTypes ⟨left, right⟩ l r).holds

/-- Whether two lists of types are equal, in one comparison. -/
def typeListsEqual (left : Environment) (ls : List TypeId) (right : Environment)
    (rs : List TypeId) : Bool :=
  (Comparison.lists (EnvironmentPair.compareTypes ⟨left, right⟩) ls rs).holds

/-- Whether two bindings are equal. -/
def bindingsEqual (left : Environment) (l : Binding) (right : Environment) (r : Binding) : Bool :=
  (EnvironmentPair.compareBindings ⟨left, right⟩ l r).holds

/-- Whether two lists of bindings, each with its environment, are equal in order. -/
def bindingListsEqual : List (Environment × Binding) → List (Environment × Binding) → Bool
  | [], [] => true
  | (le, l) :: ls, (re, r) :: rs => bindingsEqual le l re r && bindingListsEqual ls rs
  | _, _ => false

end AspectLang
