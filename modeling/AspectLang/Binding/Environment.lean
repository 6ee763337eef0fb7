import AspectLang.Modifiers
import AspectLang.Tree.TypeRef

/-! # Bindings

A binding is what a name of a program stands for.  The bindings of one unit live in an
`Environment` and point at each other by number, so that cycles such as `T extends
Comparable<T>` need nothing special. -/

namespace AspectLang

/-- The number of a type in its environment. -/
abbrev TypeId := Nat

/-- The number of a method in its environment. -/
abbrev MethodId := Nat

/-- The number of a field in its environment. -/
abbrev FieldId := Nat

/-- The number of a local variable in its environment. -/
abbrev VariableId := Nat

/-- The fixed number of a base type. -/
def baseTypeId? : String → Option Nat
  | "char" => some 2
  | "byte" => some 3
  | "short" => some 4
  | "boolean" => some 5
  | "void" => some 6
  | "long" => some 7
  | "double" => some 8
  | "float" => some 9
  | "int" => some 10
  | "null" => some 12
  | _ => none

/-- What classes and interfaces have in common. -/
structure ReferenceBinding where
  /-- The words of the qualified name. -/
  name : List String
  /-- The binary name, such as `java/util/Map$Entry`. -/
  poolName : String
  modifiers : Modifiers
  superclass : Option TypeId := none
  interfaces : List TypeId := []
  typeVariables : List TypeId := []
deriving DecidableEq, Inhabited, Repr

namespace ReferenceBinding

/-- A class or interface without supertypes. -/
def of (name : List String) (modifiers : Modifiers) : ReferenceBinding :=
  { name, poolName := "/".intercalate name, modifiers }

/-- The name with dots. -/
def qualifiedName (r : ReferenceBinding) : String := ".".intercalate r.name

end ReferenceBinding

/-- Where a type variable is declared. -/
inductive VariableOwner where
  | type (id : TypeId)
  | method (id : MethodId)
deriving DecidableEq, Inhabited, Repr

/-- A type variable with its bounds. -/
structure VariableType where
  name : String
  declaring : Option VariableOwner := none
  superclass : Option TypeId := none
  interfaces : List TypeId := []
deriving DecidableEq, Inhabited, Repr

/-- A type. -/
inductive TypeBinding where
  | base (id : Nat) (name : String)
  | array (leaf : TypeId) (dims : Nat)
  | parameterized (reference : ReferenceBinding) (generic : Option TypeId) (arguments : List TypeId)
  | wildcard (kind : WildcardKind) (bound : Option TypeId)
  | typeVariable (declared : VariableType)
  /-- A wildcard captured where an expression uses it. -/
  | capture (declared : VariableType) (position : Nat) (wildcard sourceType : Option TypeId)
  /-- A type declared with type parameters. -/
  | generic (reference : ReferenceBinding)
  /-- A generic type used without arguments. -/
  | raw (reference : ReferenceBinding)
  /-- A plain class or interface, also one that is not declared. -/
  | reference (reference : ReferenceBinding)
deriving DecidableEq, Inhabited, Repr

namespace TypeBinding

/-- The words for the kind of type. -/
def kindName : TypeBinding → String
  | .base .. => "base type"
  | .array .. => "array type"
  | .parameterized .. => "parameterized type"
  | .wildcard .. => "wildcard"
  | .typeVariable _ => "type variable"
  | .capture .. => "capture"
  | .generic _ => "generic type"
  | .raw _ => "raw type"
  | .reference _ => "type"

/-- The class or interface that a type is or is made from. -/
def reference? : TypeBinding → Option ReferenceBinding
  | .parameterized r _ _ | .generic r | .raw r | .reference r => some r
  | _ => none

/-- Whether the type is declared with type parameters. -/
def isGeneric : TypeBinding → Bool
  | .generic _ => true
  | _ => false

/-- Whether the type is a generic one without arguments. -/
def isRaw : TypeBinding → Bool
  | .raw _ => true
  | _ => false

/-- The declared class or interface that a type is. -/
def declared? : TypeBinding → Option ReferenceBinding
  | .generic r | .reference r => some r
  | _ => none

end TypeBinding

/-- A method. -/
structure MethodBinding where
  selector : String
  modifiers : Modifiers
  returnType : Option TypeId := none
  parameters : List TypeId := []
  throws : List TypeId := []
  declaringClass : Option TypeId := none
  typeVariables : List TypeId := []
deriving DecidableEq, Inhabited, Repr

/-- A field. -/
structure FieldBinding where
  name : String
  modifiers : Modifiers
  type : Option TypeId := none
  declaringClass : Option TypeId := none
deriving DecidableEq, Inhabited, Repr

/-- A local variable or a parameter; `position` counts the local variables of its method. -/
structure VariableBinding where
  name : String
  modifiers : Modifiers
  type : Option TypeId := none
  position : Nat := 0
deriving DecidableEq, Inhabited, Repr

/-- Anything that a name can stand for. -/
inductive Binding where
  | type (id : TypeId)
  | method (id : MethodId)
  | field (id : FieldId)
  | localVariable (id : VariableId)
  | package (name : List String)
  | importing (name : List String) (isStatic onDemand : Bool)
deriving DecidableEq, Inhabited, Repr

/-- The words for a binding. -/
def Binding.render : Binding → String
  | .type id => s!"type#{id}"
  | .method id => s!"method#{id}"
  | .field id => s!"field#{id}"
  | .localVariable id => s!"variable#{id}"
  | .package name => "package " ++ ".".intercalate name
  | .importing name isStatic onDemand =>
    "import " ++ (if isStatic then "static " else "") ++ ".".intercalate name ++
      (if onDemand then ".*" else "")

/-! ### Environments -/

/-- The bindings of one unit. -/
structure Environment where
  types : Array TypeBinding := #[]
  methods : Array MethodBinding := #[]
  fields : Array FieldBinding := #[]
  locals : Array VariableBinding := #[]
deriving DecidableEq, Inhabited, Repr

namespace Environment

/-- Adds a type. -/
def addType (e : Environment) (t : TypeBinding) : TypeId × Environment :=
  (e.types.size, { e with types := e.types.push t })

/-- Adds a method. -/
def addMethod (e : Environment) (m : MethodBinding) : MethodId × Environment :=
  (e.methods.size, { e with methods := e.methods.push m })

/-- Adds a field. -/
def addField (e : Environment) (f : FieldBinding) : FieldId × Environment :=
  (e.fields.size, { e with fields := e.fields.push f })

/-- Adds a local variable. -/
def addVariable (e : Environment) (v : VariableBinding) : VariableId × Environment :=
  (e.locals.size, { e with locals := e.locals.push v })

/-- Changes a type, if it exists. -/
def updateType (e : Environment) (id : TypeId) (change : TypeBinding → TypeBinding) : Environment :=
  { e with types := e.types.modify id change }

/-- Changes a method, if it exists. -/
def updateMethod (e : Environment) (id : MethodId) (change : MethodBinding → MethodBinding) :
    Environment :=
  { e with methods := e.methods.modify id change }

/-- The first declared type with a given qualified name. -/
def declaredType? (e : Environment) (name : String) : Option TypeId :=
  e.types.findIdx? fun t => t.declared?.any (·.qualifiedName == name)

/-- The first method of a type with a given selector. -/
def methodNamed? (e : Environment) (type : TypeId) (selector : String) : Option MethodId :=
  e.methods.findIdx? fun m => m.declaringClass == some type && m.selector == selector

/-- The first field of a type with a given name. -/
def fieldNamed? (e : Environment) (type : TypeId) (name : String) : Option FieldId :=
  e.fields.findIdx? fun f => f.declaringClass == some type && f.name == name

/-! ### Texts -/

/-- A type in words, down to `depth` levels. -/
def describeWithin (e : Environment) : (depth : Nat) → (id : TypeId) → String
  | 0, _ => "..."
  | depth + 1, id =>
    match e.types[id]? with
    | none => "<missing>"
    | some (.base _ name) => name
    | some (.array leaf dims) =>
      e.describeWithin depth leaf ++ String.join (List.replicate dims "[]")
    | some (.parameterized r _ arguments) =>
      r.qualifiedName ++ "<" ++ ", ".intercalate (arguments.map (e.describeWithin depth)) ++ ">"
    | some (.wildcard .upper (some bound)) => "? extends " ++ e.describeWithin depth bound
    | some (.wildcard .lower (some bound)) => "? super " ++ e.describeWithin depth bound
    | some (.wildcard _ _) => "?"
    | some (.typeVariable v) => v.name
    | some (.capture v position _ _) => s!"capture#{position} of {v.name}"
    | some (.generic r) | some (.reference r) => r.qualifiedName
    | some (.raw r) => r.qualifiedName ++ " (raw)"

/-- Levels of a type that are described. -/
def describedLevels : Nat := 17

/-- A type in words. -/
def describe (e : Environment) (id : TypeId) : String := e.describeWithin describedLevels id

end Environment

end AspectLang
