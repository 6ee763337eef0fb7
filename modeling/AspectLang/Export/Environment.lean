import AspectLang.Binding.Environment
import AspectLang.Export.Expr

/-! # Bindings as data -/

namespace AspectLang

open Data (ofList ofOption)

/-- Where a type variable is declared, as data. -/
def VariableOwner.data : VariableOwner → Data
  | .type id => .record [("type", .number id)]
  | .method id => .record [("method", .number id)]

/-- The fields of a class or interface. -/
def ReferenceBinding.fields (r : ReferenceBinding) : List (String × Data) := [
  ("name", .texts r.name), ("pool", .text r.poolName), ("modifiers", .number r.modifiers),
  ("superclass", ofOption .number r.superclass), ("interfaces", .numbers r.interfaces),
  ("variables", .numbers r.typeVariables)]

/-- The fields of a type variable. -/
def VariableType.fields (v : VariableType) : List (String × Data) := [
  ("name", .text v.name), ("superclass", ofOption .number v.superclass),
  ("interfaces", .numbers v.interfaces), ("declaring", ofOption VariableOwner.data v.declaring)]

/-- The fields of a type that depend on its kind. -/
def TypeBinding.fields : TypeBinding → List (String × Data)
  | .base id _ => [("id", .number id)]
  | .array leaf dims => [("leaf", .number leaf), ("dims", .number dims)]
  | .parameterized r genericType arguments =>
    r.fields ++ [("generic", ofOption .number genericType), ("arguments", .numbers arguments)]
  | .wildcard kind bound => [("wildcard", .text kind.label), ("bound", ofOption .number bound)]
  | .typeVariable v => v.fields
  | .capture v position captured sourceType => v.fields ++ [("position", .number position),
    ("wildcard", ofOption .number captured), ("source_type", ofOption .number sourceType)]
  | .generic r | .raw r | .reference r => r.fields

/-- A method as data. -/
def MethodBinding.data (m : MethodBinding) : Data := .record [
  ("selector", .text m.selector), ("modifiers", .number m.modifiers),
  ("return", ofOption .number m.returnType), ("parameters", .numbers m.parameters),
  ("throws", .numbers m.throws), ("declaring", ofOption .number m.declaringClass),
  ("variables", .numbers m.typeVariables)]

/-- A field as data. -/
def FieldBinding.data (f : FieldBinding) : Data := .record [
  ("name", .text f.name), ("modifiers", .number f.modifiers), ("type", ofOption .number f.type),
  ("declaring", ofOption .number f.declaringClass)]

namespace Environment

/-- A type as data, with its kind and its text. -/
def typeData (e : Environment) (id : TypeId) (t : TypeBinding) : Data :=
  .record (("kind", .text t.kindName) :: ("text", .text (e.describe id)) :: t.fields)

/-- The fields of an environment. -/
def dataFields (e : Environment) : List (String × Data) := [
  ("types", .list (e.types.toList.zipIdx.map fun (t, id) => e.typeData id t)),
  ("methods", ofList MethodBinding.data e.methods.toList),
  ("fields", ofList FieldBinding.data e.fields.toList)]

end Environment

end AspectLang
