import AspectLang.Binding.Environment
import AspectLang.Tree.Declaration

/-! # Resolving a unit

Types that a unit declares, and the type variables in scope, are found by name; every other
name becomes a plain reference with the name as it is written, or as a single import spells
it.  A first pass makes one binding per declared type, so that the second one can refer to any
of them. -/

namespace AspectLang

/-- A unit in the middle of being resolved.  Of two entries with the same name the first one
counts. -/
structure Resolver where
  env : Environment := {}
  package : List String := []
  /-- Declared types by simple and by qualified name. -/
  declared : List (String × TypeId) := []
  /-- Qualified names by the simple names under which they are imported. -/
  imported : List (String × List String) := []
  /-- The base types met so far. -/
  base : List (String × TypeId) := []
  /-- The type variables of the scopes around, the innermost first. -/
  scopes : List (List (String × TypeId)) := []
  /-- Declared types whose members are still to be resolved. -/
  pending : List TypeId := []

/-- A step of resolving. -/
abbrev Resolve := StateM Resolver

namespace Resolve

/-- Adds a type. -/
def addType (t : TypeBinding) : Resolve TypeId := modifyGet fun r =>
  let (id, env) := r.env.addType t
  (id, { r with env })

/-- Adds a method. -/
def addMethod (m : MethodBinding) : Resolve MethodId := modifyGet fun r =>
  let (id, env) := r.env.addMethod m
  (id, { r with env })

/-- Adds a field. -/
def addField (f : FieldBinding) : Resolve Unit := modify fun r =>
  { r with env := (r.env.addField f).2 }

/-! ### Types -/

/-- The type variable with a given name. -/
def typeVariable? (name : String) (r : Resolver) : Option TypeId :=
  r.scopes.findSome? fun scope => scope.lookup name

/-- The type variable that a type without dots and arguments is. -/
def wordVariable? (segments : List TypeSegment) (r : Resolver) : Option TypeId :=
  match segments with
  | [⟨word, [], _⟩] => typeVariable? word r
  | _ => none

/-- An array type; an array of arrays is one with more dimensions. -/
def arrayOf (leaf : TypeId) (dims : Nat) : Resolve TypeId := do
  match (← get).env.types[leaf]? with
  | some (.array inner existing) => addType (.array inner (existing + dims))
  | _ => addType (.array leaf dims)

/-- A base type. -/
def baseType (word : String) : Resolve TypeId := do
  let (id, name) := match baseTypeId? word with
    | some id => (id, word)
    | none => (0, "<unknown>")
  match (← get).base.lookup name with
  | some type => return type
  | none =>
    let type ← addType (.base id name)
    modify fun r => { r with base := (name, type) :: r.base }
    return type

/-- What is known of a class or interface by its name: the declared type and the reference. -/
def lookupName (words : List String) (r : Resolver) : Option TypeId × ReferenceBinding :=
  let name := ".".intercalate words
  let declared := r.declared.lookup name
  let plain := ReferenceBinding.of ((r.imported.lookup name).getD words) 0
  (declared, ((declared.bind fun id => r.env.types[id]?).bind TypeBinding.reference?).getD plain)

/-- A class or interface without arguments. -/
def plainType (declared : Option TypeId) (reference : ReferenceBinding) : Resolve TypeId := do
  match declared with
  | none => addType (.reference reference)
  | some id =>
    if (← get).env.types[id]?.any TypeBinding.isGeneric then addType (.raw reference)
    else return id

mutual

/-- Resolves a type. -/
def resolveType : TypeRef → Resolve TypeId
  | ⟨segments, dims, primitive, _⟩ => do
    let leaf ←
      if primitive then baseType ((segments.getLast?.map TypeSegment.name).getD "")
      else do
        let r ← get
        match wordVariable? segments r with
        | some id => pure id
        | none =>
          let (declared, reference) := lookupName (segments.map TypeSegment.name) r
          match ← resolveLast segments with
          | [] => plainType declared reference
          | arguments => addType (.parameterized reference declared arguments)
    if dims = 0 then return leaf else arrayOf leaf dims

/-- Resolves the type arguments of the last segment. -/
def resolveLast : List TypeSegment → Resolve (List TypeId)
  | [] => return []
  | [⟨_, arguments, _⟩] => resolveArguments arguments
  | _ :: rest => resolveLast rest

/-- Resolves type arguments in order. -/
def resolveArguments : List TypeArgument → Resolve (List TypeId)
  | [] => return []
  | argument :: rest => do
    let id ← resolveArgument argument
    return id :: (← resolveArguments rest)

/-- Resolves a type argument. -/
def resolveArgument : TypeArgument → Resolve TypeId
  | .type type => resolveType type
  | .wildcard kind none _ => addType (.wildcard kind none)
  | .wildcard kind (some bound) _ => do
    let bound ← resolveType bound
    addType (.wildcard kind (some bound))

end

/-! ### Type variables -/

/-- Gives a type variable its bounds: a first bound that is no interface is its superclass. -/
def setBounds (id : TypeId) (bounds : List TypeId) : Resolve Unit := modify fun r =>
  let isInterface (b : TypeId) : Bool :=
    (r.env.types[b]?.bind TypeBinding.reference?).any fun r =>
      r.modifiers.meets Modifiers.interfaceFlag
  { r with env := r.env.updateType id fun
      | .typeVariable v =>
        .typeVariable (match bounds with
          | [] => v
          | first :: rest =>
            if isInterface first then { v with interfaces := v.interfaces ++ first :: rest }
            else { v with superclass := some first, interfaces := v.interfaces ++ rest })
      | t => t }

/-- Opens a scope with one variable per parameter; the bounds may mention all of them. -/
def bindTypeParameters (parameters : List TypeParameter) (declaring : VariableOwner) :
    Resolve (List TypeId) := do
  let ids ← parameters.mapM fun p =>
    addType (.typeVariable { name := p.name, declaring := some declaring })
  let scope := ((parameters.map TypeParameter.name).zip ids).reverse
  modify fun r => { r with scopes := scope :: r.scopes }
  for (p, id) in parameters.zip ids do
    setBounds id (← p.bounds.mapM resolveType)
  return ids

/-- Closes the innermost scope. -/
def closeScope : Resolve Unit := modify fun r => { r with scopes := r.scopes.tail }

/-! ### Members -/

/-- Resolves a field. -/
def resolveField (owner : TypeId) (f : FieldDecl) : Resolve Unit := do
  let type ← resolveType f.type
  addField
    { name := f.name, modifiers := f.modifiers, type := some type, declaringClass := some owner }

/-- Resolves the type of a parameter. -/
def resolveParameter (p : Parameter) : Resolve TypeId := do
  let type ← resolveType p.type
  if p.varargs then arrayOf type 1 else return type

/-- Resolves a type, if there is one. -/
def resolveOptional : Option TypeRef → Resolve (Option TypeId)
  | none => return none
  | some type => some <$> resolveType type

/-- Resolves a method. -/
def resolveMethod (owner : TypeId) (m : MethodDecl) : Resolve Unit := do
  let id ← addMethod
    { selector := m.selector, modifiers := m.modifiers, declaringClass := some owner }
  let typeVariables ← bindTypeParameters m.typeParameters (.method id)
  let returnType ← resolveOptional m.returnType
  let parameters ← m.parameters.mapM resolveParameter
  let throws ← m.throws.mapM resolveType
  closeScope
  modify fun r =>
    { r with env := r.env.updateMethod id fun binding =>
        { binding with returnType, parameters, throws, typeVariables } }

/-! ### Declared types -/

/-- The binding of a declared type before its supertypes are known. -/
def declaration (package name : List String) (t : TypeDecl) : TypeBinding :=
  let flags := match t.kind with
    | .interfaceType => t.modifiers ||| Modifiers.interfaceFlag
    | .classType => t.modifiers
  let nested := "$".intercalate (name.drop package.length)
  let reference := { ReferenceBinding.of name flags with
    poolName := "/".intercalate (package ++ [nested]) }
  if t.typeParameters.isEmpty then .reference reference else .generic reference

/-- Makes the binding of a declared type. -/
def declareType (name : List String) (t : TypeDecl) : Resolve Unit := modify fun r =>
  let (id, env) := r.env.addType (declaration r.package name t)
  { r with
    env
    declared := (".".intercalate name, id) :: (t.name, id) :: r.declared
    pending := r.pending ++ [id] }

mutual

/-- Makes the bindings of a type and of its member types. -/
def declareAll (outer : List String) (t : TypeDecl) : Resolve Unit := do
  declareType (outer ++ [t.name]) t
  match t with
  | ⟨_, name, _, _, _, _, _, members, _, _, _, _⟩ => declareMembers (outer ++ [name]) members

/-- Makes the bindings of the types among members. -/
def declareMembers (outer : List String) (members : List Member) : Resolve Unit :=
  match members with
  | [] => return
  | .type t :: rest => do
    declareAll outer t
    declareMembers outer rest
  | _ :: rest => declareMembers outer rest

end

/-- The next declared type whose members are still to be resolved. -/
def nextPending? : Resolve (Option TypeId) := modifyGet fun r =>
  (r.pending.head?, { r with pending := r.pending.tail })

/-- Gives a declared type its supertypes and type variables. -/
def setSupertypes (id : TypeId) (superclass : Option TypeId)
    (interfaces typeVariables : List TypeId) : Resolve Unit := modify fun r =>
  { r with env := r.env.updateType id fun
      | .generic b => .generic { b with superclass, interfaces, typeVariables }
      | .reference b => .reference { b with superclass, interfaces, typeVariables }
      | t => t }

/-- Resolves the header, the fields and the methods of a declared type. -/
def resolveHeader (id : TypeId) (t : TypeDecl) : Resolve Unit := do
  let typeVariables ← bindTypeParameters t.typeParameters (.type id)
  let superclass ← resolveOptional t.superclass
  let interfaces ← t.interfaces.mapM resolveType
  setSupertypes id superclass interfaces typeVariables
  t.fields.forM (resolveField id)
  t.methods.forM (resolveMethod id)

mutual

/-- Resolves a declared type and its member types. -/
def resolveAll (t : TypeDecl) : Resolve Unit := do
  match ← nextPending? with
  | none => return
  | some id =>
    resolveHeader id t
    match t with
    | ⟨_, _, _, _, _, _, _, members, _, _, _, _⟩ => resolveMembers members
    closeScope

/-- Resolves the types among members. -/
def resolveMembers (members : List Member) : Resolve Unit :=
  match members with
  | [] => return
  | .type t :: rest => do
    resolveAll t
    resolveMembers rest
  | _ :: rest => resolveMembers rest

end

/-- The single imports of a unit by the simple names they bring in, the last one first. -/
def singleImports (unit : CompilationUnit) : List (String × List String) :=
  ((unit.imports.filter fun i => !i.isStatic && !i.onDemand).map fun i =>
    (i.name.words.getLast?.getD "", i.name.words)).reverse

/-- Resolves the types of a unit. -/
def resolveUnit (unit : CompilationUnit) : Resolve Unit := do
  let package := (← get).package
  unit.types.forM (declareAll package)
  unit.types.forM resolveAll

end Resolve

/-- The bindings of a unit. -/
def CompilationUnit.resolve (unit : CompilationUnit) : Environment :=
  let start : Resolver := {
    package := (unit.package.map fun p => p.name.words).getD []
    imported := Resolve.singleImports unit }
  ((Resolve.resolveUnit unit).run start).2.env

end AspectLang
