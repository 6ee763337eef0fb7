import AspectLang.Aspect.Extension
import AspectLang.Tree.Statement

/-! # Declarations and compilation units

Every declaration has an `Extent`: the range of its name and the range of the whole
declaration.  A type or method whose body was never closed is open; that happens only in
units whose parsing was abandoned. -/

namespace AspectLang

/-- The ranges of a declaration: its name, and all of it. -/
structure Extent where
  name : Span := {}
  declaration : Span := {}
deriving DecidableEq, Inhabited, Repr

/-- Whether the name lies in the declaration. -/
def Extent.nested (e : Extent) : Bool :=
  e.name.start ≤ e.name.stop && e.declaration.start ≤ e.name.start &&
    e.name.stop ≤ e.declaration.stop

/-- The kinds of types. -/
inductive TypeKind where
  | classType | interfaceType
deriving DecidableEq, Inhabited, Repr

/-- The kinds of methods; an aspect construct says in its extension what it is. -/
inductive MethodKind where
  | method | constructor | dialect
deriving DecidableEq, Inhabited, Repr

/-- A field. -/
structure FieldDecl where
  name : String
  modifiers : Modifiers
  annotations : List AnnotationUse
  type : TypeRef
  initializer : Option Expr
  extent : Extent
deriving BEq

/-- An initializer block. -/
structure InitializerDecl where
  modifiers : Modifiers
  block : Block
  extent : Extent
deriving BEq

/-- A method, a constructor, or an aspect construct in the form of one. -/
structure MethodDecl where
  kind : MethodKind
  selector : String := ""
  modifiers : Modifiers := 0
  annotations : List AnnotationUse := []
  typeParameters : List TypeParameter := []
  returnType : Option TypeRef := none
  parameters : List Parameter := []
  throws : List TypeRef := []
  /-- The body; none for a declaration without one or with an unfinished one. -/
  statements : Option (List Statement) := none
  extent : Extent := {}
  bodyStart : Option Nat := none
  bodyEnd : Option Nat := none
  extension : Option MethodExtension := none
deriving BEq

/-- Whether the end of the method was never read. -/
def MethodDecl.isOpen (m : MethodDecl) : Bool := m.bodyEnd.isNone

mutual

/-- A class, an interface or an aspect. -/
structure TypeDecl where
  kind : TypeKind
  name : String
  modifiers : Modifiers
  annotations : List AnnotationUse
  typeParameters : List TypeParameter
  superclass : Option TypeRef
  interfaces : List TypeRef
  members : List Member
  extent : Extent
  bodyStart : Option Nat
  /-- Where the closing brace stands, once it was read. -/
  bodyEnd : Option Nat
  extension : Option TypeExtension

/-- A member of a type. -/
inductive Member where
  | field (field : FieldDecl)
  | method (method : MethodDecl)
  | type (type : TypeDecl)
  | initializer (initializer : InitializerDecl)

end

namespace TypeDecl

/-- A type without a name, members or positions. -/
def new (kind : TypeKind) : TypeDecl where
  kind := kind
  name := ""
  modifiers := 0
  annotations := []
  typeParameters := []
  superclass := none
  interfaces := []
  members := []
  extent := {}
  bodyStart := none
  bodyEnd := none
  extension := none

/-- Whether the end of the type was never read. -/
def isOpen (t : TypeDecl) : Bool := t.bodyEnd.isNone

/-- The methods among the members. -/
def methods (t : TypeDecl) : List MethodDecl :=
  t.members.filterMap fun
    | .method m => some m
    | _ => none

/-- The fields among the members. -/
def fields (t : TypeDecl) : List FieldDecl :=
  t.members.filterMap fun
    | .field f => some f
    | _ => none

/-- The first method with a given selector. -/
def method? (t : TypeDecl) (selector : String) : Option MethodDecl :=
  t.methods.find? (·.selector == selector)

end TypeDecl

instance : Inhabited TypeDecl := ⟨TypeDecl.new .classType⟩

mutual

/-- Whether two types are the same, positions and extensions included. -/
def TypeDecl.same : TypeDecl → TypeDecl → Bool
  | ⟨k, n, m, a, p, c, i, ms, e, s, t, x⟩, ⟨k', n', m', a', p', c', i', ms', e', s', t', x'⟩ =>
    k == k' && n == n' && m == m' && a == a' && p == p' && c == c' && i == i' &&
      sameMembers ms ms' && e == e' && s == s' && t == t' && x == x'

/-- Whether two runs of members are the same. -/
def sameMembers : List Member → List Member → Bool
  | [], [] => true
  | a :: as, b :: bs => a.same b && sameMembers as bs
  | _, _ => false

/-- Whether two members are the same. -/
def Member.same : Member → Member → Bool
  | .field f, .field f' => f == f'
  | .method m, .method m' => m == m'
  | .type t, .type t' => t.same t'
  | .initializer i, .initializer i' => i == i'
  | _, _ => false

end

instance : BEq TypeDecl := ⟨TypeDecl.same⟩

mutual

/-- The extents of a type and of its members, in order. -/
def TypeDecl.extents : TypeDecl → List Extent
  | ⟨_, _, _, _, _, _, _, members, extent, _, _, _⟩ => extent :: memberExtents members

/-- The extents of members, in order. -/
def memberExtents : List Member → List Extent
  | [] => []
  | m :: rest => m.extents ++ memberExtents rest

/-- The extents of a member. -/
def Member.extents : Member → List Extent
  | .field f => [f.extent]
  | .method m => [m.extent]
  | .type t => t.extents
  | .initializer i => [i.extent]

end

/-! ### Compilation units -/

/-- A package declaration. -/
structure PackageDecl where
  name : QualifiedName
  span : Span
deriving DecidableEq, Inhabited, Repr

/-- An import. -/
structure ImportDecl where
  name : QualifiedName
  isStatic : Bool
  onDemand : Bool
  span : Span
deriving DecidableEq, Inhabited, Repr

/-- An import as it is written. -/
def ImportDecl.render (i : ImportDecl) : String :=
  "import " ++ (if i.isStatic then "static " else "") ++ i.name.render ++
    (if i.onDemand then ".*" else "") ++ ";"

/-- The declarations of one source text. -/
structure CompilationUnit where
  package : Option PackageDecl := none
  imports : List ImportDecl := []
  types : List TypeDecl := []
  span : Span := {}
deriving BEq

instance : Inhabited CompilationUnit := ⟨{}⟩

/-- The extents of all declarations of a unit, in order. -/
def CompilationUnit.extents (u : CompilationUnit) : List Extent := u.types.flatMap TypeDecl.extents

end AspectLang
