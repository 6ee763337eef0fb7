import AspectLang.Tree.Name

/-! # Types as written

A `TypeRef` is a type as it stands in a source text: `int`, `java.util.List<String>[]`.  Each
segment of its name may carry type arguments, which are types or wildcards. -/

namespace AspectLang

/-- The forms of a wildcard: `?`, `? extends T` and `? super T`. -/
inductive WildcardKind where
  | unbound | upper | lower
deriving DecidableEq, Inhabited, Repr

mutual

/-- A type as it is written. -/
structure TypeRef where
  segments : List TypeSegment
  dims : Nat
  primitive : Bool
  span : Span

/-- One word of a type's name, with its type arguments. -/
structure TypeSegment where
  name : String
  arguments : List TypeArgument
  span : Span

/-- A type argument. -/
inductive TypeArgument where
  | type (type : TypeRef)
  | wildcard (kind : WildcardKind) (bound : Option TypeRef) (span : Span)

end

/-- A type parameter with its bounds. -/
structure TypeParameter where
  name : String
  bounds : List TypeRef
  span : Span

instance : Inhabited TypeRef := ⟨⟨[], 0, false, {}⟩⟩

namespace TypeRef

/-- A primitive type. -/
def ofPrimitive (name : String) (span : Span) : TypeRef := ⟨[⟨name, [], span⟩], 0, true, span⟩

/-- The class or interface of a given name. -/
def ofName (name : QualifiedName) : TypeRef :=
  ⟨name.segments.map fun s => ⟨s.name, [], s.span⟩, 0, false, name.span⟩

/-- The last word of the name. -/
def simpleName (t : TypeRef) : String :=
  match t.segments.getLast? with
  | some s => s.name
  | none => ""

/-- The words of the name, without type arguments. -/
def words (t : TypeRef) : List String := t.segments.map (·.name)

/-- Whether the type is `void` itself. -/
def isVoid (t : TypeRef) : Bool := t.primitive && t.dims == 0 && t.simpleName == "void"

/-- Whether some segment has type arguments. -/
def isParameterized (t : TypeRef) : Bool := t.segments.any fun s => !s.arguments.isEmpty

/-- The type with more dimensions. -/
def addDims (t : TypeRef) (n : Nat) : TypeRef := { t with dims := t.dims + n }

end TypeRef

/-! ### Texts -/

mutual

/-- The type as it is written, with one blank after each comma. -/
def TypeRef.render : TypeRef → String
  | ⟨segments, dims, _, _⟩ =>
    ".".intercalate (renderSegments segments) ++ String.join (List.replicate dims "[]")

/-- The texts of the segments of a type. -/
def renderSegments : List TypeSegment → List String
  | [] => []
  | s :: rest => s.render :: renderSegments rest

/-- A word of a type's name with its arguments. -/
def TypeSegment.render : TypeSegment → String
  | ⟨name, [], _⟩ => name
  | ⟨name, arguments, _⟩ => name ++ "<" ++ ", ".intercalate (renderArguments arguments) ++ ">"

/-- The texts of type arguments. -/
def renderArguments : List TypeArgument → List String
  | [] => []
  | a :: rest => a.render :: renderArguments rest

/-- A type argument; a wildcard without a bound is a question mark. -/
def TypeArgument.render : TypeArgument → String
  | .type t => t.render
  | .wildcard .upper (some bound) _ => "? extends " ++ bound.render
  | .wildcard .lower (some bound) _ => "? super " ++ bound.render
  | .wildcard _ _ _ => "?"

end

/-- A type parameter with its bounds. -/
def TypeParameter.render (p : TypeParameter) : String :=
  if p.bounds.isEmpty then p.name
  else p.name ++ " extends " ++ " & ".intercalate (p.bounds.map TypeRef.render)

/-! ### Equality -/

mutual

/-- Whether two types are the same, positions included. -/
def TypeRef.same : TypeRef → TypeRef → Bool
  | ⟨s, d, p, r⟩, ⟨s', d', p', r'⟩ => sameSegments s s' && d == d' && p == p' && r == r'

/-- Whether two runs of segments are the same. -/
def sameSegments : List TypeSegment → List TypeSegment → Bool
  | [], [] => true
  | a :: as, b :: bs => a.same b && sameSegments as bs
  | _, _ => false

/-- Whether two segments are the same. -/
def TypeSegment.same : TypeSegment → TypeSegment → Bool
  | ⟨n, a, r⟩, ⟨n', a', r'⟩ => n == n' && sameArguments a a' && r == r'

/-- Whether two runs of type arguments are the same. -/
def sameArguments : List TypeArgument → List TypeArgument → Bool
  | [], [] => true
  | a :: as, b :: bs => a.same b && sameArguments as bs
  | _, _ => false

/-- Whether two type arguments are the same. -/
def TypeArgument.same : TypeArgument → TypeArgument → Bool
  | .type t, .type t' => t.same t'
  | .wildcard k none r, .wildcard k' none r' => k == k' && r == r'
  | .wildcard k (some b) r, .wildcard k' (some b') r' => k == k' && b.same b' && r == r'
  | _, _ => false

end

instance : BEq TypeRef := ⟨TypeRef.same⟩

instance : BEq TypeParameter :=
  ⟨fun a b => a.name == b.name && a.bounds == b.bounds && a.span == b.span⟩

end AspectLang
