import AspectLang.Export.Expr
import AspectLang.Tree.Declaration
import AspectLang.Tree.Walk

/-! # Units as data

Declarations, aspect constructs and whole units as data, and three shorter views of a unit:
what a walk meets, where declarations stand, and what the members of types are. -/

namespace AspectLang

open Data (ofList ofOption)

/-! ### Aspect constructs -/

/-- A pointcut as data. -/
def Pointcut.data : Pointcut → Data
  | .and left right => .record [("and", .list [left.data, right.data])]
  | .or left right => .record [("or", .list [left.data, right.data])]
  | .not inner => .record [("not", inner.data)]
  | .kinded designator pattern span =>
    .record [("kinded", .text designator), ("pattern", .text pattern), ("span", span.data)]
  | .cflow below inner span =>
    .record [("cflow", inner.data), ("below", .bool below), ("span", span.data)]
  | .guard condition span => .record [("if", condition.data), ("span", span.data)]
  | .reference name arguments span =>
    .record [("reference", .text name), ("arguments", .texts arguments), ("span", span.data)]

/-- A per-clause as data. -/
def PerClause.data (c : PerClause) : Data := .record [
  ("kind", .text c.kind.word), ("pointcut", ofOption Pointcut.data c.pointcut),
  ("type_pattern", ofOption .text c.typePattern), ("span", c.span.data), ("text", .text c.render)]

/-- A designator as data. -/
def Designator.data (d : Designator) : Data := .record [
  ("source", .text d.source), ("pointcut", ofOption Pointcut.data d.pointcut),
  ("text", ofOption (fun p => .text p.render) d.pointcut),
  ("references", ofOption (fun p => .texts p.references) d.pointcut)]

/-- A declare statement as data. -/
def Declare.data (d : Declare) : Data :=
  .record (("text", .text d.render) :: match d with
    | .parents child isExtends types => [("kind", .text "parents"), ("child", .text child),
      ("extends", .bool isExtends), ("parents", .texts types)]
    | .message isError points wording => [("kind", .text "message"), ("error", .bool isError),
      ("pointcut", points.data), ("message", .text wording)]
    | .soft exception points =>
      [("kind", .text "soft"), ("exception", .text exception), ("pointcut", points.data)]
    | .precedence patterns => [("kind", .text "precedence"), ("patterns", .texts patterns)]
    | .annotationUse target pattern value sign => [
      ("kind", .text "annotation"), ("target", .text target.word), ("pattern", .text pattern),
      ("annotation", .record value.fields), ("sign", .text (String.singleton sign))]
    | .invalid kind source =>
      [("kind", .text "invalid"), ("of", .text kind), ("source", .text source)])

/-- A pseudo token as data. -/
def PseudoToken.data (t : PseudoToken) : Data := .record [
  ("value", .text t.value), ("identifier", .bool t.isIdentifier),
  ("literal", ofOption .text t.literalKind), ("condition", ofOption Expr.data t.condition),
  ("span", t.span.data), ("unquoted", ofOption .text t.unquoted?)]

/-- What makes a type an aspect construct, as data. -/
def TypeExtension.data (x : TypeExtension) : Data :=
  extensionData x.kind x.describe false (match x with
    | .aspect privileged perClause dominates => [("privileged", .bool privileged),
      ("per_clause", ofOption PerClause.data perClause), ("dominates", ofOption .text dominates)]
    | .memberClass onType => [("on_type", ofOption TypeRef.data onType)]
    | .placeholder construct => [("construct", .text construct.words)])

/-- What makes a method an aspect construct, as data. -/
def MethodExtension.data (x : MethodExtension) : Data :=
  extensionData x.kind x.describe x.infersExceptions (match x with
    | .pointcut designator => [("designator", ofOption Designator.data designator)]
    | .advice a => [("advice", .text a.kind.words),
      ("designator", ofOption Designator.data a.designator),
      ("extra", ofOption Parameter.data a.extra), ("inferred", .texts a.inferred)]
    | .declare d => [("declare", d.data)]
    | .interType m => [("on_type", ofOption TypeRef.data m.onType),
      ("declared_modifiers", .number m.declaredModifiers),
      ("initialization", ofOption Expr.data m.initialization), ("inferred", .texts m.inferred)]
    | .placeholder construct => [("construct", .text construct.words)])

/-- A fragment as data. -/
def Fragment.data (f : Fragment) : Data := .record [("span", f.span.data),
  ("payload", extensionData f.content.kind f.content.describe false (match f.content with
    | .token t => [("token", t.data)]
    | .tokens ts => [("tokens", ofList PseudoToken.data ts)]
    | .designator d => [("designator", d.data)]
    | .placeholder construct => [("construct", .text construct.words)]))]

/-! ### Declarations -/

/-- Type parameters as data. -/
def typeParametersData : List TypeParameter → Data := ofList fun p =>
  .record [("name", .text p.name), ("bounds", ofList TypeRef.data p.bounds), ("span", p.span.data)]

/-- The ranges of a declaration. -/
def Extent.fields (e : Extent) : List (String × Data) :=
  [("source", e.name.data), ("declaration", e.declaration.data)]

/-- The braces of a body. -/
def bodyData (start stop : Option Nat) : Data :=
  .list [ofOption .number start, ofOption .number stop]

/-- Identifier of a kind of method. -/
def MethodKind.label : MethodKind → String
  | .method => "Method"
  | .constructor => "Constructor"
  | .dialect => "Dialect"

/-- Identifier of a kind of type. -/
def TypeKind.label : TypeKind → String
  | .classType => "Class"
  | .interfaceType => "Interface"

/-- A method as data. -/
def MethodDecl.data (m : MethodDecl) : Data := .record (m.extent.fields ++ [
  ("kind", .text m.kind.label), ("selector", .text m.selector), ("modifiers", .number m.modifiers),
  ("annotations", annotationsData m.annotations),
  ("type_parameters", typeParametersData m.typeParameters),
  ("return_type", ofOption TypeRef.data m.returnType),
  ("arguments", ofList Parameter.data m.parameters), ("throws", ofList TypeRef.data m.throws),
  ("statements", ofOption (ofList Statement.data) m.statements),
  ("body", bodyData m.bodyStart m.bodyEnd), ("dialect", ofOption MethodExtension.data m.extension)])

/-- A field as data. -/
def FieldDecl.data (f : FieldDecl) : Data := .record (f.extent.fields ++ [
  ("name", .text f.name), ("modifiers", .number f.modifiers),
  ("annotations", annotationsData f.annotations), ("type", f.type.data),
  ("initializer", ofOption Expr.data f.initializer)])

/-- An initializer block as data. -/
def InitializerDecl.data (i : InitializerDecl) : Data :=
  .record (i.extent.fields ++ [("modifiers", .number i.modifiers), ("block", i.block.data)])

mutual

/-- A type as data. -/
def TypeDecl.data : TypeDecl → Data
  | ⟨kind, name, modifiers, annotations, typeParameters, superclass, interfaces, members, extent,
      bodyStart, bodyEnd, extension⟩ => .record (extent.fields ++ [
    ("kind", .text kind.label), ("name", .text name), ("modifiers", .number modifiers),
    ("annotations", annotationsData annotations),
    ("type_parameters", typeParametersData typeParameters),
    ("superclass", ofOption TypeRef.data superclass),
    ("interfaces", ofList TypeRef.data interfaces), ("members", .list (membersData members)),
    ("body", bodyData bodyStart bodyEnd), ("dialect", ofOption TypeExtension.data extension)])

/-- Members as data. -/
def membersData : List Member → List Data
  | [] => []
  | m :: rest => m.data :: membersData rest

/-- A member as data. -/
def Member.data : Member → Data
  | .field f => .record [("field", f.data)]
  | .method m => .record [("method", m.data)]
  | .type t => .record [("type", t.data)]
  | .initializer i => .record [("initializer", i.data)]

end

/-- A unit as data. -/
def CompilationUnit.data (u : CompilationUnit) : Data := .record [
  ("package", ofOption (fun p : PackageDecl =>
    .record [("name", .record p.name.fields), ("span", p.span.data)]) u.package),
  ("imports", ofList (fun i : ImportDecl => .record [("name", .record i.name.fields),
    ("static", .bool i.isStatic), ("on_demand", .bool i.onDemand), ("span", i.span.data)])
    u.imports),
  ("types", ofList TypeDecl.data u.types), ("span", u.span.data)]

/-! ### Shorter views -/

/-- What a walk meets, in words. -/
def Visit.render : Visit → String
  | .typeStart name => "type " ++ name
  | .typeEnd => "end"
  | .method selector => "method " ++ selector
  | .statement s => "statement " ++ s.label
  | .expression e => e.label ++ " " ++ e.render

/-- The bounds of a declaration, and whether its name lies in it. -/
def Extent.data (e : Extent) : Data := .list [
  .number e.name.start, .number e.name.stop, .number e.declaration.start,
  .number e.declaration.stop, .bool e.nested]

/-- A method in short; `first` is where the first method with its selector stands. -/
def MethodDecl.brief (first : Option Nat) (m : MethodDecl) : Data := .list [
  .text m.selector, .bool (m.kind == .constructor), .bool (m.kind == .dialect),
  ofOption (fun x : MethodExtension => .text x.kind) m.extension, .bool m.isOpen,
  ofOption .number first]

mutual

/-- The members of a type in short. -/
def TypeDecl.brief (t : TypeDecl) : Data :=
  match t with
  | ⟨_, name, _, _, _, _, _, members, _, _, bodyEnd, extension⟩ => .record [
    ("name", .text name), ("dialect", ofOption (fun x : TypeExtension => .text x.kind) extension),
    ("open", .bool bodyEnd.isNone),
    ("methods", ofList (fun m : MethodDecl =>
      m.brief ((t.method? m.selector).map fun f => f.extent.name.start)) t.methods),
    ("fields", ofList (fun f : FieldDecl => .text f.name) t.fields),
    ("types", .list (memberTypesBrief members))]

/-- The types among members in short. -/
def memberTypesBrief : List Member → List Data
  | [] => []
  | .type t :: rest => t.brief :: memberTypesBrief rest
  | _ :: rest => memberTypesBrief rest

end

end AspectLang
