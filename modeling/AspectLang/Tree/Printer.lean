import AspectLang.Tree.Declaration

/-! # Tree listings

`CompilationUnit.listing` shows a unit with one declaration or statement per line, indented
by two blanks per level, and with the range of each declaration.  A line of a declaration
that was never finished says so. -/

namespace AspectLang

/-! ### Lines -/

/-- A line of a listing, two blanks per level. -/
def listingLine (depth : Nat) (text : String) : String :=
  String.ofList (List.replicate (2 * depth) ' ') ++ text

/-- Annotations and modifiers in front of a declaration, with a blank after them if there
are any. -/
def modifierText (modifiers : Modifiers) (annotations : List AnnotationUse) : String :=
  let keywords := modifiers.render
  let parts := annotations.map AnnotationUse.render ++ (if keywords.isEmpty then [] else [keywords])
  if parts.isEmpty then "" else " ".intercalate parts ++ " "

/-- The range of a declaration at the end of its line. -/
def rangeText (e : Extent) : String := " [" ++ e.declaration.render ++ "]"

/-- Texts with a comma between them, after a word, if there are any. -/
def listedAfter (word : String) (texts : List String) : String :=
  if texts.isEmpty then "" else word ++ ", ".intercalate texts

/-! ### Statements -/

/-- A local variable as it is written. -/
def LocalVariable.render (v : LocalVariable) : String :=
  modifierText v.modifiers v.annotations ++ v.type.render ++ " " ++ v.name.name ++
    (match v.initializer with
      | some value => " = " ++ value.render
      | none => "") ++ ";"

mutual

/-- The lines of a statement. -/
def Statement.listing (depth : Nat) : Statement → List String
  | .block ⟨statements, _⟩ =>
    listingLine depth "\x7b" :: statementsListing (depth + 1) statements ++
      [listingLine depth "\x7d"]
  | .localVariable v => [listingLine depth v.render]
  | .expression value _ => [listingLine depth (value.render ++ ";")]
  | .ifThen condition thenBranch none _ =>
    listingLine depth ("if (" ++ condition.render ++ ")") :: thenBranch.listing (depth + 1)
  | .ifThen condition thenBranch (some elseBranch) _ =>
    listingLine depth ("if (" ++ condition.render ++ ")") :: thenBranch.listing (depth + 1) ++
      listingLine depth "else" :: elseBranch.listing (depth + 1)
  | .whileLoop condition body _ =>
    listingLine depth ("while (" ++ condition.render ++ ")") :: body.listing (depth + 1)
  | .doLoop body condition _ =>
    listingLine depth "do" :: body.listing (depth + 1) ++
      [listingLine depth ("while (" ++ condition.render ++ ");")]
  | .forLoop _ condition _ body _ =>
    let text := match condition with
      | some condition => condition.render
      | none => ""
    listingLine depth ("for (...; " ++ text ++ "; ...)") :: body.listing (depth + 1)
  | .forEach element collection body _ =>
    listingLine depth ("for (" ++ element.type.render ++ " " ++ element.name.name ++ " : " ++
      collection.render ++ ")") :: body.listing (depth + 1)
  | .returning value _ =>
    match value with
    | some value => [listingLine depth ("return " ++ value.render ++ ";")]
    | none => [listingLine depth "return;"]
  | .throwing value _ => [listingLine depth ("throw " ++ value.render ++ ";")]
  | .breaking label _ =>
    match label with
    | some label => [listingLine depth ("break " ++ label ++ ";")]
    | none => [listingLine depth "break;"]
  | .continuing label _ =>
    match label with
    | some label => [listingLine depth ("continue " ++ label ++ ";")]
    | none => [listingLine depth "continue;"]
  | .labeled label body _ => listingLine depth (label ++ ":") :: body.listing (depth + 1)
  | .trying ⟨statements, _⟩ catches none _ =>
    listingLine depth "try" :: statementsListing (depth + 1) statements ++
      catchesListing depth catches
  | .trying ⟨statements, _⟩ catches (some ⟨final, _⟩) _ =>
    listingLine depth "try" :: statementsListing (depth + 1) statements ++
      catchesListing depth catches ++
      listingLine depth "finally" :: statementsListing (depth + 1) final
  | .assertion condition message _ =>
    match message with
    | some message =>
      [listingLine depth ("assert " ++ condition.render ++ " : " ++ message.render ++ ";")]
    | none => [listingLine depth ("assert " ++ condition.render ++ ";")]
  | .constructorCall isSuper arguments _ =>
    [listingLine depth ((if isSuper then "super(" else "this(") ++
      ", ".intercalate (renderExprs arguments) ++ ");")]
  | .empty _ => [listingLine depth ";"]

/-- The lines of statements. -/
def statementsListing (depth : Nat) : List Statement → List String
  | [] => []
  | s :: rest => s.listing depth ++ statementsListing depth rest

/-- The lines of handlers. -/
def catchesListing (depth : Nat) : List CatchClause → List String
  | [] => []
  | ⟨parameter, ⟨statements, _⟩, _⟩ :: rest =>
    listingLine depth ("catch (" ++ parameter.render ++ ")") ::
      statementsListing (depth + 1) statements ++ catchesListing depth rest

end

/-! ### Declarations -/

/-- The line of a field. -/
def FieldDecl.headline (f : FieldDecl) : String :=
  modifierText f.modifiers f.annotations ++ f.type.render ++ " " ++ f.name ++
    (match f.initializer with
      | some value => " = " ++ value.render
      | none => "") ++ rangeText f.extent

/-- Whether the line of a method says that it was never finished. -/
def MethodDecl.shownIncomplete (m : MethodDecl) : Bool :=
  m.isOpen && m.statements.isNone && m.bodyStart.isSome

/-- The line of a method; the return type of a constructor is left out. -/
def MethodDecl.headline (m : MethodDecl) : String :=
  modifierText m.modifiers m.annotations ++
    (match m.extension with
      | some extension => extension.describe ++ " "
      | none => "") ++
    (match m.returnType with
      | some type => if m.kind != .constructor then type.render ++ " " else ""
      | none => "") ++
    m.selector ++ "(" ++ ", ".intercalate (m.parameters.map Parameter.render) ++ ")" ++
    listedAfter " throws " (m.throws.map TypeRef.render) ++ rangeText m.extent ++
    (if m.shownIncomplete then " (incomplete)" else "")

/-- The lines of a method and its body. -/
def MethodDecl.listing (depth : Nat) (m : MethodDecl) : List String :=
  listingLine depth m.headline ::
    (match m.statements with
      | some statements => statementsListing (depth + 1) statements
      | none => [])

/-- The lines of an initializer block. -/
def InitializerDecl.listing (depth : Nat) (i : InitializerDecl) : List String :=
  listingLine depth ((if i.modifiers.meets Modifiers.staticFlag then "static initializer"
    else "initializer") ++ rangeText i.extent) ::
    statementsListing (depth + 1) i.block.statements

/-- The line of a type. -/
def TypeDecl.headline (t : TypeDecl) : String :=
  let keyword := match t.extension, t.kind with
    | some extension, _ => extension.describe
    | none, .classType => "class"
    | none, .interfaceType => "interface"
  modifierText t.modifiers t.annotations ++ keyword ++ " " ++ t.name ++
    (if t.typeParameters.isEmpty then ""
      else "<" ++ ", ".intercalate (t.typeParameters.map TypeParameter.render) ++ ">") ++
    (match t.superclass with
      | some type => " extends " ++ type.render
      | none => "") ++
    listedAfter " implements " (t.interfaces.map TypeRef.render) ++ rangeText t.extent ++
    (if t.isOpen then " (incomplete)" else "")

mutual

/-- The lines of a type and its members. -/
def TypeDecl.listing (depth : Nat) : TypeDecl → List String
  | ⟨k, n, m, a, p, c, i, members, e, s, t, x⟩ =>
    listingLine depth (TypeDecl.headline ⟨k, n, m, a, p, c, i, [], e, s, t, x⟩) ::
      membersListing (depth + 1) members

/-- The lines of members. -/
def membersListing (depth : Nat) : List Member → List String
  | [] => []
  | m :: rest => m.listing depth ++ membersListing depth rest

/-- The lines of a member. -/
def Member.listing (depth : Nat) : Member → List String
  | .field f => [listingLine depth f.headline]
  | .method m => m.listing depth
  | .type t => t.listing depth
  | .initializer i => i.listing depth

end

/-- The lines of a unit. -/
def CompilationUnit.lines (u : CompilationUnit) : List String :=
  (match u.package with
    | some package => ["package " ++ package.name.render ++ ";"]
    | none => []) ++
  u.imports.map ImportDecl.render ++ u.types.flatMap (TypeDecl.listing 0)

/-- A unit as text, a newline after each line. -/
def CompilationUnit.listing (u : CompilationUnit) : String :=
  String.join (u.lines.map (· ++ "\n"))

end AspectLang
