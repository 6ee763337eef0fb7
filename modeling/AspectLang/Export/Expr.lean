import AspectLang.Export.Data
import AspectLang.Tree.Statement

/-! # Expressions and statements as data

Every expression and statement is a record with its kind under `k` and its range under
`span`. -/

namespace AspectLang

open Data (ofList ofOption)

/-- The words and their ranges. -/
def QualifiedName.fields (q : QualifiedName) : List (String × Data) :=
  [("tokens", .texts q.words), ("positions", ofList Span.data q.positions)]

/-- Identifier of a form of wildcard. -/
def WildcardKind.label : WildcardKind → String
  | .unbound => "Unbound"
  | .upper => "Extends"
  | .lower => "Super"

mutual

/-- A type as data. -/
def TypeRef.data : TypeRef → Data
  | ⟨segments, dims, primitive, span⟩ => .record [
    ("segments", .list (segmentsData segments)), ("dims", .number dims),
    ("primitive", .bool primitive), ("span", span.data)]

/-- Segments of types as data. -/
def segmentsData : List TypeSegment → List Data
  | [] => []
  | ⟨name, arguments, span⟩ :: rest =>
    .record [("name", .text name), ("span", span.data),
      ("args", .list (argumentsData arguments))] :: segmentsData rest

/-- Type arguments as data. -/
def argumentsData : List TypeArgument → List Data
  | [] => []
  | a :: rest => a.data :: argumentsData rest

/-- A type argument as data. -/
def TypeArgument.data : TypeArgument → Data
  | .type t => t.data
  | .wildcard kind none span =>
    .record [("wildcard", .text kind.label), ("bound", .null), ("span", span.data)]
  | .wildcard kind (some bound) span =>
    .record [("wildcard", .text kind.label), ("bound", bound.data), ("span", span.data)]

end

/-- Identifier of a kind of literal. -/
def LiteralKind.label : LiteralKind → String
  | .int => "Int"
  | .long => "Long"
  | .float => "Float"
  | .double => "Double"
  | .char => "Char"
  | .string => "String"
  | .true => "True"
  | .false => "False"
  | .null => "Null"

/-- Identifier of a unary operator. -/
def UnaryOperator.label : UnaryOperator → String
  | .plus => "Plus"
  | .minus => "Minus"
  | .not => "Not"
  | .complement => "Complement"
  | .preIncrement => "PreIncrement"
  | .preDecrement => "PreDecrement"
  | .postIncrement => "PostIncrement"
  | .postDecrement => "PostDecrement"

/-- Identifier of a kind of expression. -/
def Expr.label : Expr → String
  | .literal .. => "literal"
  | .name _ => "name"
  | .this _ => "this"
  | .super _ => "super"
  | .fieldAccess .. => "field_access"
  | .send .. => "send"
  | .new .. => "new"
  | .assign .. => "assign"
  | .binary .. => "binary"
  | .unary .. => "unary"
  | .conditional .. => "conditional"
  | .instanceOf .. => "instanceof"
  | .paren .. => "paren"
  | .annotationUse _ => "annotation"

/-- The record of an aspect construct: its kind, its text, whether its exceptions are inferred,
and what else it has. -/
def extensionData (kind describe : String) (infers : Bool) (more : List (String × Data)) : Data :=
  .record (("kind", .text kind) :: ("describe", .text describe) :: ("infers", .bool infers) :: more)

/-- The mark of a call that continues the advised computation. -/
def proceedData (proceed : Bool) : Data :=
  if proceed then extensionData "proceed" "proceed" false [] else .null

mutual

/-- An expression as data. -/
def Expr.data (e : Expr) : Data :=
  .record (("k", .text e.label) :: ("span", e.span.data) :: match e with
    | .literal kind text _ => [("kind", .text kind.label), ("text", .text text)]
    | .name q => q.fields
    | .this _ | .super _ => []
    | .fieldAccess receiver name _ => [("receiver", receiver.data), ("name", .text name)]
    | .send none selector arguments _ proceed => [
      ("receiver", .null), ("selector", .text selector.name),
      ("arguments", .list (exprsData arguments)), ("selector_span", selector.span.data),
      ("dialect", proceedData proceed)]
    | .send (some receiver) selector arguments _ proceed => [
      ("receiver", receiver.data), ("selector", .text selector.name),
      ("arguments", .list (exprsData arguments)), ("selector_span", selector.span.data),
      ("dialect", proceedData proceed)]
    | .new type arguments _ => [("type", type.data), ("arguments", .list (exprsData arguments))]
    | .assign target operator value _ => [("target", target.data),
      ("operator", ofOption (fun o => .text o.sign) operator), ("value", value.data)]
    | .binary left operator right _ =>
      [("left", left.data), ("operator", .text operator.sign), ("right", right.data)]
    | .unary operator operand _ => [("operator", .text operator.label), ("operand", operand.data)]
    | .conditional condition whenTrue whenFalse _ =>
      [("condition", condition.data), ("true", whenTrue.data), ("false", whenFalse.data)]
    | .instanceOf value type _ => [("value", value.data), ("type", type.data)]
    | .paren inner _ => [("inner", inner.data)]
    | .annotationUse a => a.fields)

/-- Expressions as data. -/
def exprsData : List Expr → List Data
  | [] => []
  | e :: rest => e.data :: exprsData rest

/-- The fields of an annotation. -/
def AnnotationUse.fields : AnnotationUse → List (String × Data)
  | ⟨typeName, values, span⟩ => [
    ("type", .record typeName.fields), ("values", .list (memberValuesData values)),
    ("span", span.data)]

/-- The values of annotation members as data. -/
def memberValuesData : List MemberValue → List Data
  | [] => []
  | ⟨name, value, span⟩ :: rest =>
    .record [("name", .text name), ("value", value.data), ("span", span.data)] ::
      memberValuesData rest

end

/-- Annotations as data. -/
def annotationsData : List AnnotationUse → Data := ofList fun a => .record a.fields

/-- A parameter as data. -/
def Parameter.data (p : Parameter) : Data := .record [
  ("name", .text p.name.name), ("type", p.type.data), ("modifiers", .number p.modifiers),
  ("varargs", .bool p.varargs), ("annotations", annotationsData p.annotations),
  ("name_span", p.name.span.data), ("span", p.span.data)]

/-! ### Statements -/

/-- The fields of a local variable apart from its range. -/
def LocalVariable.fields (v : LocalVariable) : List (String × Data) := [
  ("name", .text v.name.name), ("modifiers", .number v.modifiers),
  ("annotations", annotationsData v.annotations), ("type", v.type.data),
  ("initializer", ofOption Expr.data v.initializer), ("name_span", v.name.span.data)]

/-- Identifier of a kind of statement. -/
def Statement.label : Statement → String
  | .block _ => "block"
  | .localVariable _ => "local"
  | .expression .. => "expression"
  | .ifThen .. => "if"
  | .whileLoop .. => "while"
  | .doLoop .. => "do"
  | .forLoop .. => "for"
  | .forEach .. => "foreach"
  | .returning .. => "return"
  | .throwing .. => "throw"
  | .breaking .. => "break"
  | .continuing .. => "continue"
  | .labeled .. => "labeled"
  | .trying .. => "try"
  | .assertion .. => "assert"
  | .constructorCall .. => "constructor_call"
  | .empty _ => "empty"

mutual

/-- A statement as data. -/
def Statement.data (s : Statement) : Data :=
  .record (("k", .text s.label) :: ("span", s.span.data) :: match s with
    | .block ⟨statements, _⟩ => [("statements", .list (statementsData statements))]
    | .localVariable v => v.fields
    | .expression value _ => [("value", value.data)]
    | .ifThen condition thenBranch none _ =>
      [("condition", condition.data), ("then", thenBranch.data), ("else", .null)]
    | .ifThen condition thenBranch (some elseBranch) _ =>
      [("condition", condition.data), ("then", thenBranch.data), ("else", elseBranch.data)]
    | .whileLoop condition body _ => [("condition", condition.data), ("body", body.data)]
    | .doLoop body condition _ => [("condition", condition.data), ("body", body.data)]
    | .forLoop init condition update body _ => [
      ("init", .list (statementsData init)), ("condition", ofOption Expr.data condition),
      ("update", ofList Expr.data update), ("body", body.data)]
    | .forEach element collection body _ => [
      ("variable", .record (("span", element.span.data) :: element.fields)),
      ("collection", collection.data), ("body", body.data)]
    | .returning value _ => [("value", ofOption Expr.data value)]
    | .throwing value _ => [("value", value.data)]
    | .breaking label _ | .continuing label _ => [("label", ofOption .text label)]
    | .labeled label body _ => [("label", .text label), ("body", body.data)]
    | .trying block catches none _ => [
      ("block", block.data), ("catches", .list (catchesData catches)), ("finally", .null)]
    | .trying block catches (some final) _ => [
      ("block", block.data), ("catches", .list (catchesData catches)), ("finally", final.data)]
    | .assertion condition message _ =>
      [("condition", condition.data), ("message", ofOption Expr.data message)]
    | .constructorCall isSuper arguments _ =>
      [("super", .bool isSuper), ("arguments", ofList Expr.data arguments)]
    | .empty _ => [])

/-- Statements as data. -/
def statementsData : List Statement → List Data
  | [] => []
  | s :: rest => s.data :: statementsData rest

/-- A block as data. -/
def Block.data : Block → Data
  | ⟨statements, span⟩ =>
    .record [("statements", .list (statementsData statements)), ("span", span.data)]

/-- Handlers as data. -/
def catchesData : List CatchClause → List Data
  | [] => []
  | ⟨parameter, block, span⟩ :: rest =>
    .record [("argument", parameter.data), ("block", block.data), ("span", span.data)] ::
      catchesData rest

end

end AspectLang
