import AspectLang.Modifiers
import AspectLang.Tree.TypeRef

/-! # Expressions and annotations

Every expression carries the range it was read from.  An annotation is an expression too,
since its members are, and because a run of modifiers waits on the expression stack. -/

namespace AspectLang

/-- The kinds of literals. -/
inductive LiteralKind where
  | int | long | float | double | char | string | true | false | null
deriving DecidableEq, Inhabited, Repr

/-- The binary operators. -/
inductive BinaryOperator where
  | mul | div | rem | add | sub | shiftLeft | shiftRight | shiftRightUnsigned
  | lt | gt | le | ge | eq | ne | and | xor | or | andAnd | orOr
deriving DecidableEq, Inhabited, Repr

/-- The sign of a binary operator. -/
def BinaryOperator.sign : BinaryOperator → String
  | .mul => "*"
  | .div => "/"
  | .rem => "%"
  | .add => "+"
  | .sub => "-"
  | .shiftLeft => "<<"
  | .shiftRight => ">>"
  | .shiftRightUnsigned => ">>>"
  | .lt => "<"
  | .gt => ">"
  | .le => "<="
  | .ge => ">="
  | .eq => "=="
  | .ne => "!="
  | .and => "&"
  | .xor => "^"
  | .or => "|"
  | .andAnd => "&&"
  | .orOr => "||"

/-- The unary operators. -/
inductive UnaryOperator where
  | plus | minus | not | complement | preIncrement | preDecrement | postIncrement | postDecrement
deriving DecidableEq, Inhabited, Repr

/-- The sign of a unary operator, and whether it stands before its operand. -/
def UnaryOperator.sign : UnaryOperator → String × Bool
  | .plus => ("+", true)
  | .minus => ("-", true)
  | .not => ("!", true)
  | .complement => ("~", true)
  | .preIncrement => ("++", true)
  | .preDecrement => ("--", true)
  | .postIncrement => ("++", false)
  | .postDecrement => ("--", false)

mutual

/-- An expression. -/
inductive Expr where
  | literal (kind : LiteralKind) (text : String) (span : Span)
  | name (name : QualifiedName)
  | this (span : Span)
  | super (span : Span)
  | fieldAccess (receiver : Expr) (name : String) (span : Span)
  /-- A call; `proceed` marks the call that continues the advised computation. -/
  | send (receiver : Option Expr) (selector : Identifier) (arguments : List Expr) (span : Span)
      (proceed : Bool)
  | new (type : TypeRef) (arguments : List Expr) (span : Span)
  /-- An assignment; the operator is that of a compound one. -/
  | assign (target : Expr) (operator : Option BinaryOperator) (value : Expr) (span : Span)
  | binary (left : Expr) (operator : BinaryOperator) (right : Expr) (span : Span)
  | unary (operator : UnaryOperator) (operand : Expr) (span : Span)
  | conditional (condition whenTrue whenFalse : Expr) (span : Span)
  | instanceOf (value : Expr) (type : TypeRef) (span : Span)
  | paren (inner : Expr) (span : Span)
  | annotationUse (annotationUse : AnnotationUse)

/-- An annotation with the values of its members. -/
structure AnnotationUse where
  typeName : QualifiedName
  values : List MemberValue
  span : Span

/-- The value of one member of an annotation. -/
structure MemberValue where
  name : String
  value : Expr
  span : Span

end

instance : Inhabited Expr := ⟨.this {}⟩

namespace Expr

/-- The range of an expression. -/
def span : Expr → Span
  | .literal _ _ span | .this span | .super span | .fieldAccess _ _ span | .send _ _ _ span _
  | .new _ _ span | .assign _ _ _ span | .binary _ _ _ span | .unary _ _ span
  | .conditional _ _ _ span | .instanceOf _ _ span | .paren _ span => span
  | .name n => n.span
  | .annotationUse a => a.span

/-- The annotation that an expression is. -/
def annotationUse? : Expr → Option AnnotationUse
  | .annotationUse a => some a
  | _ => none

end Expr

/-! ### Texts -/

mutual

/-- An expression as it is written, with one blank around each binary sign. -/
def Expr.render : Expr → String
  | .literal _ text _ => text
  | .name n => n.render
  | .this _ => "this"
  | .super _ => "super"
  | .fieldAccess receiver name _ => receiver.render ++ "." ++ name
  | .send none selector arguments _ _ =>
    selector.name ++ "(" ++ ", ".intercalate (renderExprs arguments) ++ ")"
  | .send (some receiver) selector arguments _ _ =>
    receiver.render ++ "." ++ selector.name ++ "(" ++
      ", ".intercalate (renderExprs arguments) ++ ")"
  | .new type arguments _ =>
    "new " ++ type.render ++ "(" ++ ", ".intercalate (renderExprs arguments) ++ ")"
  | .assign target none value _ => target.render ++ " = " ++ value.render
  | .assign target (some op) value _ => target.render ++ " " ++ op.sign ++ "= " ++ value.render
  | .binary left op right _ => left.render ++ " " ++ op.sign ++ " " ++ right.render
  | .unary op operand _ =>
    if op.sign.2 then op.sign.1 ++ operand.render else operand.render ++ op.sign.1
  | .conditional condition whenTrue whenFalse _ =>
    condition.render ++ " ? " ++ whenTrue.render ++ " : " ++ whenFalse.render
  | .instanceOf value type _ => value.render ++ " instanceof " ++ type.render
  | .paren inner _ => "(" ++ inner.render ++ ")"
  | .annotationUse a => a.render

/-- The texts of expressions. -/
def renderExprs : List Expr → List String
  | [] => []
  | e :: rest => e.render :: renderExprs rest

/-- An annotation, with its members in parentheses if it has any. -/
def AnnotationUse.render : AnnotationUse → String
  | ⟨typeName, [], _⟩ => "@" ++ typeName.render
  | ⟨typeName, values, _⟩ =>
    "@" ++ typeName.render ++ "(" ++ ", ".intercalate (renderValues values) ++ ")"

/-- The texts of annotation members. -/
def renderValues : List MemberValue → List String
  | [] => []
  | ⟨name, value, _⟩ :: rest => (name ++ "=" ++ value.render) :: renderValues rest

end

/-! ### Equality -/

mutual

/-- Whether two expressions are the same, positions included. -/
def Expr.same : Expr → Expr → Bool
  | .literal k t s, .literal k' t' s' => k == k' && t == t' && s == s'
  | .name n, .name n' => n == n'
  | .this s, .this s' => s == s'
  | .super s, .super s' => s == s'
  | .fieldAccess r n s, .fieldAccess r' n' s' => r.same r' && n == n' && s == s'
  | .send none n a s p, .send none n' a' s' p' =>
    n == n' && sameExprs a a' && s == s' && p == p'
  | .send (some r) n a s p, .send (some r') n' a' s' p' =>
    r.same r' && n == n' && sameExprs a a' && s == s' && p == p'
  | .new t a s, .new t' a' s' => t == t' && sameExprs a a' && s == s'
  | .assign l o r s, .assign l' o' r' s' => l.same l' && o == o' && r.same r' && s == s'
  | .binary l o r s, .binary l' o' r' s' => l.same l' && o == o' && r.same r' && s == s'
  | .unary o e s, .unary o' e' s' => o == o' && e.same e' && s == s'
  | .conditional c t f s, .conditional c' t' f' s' =>
    c.same c' && t.same t' && f.same f' && s == s'
  | .instanceOf e t s, .instanceOf e' t' s' => e.same e' && t == t' && s == s'
  | .paren e s, .paren e' s' => e.same e' && s == s'
  | .annotationUse a, .annotationUse a' => a.same a'
  | _, _ => false

/-- Whether two runs of expressions are the same. -/
def sameExprs : List Expr → List Expr → Bool
  | [], [] => true
  | a :: as, b :: bs => a.same b && sameExprs as bs
  | _, _ => false

/-- Whether two annotations are the same. -/
def AnnotationUse.same : AnnotationUse → AnnotationUse → Bool
  | ⟨n, v, s⟩, ⟨n', v', s'⟩ => n == n' && sameValues v v' && s == s'

/-- Whether two runs of annotation members are the same. -/
def sameValues : List MemberValue → List MemberValue → Bool
  | [], [] => true
  | ⟨n, v, s⟩ :: as, ⟨n', v', s'⟩ :: bs => n == n' && v.same v' && s == s' && sameValues as bs
  | _, _ => false

end

instance : BEq Expr := ⟨Expr.same⟩

instance : BEq AnnotationUse := ⟨AnnotationUse.same⟩

/-! ### Formal parameters -/

/-- A formal parameter of a method, an advice or a catch clause. -/
structure Parameter where
  name : Identifier
  type : TypeRef
  modifiers : Modifiers
  annotations : List AnnotationUse
  varargs : Bool
  span : Span
deriving BEq

/-- A parameter with its modifiers in front, and an ellipsis when it takes the rest of the
arguments. -/
def Parameter.render (p : Parameter) : String :=
  (if p.modifiers != 0 then p.modifiers.render ++ " " else "") ++
    p.type.render ++ (if p.varargs then "..." else "") ++ " " ++ p.name.name

end AspectLang
