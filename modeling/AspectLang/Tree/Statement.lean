import AspectLang.Tree.Expr

/-! # Statements -/

namespace AspectLang

/-- A local variable with its initial value. -/
structure LocalVariable where
  name : Identifier
  modifiers : Modifiers
  annotations : List AnnotationUse
  type : TypeRef
  initializer : Option Expr
  span : Span
deriving BEq

mutual

/-- A statement. -/
inductive Statement where
  | block (block : Block)
  | localVariable (declared : LocalVariable)
  | expression (value : Expr) (span : Span)
  | ifThen (condition : Expr) (thenBranch : Statement) (elseBranch : Option Statement)
      (span : Span)
  | whileLoop (condition : Expr) (body : Statement) (span : Span)
  | doLoop (body : Statement) (condition : Expr) (span : Span)
  | forLoop (init : List Statement) (condition : Option Expr) (update : List Expr)
      (body : Statement) (span : Span)
  | forEach (element : LocalVariable) (collection : Expr) (body : Statement) (span : Span)
  | returning (value : Option Expr) (span : Span)
  | throwing (value : Expr) (span : Span)
  | breaking (label : Option String) (span : Span)
  | continuing (label : Option String) (span : Span)
  | labeled (label : String) (body : Statement) (span : Span)
  | trying (block : Block) (catches : List CatchClause) (final : Option Block) (span : Span)
  | assertion (condition : Expr) (message : Option Expr) (span : Span)
  /-- A call of another constructor at the start of a constructor. -/
  | constructorCall (isSuper : Bool) (arguments : List Expr) (span : Span)
  | empty (span : Span)

/-- Statements in braces. -/
structure Block where
  statements : List Statement
  span : Span

/-- A handler of exceptions. -/
structure CatchClause where
  parameter : Parameter
  block : Block
  span : Span

end

instance : Inhabited Statement := ⟨.empty {}⟩

namespace Statement

/-- The range of a statement. -/
def span : Statement → Span
  | .block b => b.span
  | .localVariable v => v.span
  | .expression _ span | .ifThen _ _ _ span | .whileLoop _ _ span | .doLoop _ _ span
  | .forLoop _ _ _ _ span | .forEach _ _ _ span | .returning _ span | .throwing _ span
  | .breaking _ span | .continuing _ span | .labeled _ _ span | .trying _ _ _ span
  | .assertion _ _ span | .constructorCall _ _ span | .empty span => span

/-- The statement with another range. -/
def setSpan (span : Span) : Statement → Statement
  | .block b => .block { b with span }
  | .localVariable v => .localVariable { v with span }
  | .expression e _ => .expression e span
  | .ifThen c t e _ => .ifThen c t e span
  | .whileLoop c b _ => .whileLoop c b span
  | .doLoop b c _ => .doLoop b c span
  | .forLoop i c u b _ => .forLoop i c u b span
  | .forEach v c b _ => .forEach v c b span
  | .returning e _ => .returning e span
  | .throwing e _ => .throwing e span
  | .breaking l _ => .breaking l span
  | .continuing l _ => .continuing l span
  | .labeled l b _ => .labeled l b span
  | .trying b c f _ => .trying b c f span
  | .assertion c m _ => .assertion c m span
  | .constructorCall s a _ => .constructorCall s a span
  | .empty _ => .empty span

end Statement

/-! ### Equality -/

mutual

/-- Whether two statements are the same, positions included. -/
def Statement.same : Statement → Statement → Bool
  | .block b, .block b' => b.same b'
  | .localVariable v, .localVariable v' => v == v'
  | .expression e s, .expression e' s' => e == e' && s == s'
  | .ifThen c t none s, .ifThen c' t' none s' => c == c' && t.same t' && s == s'
  | .ifThen c t (some e) s, .ifThen c' t' (some e') s' =>
    c == c' && t.same t' && e.same e' && s == s'
  | .whileLoop c b s, .whileLoop c' b' s' => c == c' && b.same b' && s == s'
  | .doLoop b c s, .doLoop b' c' s' => b.same b' && c == c' && s == s'
  | .forLoop i c u b s, .forLoop i' c' u' b' s' =>
    sameStatements i i' && c == c' && u == u' && b.same b' && s == s'
  | .forEach v c b s, .forEach v' c' b' s' => v == v' && c == c' && b.same b' && s == s'
  | .returning e s, .returning e' s' => e == e' && s == s'
  | .throwing e s, .throwing e' s' => e == e' && s == s'
  | .breaking l s, .breaking l' s' => l == l' && s == s'
  | .continuing l s, .continuing l' s' => l == l' && s == s'
  | .labeled l b s, .labeled l' b' s' => l == l' && b.same b' && s == s'
  | .trying b c none s, .trying b' c' none s' => b.same b' && sameCatches c c' && s == s'
  | .trying b c (some f) s, .trying b' c' (some f') s' =>
    b.same b' && sameCatches c c' && f.same f' && s == s'
  | .assertion c m s, .assertion c' m' s' => c == c' && m == m' && s == s'
  | .constructorCall k a s, .constructorCall k' a' s' => k == k' && a == a' && s == s'
  | .empty s, .empty s' => s == s'
  | _, _ => false

/-- Whether two runs of statements are the same. -/
def sameStatements : List Statement → List Statement → Bool
  | [], [] => true
  | a :: as, b :: bs => a.same b && sameStatements as bs
  | _, _ => false

/-- Whether two blocks are the same. -/
def Block.same : Block → Block → Bool
  | ⟨ss, s⟩, ⟨ss', s'⟩ => sameStatements ss ss' && s == s'

/-- Whether two runs of handlers are the same. -/
def sameCatches : List CatchClause → List CatchClause → Bool
  | [], [] => true
  | ⟨p, b, s⟩ :: as, ⟨p', b', s'⟩ :: bs => p == p' && b.same b' && s == s' && sameCatches as bs
  | _, _ => false

end

instance : BEq Statement := ⟨Statement.same⟩

instance : BEq Block := ⟨Block.same⟩

instance : BEq CatchClause :=
  ⟨fun a b => a.parameter == b.parameter && a.block == b.block && a.span == b.span⟩

end AspectLang
