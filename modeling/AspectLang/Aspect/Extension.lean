import AspectLang.Aspect.Declare

/-! # What aspect constructs add to declarations

Aspects are types and advice are methods with something extra.  A `TypeExtension` is the
extra part of a type, a `MethodExtension` that of a method; a `Fragment` is a piece of aspect
syntax that is not a declaration by itself.  Where no dialect is in use each of them is a
placeholder that only remembers which construct it stands for. -/

namespace AspectLang

/-- The constructs of the aspect dialect that can be stood in for. -/
inductive Construct where
  | aspect | memberClass | pointcut | beforeAdvice | afterAdvice | aroundAdvice | declare
  | annotationDeclare | interTypeField | interTypeMethod | interTypeConstructor
  | pseudoToken | pseudoTokens | designator
deriving DecidableEq, Inhabited, Repr

/-- The words for a construct. -/
def Construct.words : Construct → String
  | .aspect => "aspect"
  | .memberClass => "inter-type member class"
  | .pointcut => "pointcut"
  | .beforeAdvice => "before advice"
  | .afterAdvice => "after advice"
  | .aroundAdvice => "around advice"
  | .declare => "declare"
  | .annotationDeclare => "declare annotation"
  | .interTypeField => "inter-type field"
  | .interTypeMethod => "inter-type method"
  | .interTypeConstructor => "inter-type constructor"
  | .pseudoToken => "pseudo token"
  | .pseudoTokens => "pseudo tokens"
  | .designator => "pointcut designator"

/-- The text of a placeholder. -/
def Construct.placeholderText (c : Construct) : String := "<" ++ c.words ++ " unavailable>"

/-! ### Types -/

/-- What makes a type an aspect or a class that an aspect adds to another type. -/
inductive TypeExtension where
  | aspect (privileged : Bool) (perClause : Option PerClause) (dominates : Option String)
  | memberClass (onType : Option TypeRef)
  | placeholder (construct : Construct)
deriving BEq

namespace TypeExtension

/-- The words for the kind of extension. -/
def kind : TypeExtension → String
  | .aspect .. => "aspect"
  | .memberClass _ => "inter-type member class"
  | .placeholder _ => "unavailable"

/-- The words that stand for `class` in front of the type's name. -/
def describe : TypeExtension → String
  | .aspect privileged perClause dominates =>
    (if privileged then "privileged aspect" else "aspect") ++
      (match perClause with
        | some clause => " " ++ clause.render
        | none => "") ++
      (match dominates with
        | some pattern => " dominates " ++ pattern
        | none => "")
  | .memberClass (some onType) => "class on " ++ onType.render
  | .memberClass none => "class"
  | .placeholder construct => construct.placeholderText

end TypeExtension

/-! ### Methods -/

/-- A pointcut with the text it was read from; there is none if the text was malformed. -/
structure Designator where
  pointcut : Option Pointcut
  source : String
deriving BEq

/-- When an advice runs. -/
inductive AdviceKind where
  | before | after | afterReturning | afterThrowing | around
deriving DecidableEq, Inhabited, Repr

namespace AdviceKind

/-- The words for a kind of advice. -/
def words : AdviceKind → String
  | .before => "before"
  | .after => "after"
  | .afterReturning => "after returning"
  | .afterThrowing => "after throwing"
  | .around => "around"

/-- Whether an advice runs after its join point. -/
def isAfter : AdviceKind → Bool
  | .after | .afterReturning | .afterThrowing => true
  | _ => false

end AdviceKind

/-- The parts of an advice that a method lacks. -/
structure Advice where
  kind : AdviceKind
  designator : Option Designator := none
  /-- The parameter of a `returning` or `throwing` clause. -/
  extra : Option Parameter := none
  /-- Exceptions that the body may throw, recorded by flow analysis. -/
  inferred : List String := []
deriving BEq

/-- The members that an aspect can add to another type. -/
inductive InterTypeSort where
  | field | method | constructor
deriving DecidableEq, Inhabited, Repr

/-- The words for an inter-type member. -/
def InterTypeSort.words : InterTypeSort → String
  | .field => "inter-type field"
  | .method => "inter-type method"
  | .constructor => "inter-type constructor"

/-- The parts of an inter-type member that a method lacks. -/
structure InterTypeMember where
  kind : InterTypeSort
  onType : Option TypeRef := none
  /-- The modifiers as written. -/
  declaredModifiers : Modifiers := 0
  initialization : Option Expr := none
  /-- Exceptions that the body may throw, recorded by flow analysis. -/
  inferred : List String := []
deriving BEq

/-- What makes a method a pointcut, an advice, a declare statement or an inter-type member. -/
inductive MethodExtension where
  | pointcut (designator : Option Designator)
  | advice (advice : Advice)
  | declare (declare : Declare)
  | interType (member : InterTypeMember)
  | placeholder (construct : Construct)
deriving BEq

namespace MethodExtension

/-- The words for the kind of extension. -/
def kind : MethodExtension → String
  | .pointcut _ => "pointcut"
  | .advice a =>
    match a.kind with
    | .before => "before advice"
    | .around => "around advice"
    | _ => "after advice"
  | .declare _ => "declare"
  | .interType m => m.kind.words
  | .placeholder _ => "unavailable"

/-- The words in front of the method's signature. -/
def describe : MethodExtension → String
  | .pointcut (some designator) => "pointcut [" ++ designator.source ++ "]"
  | .pointcut none => "pointcut"
  | .advice a =>
    a.kind.words ++
      (match a.extra with
        | some extra => "(" ++ extra.render ++ ")"
        | none => "") ++
      (match a.designator with
        | some designator => " [" ++ designator.source ++ "]"
        | none => "")
  | .declare d => d.render
  | .interType m =>
    match m.onType with
    | some onType => m.kind.words ++ " on " ++ onType.render
    | none => m.kind.words
  | .placeholder construct => construct.placeholderText

/-- Whether flow analysis records the exceptions that escape the body instead of asking for
their declaration. -/
def infersExceptions : MethodExtension → Bool
  | .advice _ => true
  | .interType m => m.kind != .field
  | _ => false

/-- Records the exceptions that escape the body. -/
def recordExceptions (names : List String) : MethodExtension → MethodExtension
  | .advice a => .advice { a with inferred := names }
  | .interType m => .interType { m with inferred := names }
  | e => e

end MethodExtension

/-! ### Fragments -/

/-- What a fragment of aspect syntax is. -/
inductive FragmentContent where
  | token (token : PseudoToken)
  | tokens (tokens : List PseudoToken)
  | designator (designator : Designator)
  | placeholder (construct : Construct)
deriving BEq

namespace FragmentContent

/-- The words for the kind of fragment. -/
def kind : FragmentContent → String
  | .token _ => "pseudo token"
  | .tokens _ => "pseudo tokens"
  | .designator _ => "pointcut designator"
  | .placeholder _ => "unavailable"

/-- The text of a fragment. -/
def describe : FragmentContent → String
  | .token t => t.render
  | .tokens ts => PseudoToken.renderAll ts
  | .designator d => d.source
  | .placeholder construct => construct.placeholderText

end FragmentContent

/-- A piece of aspect syntax: a pseudo token, a run of them, or a pointcut read from one. -/
structure Fragment where
  span : Span
  content : FragmentContent
deriving BEq

/-- The tokens of a fragment that is a run of them. -/
def Fragment.tokens (f : Fragment) : List PseudoToken :=
  match f.content with
  | .tokens ts => ts
  | _ => []

end AspectLang
