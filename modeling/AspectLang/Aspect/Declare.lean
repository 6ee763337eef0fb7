import AspectLang.Aspect.Pointcut

/-! # Declare statements

A declare statement is read from the pseudo tokens `declare kind : body ;`, or, for an
annotation, from `declare @ target : pattern ;` and the annotation after it. -/

namespace AspectLang

/-- What a declared annotation goes on. -/
inductive AnnotationTarget where
  | type | method | field | constructor
deriving DecidableEq, Inhabited, Repr

namespace AnnotationTarget

/-- The word for a target. -/
def word : AnnotationTarget → String
  | .type => "type"
  | .method => "method"
  | .field => "field"
  | .constructor => "constructor"

/-- The target with a given word. -/
def ofWord? (word : String) : Option AnnotationTarget :=
  [AnnotationTarget.type, .method, .field, .constructor].find? (·.word == word)

end AnnotationTarget

/-- A declare statement. -/
inductive Declare where
  | parents (child : String) (isExtends : Bool) (parents : List String)
  /-- A warning or an error at the join points of a pointcut. -/
  | message (isError : Bool) (pointcut : Pointcut) (message : String)
  | soft (exception : String) (pointcut : Pointcut)
  | precedence (patterns : List String)
  /-- An annotation with a sign: a blank or `+` adds it, `-` removes it. -/
  | annotationUse (target : AnnotationTarget) (pattern : String) (annotationUse : AnnotationUse)
      (sign : Char)
  /-- A statement with a reported problem. -/
  | invalid (kind source : String)
deriving BEq

namespace Declare

/-- A declare statement as text. -/
def render : Declare → String
  | .parents child isExtends types =>
    "declare parents: " ++ child ++ (if isExtends then " extends " else " implements ") ++
      ", ".intercalate types
  | .message isError pointcut text =>
    (if isError then "declare error: " else "declare warning: ") ++ pointcut.render ++
      " : \"" ++ text ++ "\""
  | .soft exception pointcut => "declare soft: " ++ exception ++ " : " ++ pointcut.render
  | .precedence patterns => "declare precedence: " ++ ", ".intercalate patterns
  | .annotationUse target pattern value sign =>
    "declare @" ++ target.word ++ ": " ++ pattern ++ " : " ++
      (if sign = ' ' then "" else sign.toString) ++ value.render
  | .invalid kind source => "declare " ++ kind ++ " (invalid): " ++ source

/-- Why a declare statement could not be read. -/
inductive Rejection where
  | problem (problem : ReadProblem)
  /-- The message literal had to be cut inside a character. -/
  | brokenText (text : String)
deriving DecidableEq, Repr

/-- Rejection of a statement with a problem. -/
def reject (message : String) (span : Span) : Rejection := .problem ⟨message, span⟩

/-- The tokens after the first `header` ones, without a closing semicolon. -/
def body (ts : List PseudoToken) (header : Nat) : List PseudoToken :=
  let ts := match ts.getLast? with
    | some last => if last.is ";" then ts.dropLast else ts
    | none => ts
  ts.drop header

/-- Reads the body of `declare parents`. -/
def parseParents (body : List PseudoToken) (stop : Span) : Except Rejection Declare :=
  let isKeyword (t : PseudoToken) := t.is "extends" || t.is "implements"
  let child := body.takeWhile fun t => !isKeyword t
  match body.dropWhile fun t => !isKeyword t with
  | [] => .error (reject "expected \"extends\" or \"implements\"" (PseudoToken.spanOf body stop))
  | keyword :: types =>
    if child.isEmpty || types.isEmpty then
      .error (reject "incomplete declare parents" (PseudoToken.spanOf body stop))
    else
      .ok (.parents (PseudoToken.renderAll child) (keyword.is "extends")
        ((PseudoToken.splitOutsideBrackets types ",").map PseudoToken.renderAll))

/-- Reads the body of `declare warning` or `declare error`. -/
def parseMessage (isError : Bool) (body : List PseudoToken) (stop : Span) :
    Except Rejection Declare :=
  match PseudoToken.splitOnce? body ":" with
  | none => .error (reject "expected \":\" before the message" stop)
  | some (pointcut, rest) =>
    let noMessage := reject "expected a string message" (PseudoToken.spanOf rest stop)
    match rest with
    | [literal] =>
      if literal.literalKind == some "string" then
        match Pointcut.parse pointcut literal.span with
        | .error e => .error (.problem e)
        | .ok pointcut =>
          match literal.unquoted? with
          | some text => .ok (.message isError pointcut text)
          | none => .error (.brokenText literal.value)
      else .error noMessage
    | _ => .error noMessage

/-- Reads the body of `declare soft`; `kindSpan` is the range of the word `soft`. -/
def parseSoft (kindSpan : Span) (body : List PseudoToken) (stop : Span) :
    Except Rejection Declare :=
  match PseudoToken.splitOnce? body ":" with
  | none => .error (reject "expected \":\" after the exception type" stop)
  | some (exception, pointcut) =>
    if exception.isEmpty then .error (reject "missing exception type" kindSpan)
    else
      match Pointcut.parse pointcut stop with
      | .error e => .error (.problem e)
      | .ok pointcut => .ok (.soft (PseudoToken.renderAll exception) pointcut)

/-- Reads the body of `declare precedence`. -/
def parsePrecedence (body : List PseudoToken) (stop : Span) : Except Rejection Declare :=
  let patterns := (PseudoToken.splitOutsideBrackets body ",").map PseudoToken.renderAll
  if patterns.any (·.isEmpty) then
    .error (reject "empty type pattern in precedence list" (PseudoToken.spanOf body stop))
  else .ok (.precedence patterns)

/-- Reads `declare kind : body ;`. -/
def parse (ts : List PseudoToken) : Except Rejection Declare :=
  let span := PseudoToken.spanOf ts {}
  match ts[1]? with
  | none => .error (reject "missing declare kind" span)
  | some kind =>
    let content := body ts 3
    let stop := match ts.getLast? with
      | some last => last.span
      | none => span
    if content.isEmpty then .error (reject s!"empty declare {kind.value}" kind.span)
    else
      match kind.value with
      | "parents" => parseParents content stop
      | "warning" => parseMessage false content stop
      | "error" => parseMessage true content stop
      | "soft" => parseSoft kind.span content stop
      | "precedence" => parsePrecedence content stop
      | other => .error (reject s!"\"{other}\" is not a kind of declare" kind.span)

/-- Reads `declare @ target : pattern ;`, the part of a declared annotation before it. -/
def parseAnnotationForm (ts : List PseudoToken) (annotationUse : AnnotationUse) (sign : Char) :
    Except ReadProblem Declare :=
  match ts[2]? with
  | none => .error ⟨"missing declare annotation kind", PseudoToken.spanOf ts {}⟩
  | some kind =>
    match AnnotationTarget.ofWord? kind.value with
    | none => .error ⟨s!"\"@{kind.value}\" is not a kind of declare", kind.span⟩
    | some target =>
      let pattern := body ts 4
      if pattern.isEmpty then .error ⟨"missing pattern", kind.span⟩
      else .ok (.annotationUse target (PseudoToken.renderAll pattern) annotationUse sign)

end Declare

end AspectLang
