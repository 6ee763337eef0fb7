/-! # Token kinds

The terminals of the language and the kinds of trivia between them.  The words of the aspect
constructs (`aspect`, `pointcut`, `before`, ...) have kinds of their own whether or not a
dialect is in use.  `TokenKind.all` lists the terminals a grammar may mention, in the order
of the columns of a parse table; trivia come after them and have no column. -/

namespace AspectLang

/-- The kinds of tokens. -/
inductive TokenKind where
  -- keywords
  | kwAbstract | kwAssert | kwBoolean | kwBreak | kwByte | kwCase | kwCatch | kwChar | kwClass
  | kwContinue | kwDefault | kwDo | kwDouble | kwElse | kwExtends | kwFinal | kwFinally | kwFloat
  | kwFor | kwIf | kwImplements | kwImport | kwInstanceOf | kwInt | kwInterface | kwLong
  | kwNative | kwNew | kwPackage | kwPrivate | kwProtected | kwPublic | kwReturn | kwShort
  | kwStatic | kwStrictfp | kwSuper | kwSwitch | kwSynchronized | kwThis | kwThrow | kwThrows
  | kwTransient | kwTry | kwVoid | kwVolatile | kwWhile | kwTrue | kwFalse | kwNull
  -- words of the aspect constructs
  | kwAspect | kwPrivileged | kwPointcut | kwBefore | kwAfter | kwAround | kwDeclare
  -- operators
  | assign | addAssign | subAssign | mulAssign | divAssign | modAssign | andAssign | orAssign
  | xorAssign | shiftLeftAssign | shiftRightAssign | shiftRightUnsignedAssign | plus | minus
  | star | slash | percent | increment | decrement | bang | tilde | ampersand | pipe | caret
  | shiftLeft | shiftRight | shiftRightUnsigned | andAnd | orOr | eq | ne | lt | le | gt | ge
  | question | colon
  -- separators
  | lParen | rParen | lBracket | rBracket | lBrace | rBrace | semicolon | comma | dot | atSign
  | ellipsis
  -- literals and names
  | integerLiteral | longLiteral | floatingPointLiteral | doubleLiteral | characterLiteral
  | stringLiteral | identifier
  -- end of input, which no text spells
  | eof
  -- trivia
  | lineComment | blockComment | whitespace | bom
deriving DecidableEq, Inhabited, Repr, Hashable

namespace TokenKind

/-! ### Listings -/

/-- The keywords and the words of the aspect constructs. -/
def keywords : List TokenKind := [
  .kwAbstract, .kwAssert, .kwBoolean, .kwBreak, .kwByte, .kwCase, .kwCatch, .kwChar, .kwClass,
  .kwContinue, .kwDefault, .kwDo, .kwDouble, .kwElse, .kwExtends, .kwFinal, .kwFinally, .kwFloat,
  .kwFor, .kwIf, .kwImplements, .kwImport, .kwInstanceOf, .kwInt, .kwInterface, .kwLong,
  .kwNative, .kwNew, .kwPackage, .kwPrivate, .kwProtected, .kwPublic, .kwReturn, .kwShort,
  .kwStatic, .kwStrictfp, .kwSuper, .kwSwitch, .kwSynchronized, .kwThis, .kwThrow, .kwThrows,
  .kwTransient, .kwTry, .kwVoid, .kwVolatile, .kwWhile, .kwTrue, .kwFalse, .kwNull, .kwAspect,
  .kwPrivileged, .kwPointcut, .kwBefore, .kwAfter, .kwAround, .kwDeclare]

/-- The operators and separators. -/
def symbols : List TokenKind := [
  .assign, .addAssign, .subAssign, .mulAssign, .divAssign, .modAssign, .andAssign, .orAssign,
  .xorAssign, .shiftLeftAssign, .shiftRightAssign, .shiftRightUnsignedAssign, .plus, .minus,
  .star, .slash, .percent, .increment, .decrement, .bang, .tilde, .ampersand, .pipe, .caret,
  .shiftLeft, .shiftRight, .shiftRightUnsigned, .andAnd, .orOr, .eq, .ne, .lt, .le, .gt, .ge,
  .question, .colon, .lParen, .rParen, .lBracket, .rBracket, .lBrace, .rBrace, .semicolon,
  .comma, .dot, .atSign, .ellipsis]

/-- The kinds whose text varies, and the end of input. -/
def varying : List TokenKind := [
  .integerLiteral, .longLiteral, .floatingPointLiteral, .doubleLiteral, .characterLiteral,
  .stringLiteral, .identifier, .eof]

/-- Every terminal a grammar may mention, in column order. -/
def all : List TokenKind := keywords ++ symbols ++ varying

/-- The kinds that stand between tokens and that a parser never sees. -/
def trivia : List TokenKind := [.lineComment, .blockComment, .whitespace, .bom]

/-! ### Texts -/

/-- Fixed text of a keyword, operator or separator. -/
def lexeme? : TokenKind → Option String
  | .kwAbstract => some "abstract"
  | .kwAssert => some "assert"
  | .kwBoolean => some "boolean"
  | .kwBreak => some "break"
  | .kwByte => some "byte"
  | .kwCase => some "case"
  | .kwCatch => some "catch"
  | .kwChar => some "char"
  | .kwClass => some "class"
  | .kwContinue => some "continue"
  | .kwDefault => some "default"
  | .kwDo => some "do"
  | .kwDouble => some "double"
  | .kwElse => some "else"
  | .kwExtends => some "extends"
  | .kwFinal => some "final"
  | .kwFinally => some "finally"
  | .kwFloat => some "float"
  | .kwFor => some "for"
  | .kwIf => some "if"
  | .kwImplements => some "implements"
  | .kwImport => some "import"
  | .kwInstanceOf => some "instanceof"
  | .kwInt => some "int"
  | .kwInterface => some "interface"
  | .kwLong => some "long"
  | .kwNative => some "native"
  | .kwNew => some "new"
  | .kwPackage => some "package"
  | .kwPrivate => some "private"
  | .kwProtected => some "protected"
  | .kwPublic => some "public"
  | .kwReturn => some "return"
  | .kwShort => some "short"
  | .kwStatic => some "static"
  | .kwStrictfp => some "strictfp"
  | .kwSuper => some "super"
  | .kwSwitch => some "switch"
  | .kwSynchronized => some "synchronized"
  | .kwThis => some "this"
  | .kwThrow => some "throw"
  | .kwThrows => some "throws"
  | .kwTransient => some "transient"
  | .kwTry => some "try"
  | .kwVoid => some "void"
  | .kwVolatile => some "volatile"
  | .kwWhile => some "while"
  | .kwTrue => some "true"
  | .kwFalse => some "false"
  | .kwNull => some "null"
  | .kwAspect => some "aspect"
  | .kwPrivileged => some "privileged"
  | .kwPointcut => some "pointcut"
  | .kwBefore => some "before"
  | .kwAfter => some "after"
  | .kwAround => some "around"
  | .kwDeclare => some "declare"
  | .assign => some "="
  | .addAssign => some "+="
  | .subAssign => some "-="
  | .mulAssign => some "*="
  | .divAssign => some "/="
  | .modAssign => some "%="
  | .andAssign => some "&="
  | .orAssign => some "|="
  | .xorAssign => some "^="
  | .shiftLeftAssign => some "<<="
  | .shiftRightAssign => some ">>="
  | .shiftRightUnsignedAssign => some ">>>="
  | .plus => some "+"
  | .minus => some "-"
  | .star => some "*"
  | .slash => some "/"
  | .percent => some "%"
  | .increment => some "++"
  | .decrement => some "--"
  | .bang => some "!"
  | .tilde => some "~"
  | .ampersand => some "&"
  | .pipe => some "|"
  | .caret => some "^"
  | .shiftLeft => some "<<"
  | .shiftRight => some ">>"
  | .shiftRightUnsigned => some ">>>"
  | .andAnd => some "&&"
  | .orOr => some "||"
  | .eq => some "=="
  | .ne => some "!="
  | .lt => some "<"
  | .le => some "<="
  | .gt => some ">"
  | .ge => some ">="
  | .question => some "?"
  | .colon => some ":"
  | .lParen => some "("
  | .rParen => some ")"
  | .lBracket => some "["
  | .rBracket => some "]"
  | .lBrace => some "\x7b"
  | .rBrace => some "\x7d"
  | .semicolon => some ";"
  | .comma => some ","
  | .dot => some "."
  | .atSign => some "@"
  | .ellipsis => some "..."
  | _ => none

/-- Name of a kind whose text varies. -/
def className : TokenKind → String
  | .integerLiteral => "IntegerLiteral"
  | .longLiteral => "LongLiteral"
  | .floatingPointLiteral => "FloatingPointLiteral"
  | .doubleLiteral => "DoubleLiteral"
  | .characterLiteral => "CharacterLiteral"
  | .stringLiteral => "StringLiteral"
  | .identifier => "Identifier"
  | .lineComment => "LineComment"
  | .blockComment => "BlockComment"
  | .whitespace => "Whitespace"
  | .bom => "Bom"
  | _ => "EOF"

/-- Name of a terminal in grammar rules: its text, or the name of its class. -/
def grammarName (k : TokenKind) : String := k.lexeme?.getD k.className

/-- The terminal with a given name in grammar rules. -/
def ofGrammarName? (name : String) : Option TokenKind := all.find? (·.grammarName == name)

/-- Identifier of a kind, unlike its text always a word. -/
def label : TokenKind → String
  | .kwAbstract => "Abstract"
  | .kwAssert => "Assert"
  | .kwBoolean => "Boolean"
  | .kwBreak => "Break"
  | .kwByte => "Byte"
  | .kwCase => "Case"
  | .kwCatch => "Catch"
  | .kwChar => "Char"
  | .kwClass => "Class"
  | .kwContinue => "Continue"
  | .kwDefault => "Default"
  | .kwDo => "Do"
  | .kwDouble => "Double"
  | .kwElse => "Else"
  | .kwExtends => "Extends"
  | .kwFinal => "Final"
  | .kwFinally => "Finally"
  | .kwFloat => "Float"
  | .kwFor => "For"
  | .kwIf => "If"
  | .kwImplements => "Implements"
  | .kwImport => "Import"
  | .kwInstanceOf => "InstanceOf"
  | .kwInt => "Int"
  | .kwInterface => "Interface"
  | .kwLong => "Long"
  | .kwNative => "Native"
  | .kwNew => "New"
  | .kwPackage => "Package"
  | .kwPrivate => "Private"
  | .kwProtected => "Protected"
  | .kwPublic => "Public"
  | .kwReturn => "Return"
  | .kwShort => "Short"
  | .kwStatic => "Static"
  | .kwStrictfp => "Strictfp"
  | .kwSuper => "Super"
  | .kwSwitch => "Switch"
  | .kwSynchronized => "Synchronized"
  | .kwThis => "This"
  | .kwThrow => "Throw"
  | .kwThrows => "Throws"
  | .kwTransient => "Transient"
  | .kwTry => "Try"
  | .kwVoid => "Void"
  | .kwVolatile => "Volatile"
  | .kwWhile => "While"
  | .kwTrue => "True"
  | .kwFalse => "False"
  | .kwNull => "Null"
  | .kwAspect => "Aspect"
  | .kwPrivileged => "Privileged"
  | .kwPointcut => "Pointcut"
  | .kwBefore => "Before"
  | .kwAfter => "After"
  | .kwAround => "Around"
  | .kwDeclare => "Declare"
  | .assign => "Assign"
  | .addAssign => "AddAssign"
  | .subAssign => "SubAssign"
  | .mulAssign => "MulAssign"
  | .divAssign => "DivAssign"
  | .modAssign => "ModAssign"
  | .andAssign => "AndAssign"
  | .orAssign => "OrAssign"
  | .xorAssign => "XorAssign"
  | .shiftLeftAssign => "LShiftAssign"
  | .shiftRightAssign => "RShiftAssign"
  | .shiftRightUnsignedAssign => "URShiftAssign"
  | .plus => "Plus"
  | .minus => "Minus"
  | .star => "Star"
  | .slash => "Slash"
  | .percent => "Percent"
  | .increment => "Inc"
  | .decrement => "Dec"
  | .bang => "Bang"
  | .tilde => "Tilde"
  | .ampersand => "Amp"
  | .pipe => "Pipe"
  | .caret => "Caret"
  | .shiftLeft => "LShift"
  | .shiftRight => "RShift"
  | .shiftRightUnsigned => "URShift"
  | .andAnd => "AndAnd"
  | .orOr => "PipePipe"
  | .eq => "Eq"
  | .ne => "Ne"
  | .lt => "Lt"
  | .le => "Le"
  | .gt => "Gt"
  | .ge => "Ge"
  | .question => "Question"
  | .colon => "Colon"
  | .lParen => "LParen"
  | .rParen => "RParen"
  | .lBracket => "LBracket"
  | .rBracket => "RBracket"
  | .lBrace => "LBrace"
  | .rBrace => "RBrace"
  | .semicolon => "Semicolon"
  | .comma => "Comma"
  | .dot => "Dot"
  | .atSign => "At"
  | .ellipsis => "Ellipsis"
  | .integerLiteral => "IntegerLiteral"
  | .longLiteral => "LongLiteral"
  | .floatingPointLiteral => "FloatingPointLiteral"
  | .doubleLiteral => "DoubleLiteral"
  | .characterLiteral => "CharacterLiteral"
  | .stringLiteral => "StringLiteral"
  | .identifier => "Identifier"
  | .eof => "Eof"
  | .lineComment => "LineComment"
  | .blockComment => "BlockComment"
  | .whitespace => "Whitespace"
  | .bom => "Bom"

/-- The kind with a given identifier. -/
def ofLabel? (name : String) : Option TokenKind := (all ++ trivia).find? (·.label == name)

/-! ### Columns -/

/-- Column of a terminal in a parse table; trivia have numbers past the last column. -/
def column (k : TokenKind) : Nat := k.ctorIdx

/-- Number of columns of a parse table. -/
def columnCount : Nat := all.length

/-! ### Classes -/

/-- Whether a kind stands between tokens. -/
def isTrivia : TokenKind → Bool
  | .lineComment | .blockComment | .whitespace | .bom => true
  | _ => false

/-- Whether a kind is a word of an aspect construct, which is an identifier elsewhere. -/
def isAspectWord : TokenKind → Bool
  | .kwAspect | .kwPrivileged | .kwPointcut | .kwBefore | .kwAfter | .kwAround | .kwDeclare => true
  | _ => false

/-- Whether a kind is a literal. -/
def isLiteral : TokenKind → Bool
  | .integerLiteral | .longLiteral | .floatingPointLiteral | .doubleLiteral
  | .characterLiteral | .stringLiteral | .kwTrue | .kwFalse | .kwNull => true
  | _ => false

/-- Whether a kind is a modifier keyword. -/
def isModifier : TokenKind → Bool
  | .kwPublic | .kwPrivate | .kwProtected | .kwStatic | .kwFinal | .kwAbstract | .kwNative
  | .kwSynchronized | .kwTransient | .kwVolatile | .kwStrictfp | .kwDefault => true
  | _ => false

/-- A shift operator read as closing angle brackets: the first bracket and the rest. -/
def halves? : TokenKind → Option (TokenKind × TokenKind)
  | .shiftRight => some (.gt, .gt)
  | .shiftRightUnsigned => some (.gt, .shiftRight)
  | _ => none

end TokenKind

end AspectLang
