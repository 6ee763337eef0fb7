import AspectLang.Text.Blank
import AspectLang.Text.Quoted
import AspectLang.Token.Kind

/-! # Context-free grammars

A grammar is a list of productions over terminals and numbered nonterminals; production zero
is the start production.  `Grammar.ofRules` reads one from texts of the form `Lhs ::= symbol
symbol ...`: what stands on the left of some rule is a nonterminal, and everything else must be
the name of a terminal.  Nonterminals are numbered in the order in which rules introduce them. -/

namespace AspectLang

/-- A symbol of a grammar. -/
inductive Symbol where
  | terminal (kind : TokenKind)
  | nonterminal (id : Nat)
deriving DecidableEq, Inhabited, Repr

/-- A production. -/
structure Production where
  lhs : Nat
  rhs : List Symbol
deriving DecidableEq, Inhabited, Repr

/-- A grammar; production zero is the start production. -/
structure Grammar where
  nonterminals : Array String
  productions : Array Production
deriving DecidableEq, Inhabited, Repr

/-- Reasons why rules are no grammar. -/
inductive GrammarFault where
  /-- A rule has no arrow. -/
  | noArrow (rule : String)
  /-- A rule has nothing in front of its arrow. -/
  | noLeftHandSide (rule : String)
  /-- A symbol is neither a nonterminal nor the name of a terminal. -/
  | unknownSymbol (name rule : String)
  /-- There is no rule. -/
  | noProductions
deriving DecidableEq, Inhabited, Repr

/-- The words for a fault in a grammar. -/
def GrammarFault.message : GrammarFault → String
  | .noArrow rule => "rule without \"::=\": " ++ rule
  | .noLeftHandSide rule => "rule without left-hand side: " ++ rule
  | .unknownSymbol name rule =>
    "unknown symbol " ++ String.ofList (Text.quote name.toList) ++ " in rule: " ++ rule
  | .noProductions => "no productions"

namespace Grammar

/-- The number of the nonterminal with a given name. -/
def nonterminal? (g : Grammar) (name : String) : Option Nat := g.nonterminals.idxOf? name

/-- The name of a nonterminal, or a question mark when there is none with that number. -/
def nonterminalName (g : Grammar) (id : Nat) : String := g.nonterminals.getD id "?"

/-- The name of a symbol in rules. -/
def symbolName (g : Grammar) : Symbol → String
  | .terminal kind => kind.grammarName
  | .nonterminal id => g.nonterminalName id

/-! ### Reading rules -/

/-- A rule cut into the name on its left and the names on its right. -/
structure RuleText where
  lhs : String
  rhs : List String
  text : String
deriving DecidableEq, Repr

/-- Cuts a rule at its first arrow. -/
def splitRule (text : String) : Except GrammarFault RuleText :=
  match Text.splitAt? "::=".toList text.toList with
  | none => .error (.noArrow text)
  | some (lhs, rhs) =>
    match Text.trim lhs with
    | [] => .error (.noLeftHandSide text)
    | lhs => .ok ⟨String.ofList lhs, (Text.words rhs).map String.ofList, text⟩

/-- The symbol with a given name; a nonterminal hides a terminal of the same name. -/
def resolveSymbol (nonterminals : List String) (text name : String) : Except GrammarFault Symbol :=
  match nonterminals.idxOf? name with
  | some id => .ok (.nonterminal id)
  | none =>
    match TokenKind.ofGrammarName? name with
    | some kind => .ok (.terminal kind)
    | none => .error (.unknownSymbol name text)

/-- The production of a rule. -/
def resolveRule (nonterminals : List String) (r : RuleText) : Except GrammarFault Production :=
  match r.rhs.mapM (resolveSymbol nonterminals r.text) with
  | .error e => .error e
  | .ok rhs => .ok ⟨nonterminals.idxOf r.lhs, rhs⟩

/-- The grammar that rules describe. -/
def ofRules (rules : List String) : Except GrammarFault Grammar :=
  match rules.mapM splitRule with
  | .error e => .error e
  | .ok split =>
    let nonterminals := (split.map (·.lhs)).eraseDups
    match split.mapM (resolveRule nonterminals) with
    | .error e => .error e
    | .ok productions => .ok ⟨nonterminals.toArray, productions.toArray⟩

end Grammar

end AspectLang
