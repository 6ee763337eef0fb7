import AspectLang.Proofs.Automaton.Driver
import AspectLang.Proofs.Parse.Balance

/-! # Chains of reductions

Every reduction lowers the rank of the stack of symbols, whatever the lookahead is
(`rank_lt_of_reduce`).  A symbol adds its weight to the rank, and the topmost one adds its height:
what reductions from it on can still come to.  Nonterminals that can vanish weigh nothing, so that
a reduction of nothing lowers the rank if there was room for it, and that depends on the symbol
before it alone.  The numbers are given; that they fit together is a check of each rule by itself
(`rules_lower`). -/

namespace AspectLang

/-! ### Weights, heights and room -/

namespace Nonterminal

/-- What a nonterminal adds to the rank: nothing if it can vanish. -/
def weight : Nonterminal → Nat
  | .goal | .compilationUnit | .packageDeclarationOpt | .importDeclarationsOpt
  | .typeDeclarationsOpt | .dimsOpt | .modifiersOpt | .classHeaderExtendsOpt
  | .classHeaderImplementsOpt | .interfaceHeaderExtendsOpt | .classBodyDeclarationsOpt
  | .methodHeaderThrowsClauseOpt | .formalParameterListOpt | .blockStatementsOpt | .catchesOpt
  | .forInitOpt | .forUpdateOpt | .expressionOpt | .argumentListOpt | .aspectHeaderRestOpt
  | .extraParamOpt | .interTypeFieldBody => 0
  | _ => 20

/-- What reductions can come to while a nonterminal is topmost. -/
def height : Nonterminal → Nat
  | .literal | .classInstanceCreationExpression | .fieldAccess | .methodInvocation => 18
  | .name | .primary | .postIncrementExpression | .postDecrementExpression => 17
  | .postfixExpression => 16
  | .preIncrementExpression | .preDecrementExpression | .unaryExpressionNotPlusMinus => 15
  | .unaryExpression => 14
  | .multiplicativeExpression => 13
  | .additiveExpression => 12
  | .shiftExpression => 11
  | .relationalExpression => 10
  | .equalityExpression => 9
  | .andExpression => 8
  | .exclusiveOrExpression => 7
  | .inclusiveOrExpression => 6
  | .block | .conditionalAndExpression => 5
  | .packageDeclarationOpt | .classOrInterface | .genericType | .classDeclaration | .classHeaderName
  | .interfaceDeclaration | .fieldDeclaration | .methodDeclaration | .constructorDeclaration
  | .initializer | .conditionalOrExpression | .aspectDeclaration | .aspectHeaderName
  | .pointcutDeclaration | .adviceDeclaration | .declareDeclaration | .declareAnnotationDeclaration
  | .interTypeFieldDeclaration | .interTypeMethodDeclaration | .interTypeConstructorDeclaration
  | .interTypeClassDeclaration | .interTypeClassHeaderName => 4
  | .importDeclarationsOpt | .primitiveType | .classOrInterfaceType | .arrayType | .dimsOpt
  | .modifierKeyword | .classHeaderExtendsOpt | .classMemberDeclaration | .conditionalExpression
  | .assignment | .plainIdentifier => 3
  | .typeDeclarationsOpt | .typeDeclaration | .referenceType | .annotationUse
  | .classHeaderImplementsOpt | .interfaceHeaderName | .classBodyDeclaration | .variableDeclaratorId
  | .localVariableDeclarationStatement | .statement | .explicitConstructorInvocation
  | .assignmentExpression | .pseudoTokenNoColon => 2
  | .compilationUnit | .importDeclaration | .typeDeclarations | .classType | .typeArgument
  | .typeParameter | .additionalBound | .modifier | .interfaceHeaderExtendsOpt
  | .classBodyDeclarations | .variableDeclarator | .methodHeaderName | .constructorHeaderName
  | .formalParameter | .blockStatement | .catchClause | .statementExpression | .expression
  | .aspectHeaderRestOpt | .aspectHeaderRestStart | .pointcutHeader | .aroundHeaderName
  | .basicAdviceHeaderName | .extraParamOpt | .interTypeFieldHeader | .interTypeMethodHeaderName
  | .interTypeConstructorHeaderName | .pseudoToken => 1
  | _ => 0

/-- The room that has to be left for what can vanish at the beginning of a nonterminal. -/
def room : Nonterminal → Nat
  | .goal | .compilationUnit | .packageDeclarationOpt => 5
  | .importDeclarationsOpt | .dimsOpt | .classHeaderExtendsOpt => 4
  | .typeDeclarationsOpt | .classHeaderImplementsOpt => 3
  | .interfaceHeaderExtendsOpt | .aspectHeaderRestOpt | .extraParamOpt => 2
  | .typeDeclarations | .typeDeclaration | .modifiersOpt | .classDeclaration | .classHeader
  | .classHeaderName | .interfaceDeclaration | .interfaceHeader | .interfaceHeaderName
  | .classBodyDeclarationsOpt | .classBodyDeclarations | .classBodyDeclaration
  | .classMemberDeclaration | .fieldDeclaration | .methodDeclaration | .methodHeader
  | .methodHeaderName | .methodHeaderThrowsClauseOpt | .constructorDeclaration | .constructorHeader
  | .constructorHeaderName | .formalParameterListOpt | .initializer | .blockStatementsOpt
  | .catchesOpt | .forInitOpt | .forUpdateOpt | .expressionOpt | .argumentListOpt
  | .aspectDeclaration | .aspectHeader | .aspectHeaderName | .pointcutDeclaration | .pointcutHeader
  | .adviceDeclaration | .aroundHeader | .aroundHeaderName | .basicAdviceHeader
  | .basicAdviceHeaderName | .interTypeFieldDeclaration | .interTypeFieldHeader
  | .interTypeFieldBody | .interTypeMethodDeclaration | .interTypeMethodHeader
  | .interTypeMethodHeaderName | .interTypeConstructorDeclaration | .interTypeConstructorHeader
  | .interTypeConstructorHeaderName | .interTypeClassDeclaration | .interTypeClassHeader
  | .interTypeClassHeaderName => 1
  | _ => 0

end Nonterminal

namespace RuleSymbol

/-- The weight of a symbol of a rule. -/
def weight : RuleSymbol → Nat
  | .t _ => 20
  | .n x => x.weight

/-- The height of a symbol of a rule. -/
def height : RuleSymbol → Nat
  | .t _ => 20
  | .n x => x.height

/-- Whether there is room for each symbol in a row after the one before it, and at first for as
much as given. -/
def leaveRoom : (room : Nat) → List RuleSymbol → Bool
  | _, [] => true
  | _, .t kind :: rest => leaveRoom (RuleSymbol.t kind).height rest
  | room, .n x :: rest => decide (x.room ≤ room) && leaveRoom x.height rest

variable {room dot : Nat} {s : RuleSymbol} {rest : List RuleSymbol} {x : Nonterminal}

theorem leaveRoom_tail (h : leaveRoom room (s :: rest) = true) :
    leaveRoom s.height rest = true := by
  cases s with
  | t kind => exact h
  | n x => exact (Bool.and_eq_true_iff.mp h).2

theorem room_le_first (h : leaveRoom room rest = true) (hx : rest[0]? = some (.n x)) :
    x.room ≤ room := by
  obtain ⟨more, rfl⟩ := List.head?_eq_some_iff.mp (List.head?_eq_getElem?.trans hx)
  exact of_decide_eq_true (Bool.and_eq_true_iff.mp h).1

theorem room_le_next (h : leaveRoom room rest = true) (hs : rest[dot]? = some s)
    (hx : rest[dot + 1]? = some (.n x)) : x.room ≤ s.height := by
  induction rest generalizing room dot with
  | nil => cases hs
  | cons first rest ih =>
      have htail := leaveRoom_tail h
      cases dot with
      | zero =>
          obtain rfl : first = s := Option.some.inj hs
          exact room_le_first htail hx
      | succ dot => exact ih htail hs hx

end RuleSymbol

namespace Rule

/-- Whether a reduction by a rule lowers the rank. -/
def lowers (r : Rule) : Bool :=
  match r.rhs.getLast? with
  | none => decide (r.lhs.weight + r.lhs.height < r.lhs.room)
  | some last =>
    decide (r.lhs.weight + r.lhs.height < (r.rhs.map RuleSymbol.weight).sum + last.height)

end Rule

theorem Language.rules_lower :
    ∀ r ∈ rules, r.lowers = true ∧ RuleSymbol.leaveRoom r.lhs.room r.rhs = true := by
  decide +kernel

/-! ### The rank of a stack -/

namespace Symbol

/-- The weight of a symbol. -/
def weight : Symbol → Nat
  | .terminal _ => 20
  | .nonterminal id => Nonterminal.all[id]?.elim 0 Nonterminal.weight

/-- The height of a symbol. -/
def height : Symbol → Nat
  | .terminal _ => 20
  | .nonterminal id => Nonterminal.all[id]?.elim 0 Nonterminal.height

end Symbol

theorem RuleSymbol.weight_symbol (s : RuleSymbol) : s.symbol.weight = s.weight := by
  cases s with
  | t kind => rfl
  | n x =>
      change Nonterminal.all[x.index]?.elim 0 Nonterminal.weight = x.weight
      rw [x.all_getElem?]
      rfl

theorem RuleSymbol.height_symbol (s : RuleSymbol) : s.symbol.height = s.height := by
  cases s with
  | t kind => rfl
  | n x =>
      change Nonterminal.all[x.index]?.elim 0 Nonterminal.height = x.height
      rw [x.all_getElem?]
      rfl

/-- The room that a stack of symbols, the topmost first, leaves for what can vanish. -/
def roomOnTop : List Symbol → Nat
  | [] => Nonterminal.goal.room
  | s :: _ => s.height

/-- The rank of a stack of symbols. -/
def rank (symbols : List Symbol) : Nat := roomOnTop symbols + (symbols.map Symbol.weight).sum

theorem rank_cons (x : Nonterminal) (symbols : List Symbol) :
    rank (.nonterminal x.index :: symbols) =
      x.weight + x.height + (symbols.map Symbol.weight).sum := by
  have hweight : Symbol.weight (.nonterminal x.index) = x.weight := (RuleSymbol.n x).weight_symbol
  have hroom : roomOnTop (.nonterminal x.index :: symbols) = x.height :=
    (RuleSymbol.n x).height_symbol
  unfold rank
  rw [List.map_cons, List.sum_cons, hweight, hroom]
  omega

namespace Language

variable {symbols : List Symbol} {kernel : List Item}

/-- Where a rule begins, there is room for what can vanish in front of it. -/
theorem room_le_of_itemOf {state : Nat} {below : List Nat}
    (h : grammar.Spells (state :: below) symbols)
    (hk : grammar.itemGraph.kernels[state]? = some kernel) {i : Item}
    (hi : grammar.ItemOf kernel i) {r : Rule} (hr : ruleArray[i.production]? = some r)
    (hdot : i.dot = 0) : r.lhs.room ≤ roomOnTop symbols := by
  induction hi generalizing r with
  | @kernel i hmem =>
      obtain ⟨p, dot⟩ := i
      obtain rfl : dot = 0 := hdot
      obtain ⟨rfl, rfl⟩ := h.eq_start wellFormed_grammar hk hmem
      obtain rfl : (⟨.goal, [.n .compilationUnit], .none⟩ : Rule) = r :=
        Option.some.inj (ruleArray_zero.symm.trans hr)
      exact Nat.le_refl _
  | @start j p production hj hnext hp ih =>
      obtain ⟨r', x, hr', hx, hsymbol⟩ := exists_rule_of_next? hnext
      rw [productions_getElem?, hr] at hp
      obtain rfl : r.production = production := Option.some.inj hp
      have hlhs : x = .n r.lhs := by
        cases x with
        | t kind => cases hsymbol
        | n y => rw [Nonterminal.index_injective (Symbol.nonterminal.inj hsymbol)]
      subst hlhs
      have hleave := (rules_lower r' (mem_rules hr')).2
      obtain ⟨q, dot⟩ := j
      cases dot with
      | zero => exact (RuleSymbol.room_le_first hleave hx).trans (ih hr' rfl)
      | succ dot =>
          -- the symbol before the dot is the topmost one
          obtain ⟨_, _, before, _, _, hsymbols, _⟩ := h.item wellFormed_grammar hk hj
          have hlt : dot < r'.rhs.length :=
            Nat.lt_of_succ_lt (List.getElem?_eq_some_iff.mp hx).1
          have hq : grammar.productions[q]? = some r'.production := by
            rw [productions_getElem?, hr']
            rfl
          have htop : symbols = r'.rhs[dot].symbol ::
              (((r'.rhs.map RuleSymbol.symbol).take dot).reverse ++ before) := by
            rw [hsymbols, Grammar.rhsOf_eq hq]
            change ((r'.rhs.map RuleSymbol.symbol).take (dot + 1)).reverse ++ before = _
            rw [List.take_add_one, List.getElem?_map, List.getElem?_eq_getElem hlt]
            simp
          rw [htop]
          change _ ≤ r'.rhs[dot].symbol.height
          rw [RuleSymbol.height_symbol]
          exact RuleSymbol.room_le_next hleave (List.getElem?_eq_getElem hlt) hx

/-- A right side that is not empty outranks its left side. -/
theorem rank_lt_of_getLast? {r : Rule} (hr : r ∈ rules) {last : RuleSymbol}
    (hlast : r.rhs.getLast? = some last) (before : List Symbol) :
    rank (.nonterminal r.lhs.index :: before) <
      rank ((r.rhs.map RuleSymbol.symbol).reverse ++ before) := by
  have hlowers := (rules_lower r hr).1
  unfold Rule.lowers at hlowers
  rw [hlast] at hlowers
  have hlowers := of_decide_eq_true hlowers
  have hsum : (r.rhs.map RuleSymbol.weight).sum =
      ((r.rhs.map RuleSymbol.symbol).reverse.map Symbol.weight).sum := by
    rw [List.map_reverse, List.sum_reverse, List.map_map]
    exact congrArg List.sum (List.map_congr_left fun s _ => s.weight_symbol.symm)
  have htop : roomOnTop ((r.rhs.map RuleSymbol.symbol).reverse ++ before) = last.height := by
    obtain ⟨front, hfront⟩ := List.getLast?_eq_some_iff.mp hlast
    rw [hfront, List.map_append, List.reverse_append, List.map_singleton, List.reverse_singleton]
    exact last.height_symbol
  rw [rank_cons]
  unfold rank
  rw [htop, List.map_append, List.sum_append, ← hsum]
  omega

/-- A reduction of nothing takes less than the room there was for it. -/
theorem rank_lt_of_room {r : Rule} (hr : r ∈ rules) (hempty : r.rhs = []) {before : List Symbol}
    (hroom : r.lhs.room ≤ roomOnTop before) :
    rank (.nonterminal r.lhs.index :: before) < rank before := by
  have hlowers := (rules_lower r hr).1
  unfold Rule.lowers at hlowers
  rw [hempty] at hlowers
  have hlowers : r.lhs.weight + r.lhs.height < r.lhs.room := of_decide_eq_true hlowers
  rw [rank_cons]
  unfold rank
  omega

/-- **A reduction in the tables lowers the rank.** -/
theorem rank_lt_of_reduce {state p : Nat} {below : List Nat} {kind : TokenKind}
    (h : grammar.Spells (state :: below) symbols)
    (haction : tables.action state kind = .reduce p) :
    ∃ states symbols', automaton.reduce? (state :: below) p = some states ∧
      grammar.Spells states symbols' ∧ rank symbols' < rank symbols := by
  obtain ⟨produced, origin, rest, before, target, first, hp, hdrop, rfl, hgoto, hbefore, hk, hi,
    hafter⟩ := h.reduce wellFormed_grammar startIsolated_grammar haction
  refine ⟨_, _, Grammar.reduce?_of_goto hp hdrop hgoto, hafter, ?_⟩
  rw [productions_getElem?, Option.map_eq_some_iff] at hp
  obtain ⟨r, hr, rfl⟩ := hp
  change rank (.nonterminal r.lhs.index :: before) <
    rank ((r.rhs.map RuleSymbol.symbol).reverse ++ before)
  cases hlast : r.rhs.getLast? with
  | some last => exact rank_lt_of_getLast? (mem_rules hr) hlast before
  | none =>
      have hempty := List.getLast?_eq_none_iff.mp hlast
      rw [hempty]
      exact rank_lt_of_room (mem_rules hr) hempty (room_le_of_itemOf hbefore hk hi hr rfl)

end Language

end AspectLang
