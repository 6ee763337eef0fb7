import AspectLang.Proofs.Automaton.LookaheadBounds
import AspectLang.Proofs.Automaton.SharedStates
import AspectLang.Proofs.Parse.Steps

/-! # Reductions before shift operators and closing brackets

Where the automaton reduces before a shift operator, it does not do anything else before a closing
bracket (`action_gt_of_reduce`), so an operator that turns out not to fit can still be read as
brackets.  The nonterminals that operators and brackets can follow are few, and the productions
that end in one of them share no state unless they are the same (`endings_settle`).  The exception
are names, which are read as expressions and as types in one state; but where a name can be a type,
only increments and decrements follow it as an expression (`postfix_followBound`). -/

namespace AspectLang

namespace Language

open Grammar GrammarIndex

/-! ### Sets of nonterminals -/

/-- A set of nonterminals, one bit for each. -/
def idSet (nonterminals : List Nonterminal) : Nat :=
  nonterminals.foldl (fun ids x => ids ||| 1 <<< x.index) 0

/-- The nonterminals that can vanish. -/
def vanishing : Nat := idSet [.goal, .compilationUnit, .packageDeclarationOpt,
  .importDeclarationsOpt, .typeDeclarationsOpt, .dimsOpt, .modifiersOpt, .classHeaderExtendsOpt,
  .classHeaderImplementsOpt, .interfaceHeaderExtendsOpt, .classBodyDeclarationsOpt,
  .methodHeaderThrowsClauseOpt, .formalParameterListOpt, .blockStatementsOpt, .catchesOpt,
  .forInitOpt, .forUpdateOpt, .expressionOpt, .argumentListOpt, .aspectHeaderRestOpt,
  .extraParamOpt, .interTypeFieldBody]

/-- The nonterminals that can begin with a closing bracket or a shift operator. -/
def bracketFirst : Nat :=
  idSet [.pseudoTokens, .pseudoTokensNoColon, .pseudoToken, .pseudoTokenNoColon]

/-- The nonterminals that a shift operator can follow. -/
def beforeShift : Nat := idSet [.pseudoTokens, .pseudoTokensNoColon, .pseudoToken,
  .pseudoTokenNoColon, .plainIdentifier, .modifierKeyword, .primitiveType, .literal,
  .declareHeader, .declareAnnotationHeader, .aspectHeaderRestStart, .name, .primary,
  .classInstanceCreationExpression, .fieldAccess, .methodInvocation, .postfixExpression,
  .postIncrementExpression, .postDecrementExpression, .unaryExpression, .preIncrementExpression,
  .preDecrementExpression, .unaryExpressionNotPlusMinus, .multiplicativeExpression,
  .additiveExpression, .shiftExpression]

/-- The nonterminals that a closing bracket can follow. -/
def beforeBracket : Nat := beforeShift ||| idSet [.relationalExpression, .referenceType,
  .classOrInterfaceType, .classOrInterface, .genericType, .arrayType, .dims, .typeArguments,
  .typeArgumentList, .typeArgument, .typeParameterList, .typeParameter, .additionalBoundList,
  .additionalBound]

/-- What can vanish, and what can begin with a closing bracket or a shift operator. -/
def bracketBound (kind : TokenKind) : FirstBound :=
  ⟨kind.column, vanishing.testBit, bracketFirst.testBit⟩

/-- The nonterminals that a closing bracket or a shift operator can follow. -/
def followersOf (kind : TokenKind) : Nat := if kind = .gt then beforeBracket else beforeShift

/-- The productions of the language. -/
def productions : List Production := rules.map Rule.production

theorem productions_toList : grammar.productions.toList = productions := rfl

theorem mem_productions {p : Production} (h : p ∈ grammar.productions) : p ∈ productions :=
  Array.mem_toList_iff.mpr h

theorem productions_bounded : ∀ kind ∈ [TokenKind.gt, .shiftRight, .shiftRightUnsigned],
    ∀ p ∈ productions, (bracketBound kind).allows p = true ∧
      followsWithin (bracketBound kind) (followersOf kind).testBit p.lhs p.rhs = true := by
  decide +kernel

theorem column_ne_eof : ∀ kind ∈ [TokenKind.gt, .shiftRight, .shiftRightUnsigned],
    kind.column ≠ TokenKind.eof.column := by
  decide

section

variable {kind : TokenKind} (hkind : kind ∈ [TokenKind.gt, .shiftRight, .shiftRightUnsigned])

include hkind

theorem bounds_firstSets : (bracketBound kind).Bounds grammar.firstSets :=
  FirstBound.bounds_firstSets fun p hp => (productions_bounded kind hkind p (mem_productions hp)).1

/-- An item before a closing bracket or a shift operator has a left side that it can follow. -/
theorem testBit_of_completed {state p : Nat} {kernel : List Item} {production : Production}
    (hk : grammar.itemGraph.kernels[state]? = some kernel)
    (hp : grammar.productions[p]? = some production) (h : Completed grammar state p kind) :
    (followersOf kind).testBit production.lhs = true := by
  obtain ⟨follow, hi, hhas⟩ := h
  have hbound := followBound_of_follows (bounds_firstSets hkind)
    (fun heof => absurd heof (column_ne_eof kind hkind))
    fun p hp => (productions_bounded kind hkind p (mem_productions hp)).2
  have hfollows := hbound.of_mem_stateItems wellFormed_grammar hk hi hhas
  rwa [lhsOf_eq hp] at hfollows

end

/-! ### Items that are looked back from -/

/-- The nonterminals whose productions are looked back from. -/
def watched : List Nonterminal := [.name, .plainIdentifier, .primary, .postfixExpression,
  .unaryExpressionNotPlusMinus, .unaryExpression, .multiplicativeExpression, .additiveExpression,
  .shiftExpression, .classOrInterface, .typeArguments, .typeArgument, .typeParameters,
  .typeParameter, .additionalBound, .aspectHeaderRestStart, .extraParamOpt, .pseudoTokens,
  .pseudoTokensNoColon, .pseudoToken, .pseudoTokenNoColon]

/-- The productions that begin with a nonterminal. -/
def leadList : List (Nat × Nat) := leads productions

/-- The moved items that expect a nonterminal. -/
def expectingList : List (Nat × Dotted) := expecting productions

/-- The nonterminals that can begin with a given one. -/
def cornersOf (x : Nonterminal) : Nat := corners leadList x.index 2

/-- Where the productions of the watched nonterminals begin. -/
def onsets : List Onset :=
  watched.map fun x => onset expectingList Nonterminal.goal.index x.index (cornersOf x)

/-- A production with its dot at the end, and its number. -/
structure Ending where
  number : Nat
  lhs : Nat
  last : Symbol
  before : List Symbol

/-- The production with its dot. -/
def Ending.item (e : Ending) : Dotted := ⟨e.lhs, e.last :: e.before, []⟩

/-- The productions for a set of nonterminals, with their dots at the end. -/
def endings (ids : Nat) : List Ending :=
  productions.zipIdx.filterMap fun (p, number) =>
    match p.rhs.reverse with
    | [] => none
    | last :: before => if ids.testBit p.lhs then some ⟨number, p.lhs, last, before⟩ else none

/-- Whether a production makes a nonterminal of a name. -/
def Ending.isName (e : Ending) (x : Nonterminal) : Bool :=
  e.lhs == x.index && decide (e.last = .nonterminal Nonterminal.name.index) && e.before.isEmpty

/-- The spots before a closing bracket. -/
def bracketSpots : List Spot :=
  (productions.flatMap Production.dots).filterMap fun d =>
    match d.after with
    | .terminal .gt :: _ => some d.spot
    | _ => none

/-- The endings whose last symbol falls into one of sixteen classes. -/
def endingsIn (ids place : Nat) : List Ending :=
  (endings ids).filter fun e => Nat.beq (Nat.land e.last.key 15) place

theorem mem_endingsIn {ids : Nat} {e : Ending} (he : e ∈ endings ids) :
    e ∈ endingsIn ids (Nat.land e.last.key 15) :=
  List.mem_filter.mpr ⟨he, Nat.beq_refl _⟩

/-- Whether what ends before a shift operator shares no state with what ends before a closing
bracket, names as expressions and as types apart.  Only endings of one class are compared. -/
def endingsSettle : Bool :=
  (List.range 16).all fun place => (endingsIn beforeShift place).all fun d =>
    (endingsIn beforeBracket place).all fun e =>
      differ d.last.key e.last.key || d.number == e.number ||
        (d.isName .postfixExpression && e.isName .classOrInterface) ||
          apart onsets 6 (.moved d.item) (.moved e.item)

/-- Whether what ends before a shift operator shares no state with a closing bracket. -/
def bracketsSettle : Bool :=
  (endings beforeShift).all fun d => bracketSpots.all fun s => apart onsets 6 (.moved d.item) s

/-- Whether a postfix expression stands only before what is no shift operator, or alone where no
name of a type can begin. -/
def postfixSettles (d : Dotted) : Bool :=
  match d.after with
  | .nonterminal id :: rest =>
    id != Nonterminal.postfixExpression.index ||
      (!(bracketBound .shiftRight).starts rest && !(bracketBound .shiftRightUnsigned).starts rest &&
        (!(bracketBound .shiftRight).empties rest ||
          (d.before.isEmpty && d.lhs == Nonterminal.unaryExpressionNotPlusMinus.index)))
  | _ => true

theorem rules_corners :
    (watched.all fun x => areCorners leadList (cornersOf x) && hasBit (cornersOf x) x.index) = true := by
  decide +kernel

theorem dots_settle :
    ((productions.flatMap Production.dots).all postfixSettles &&
      productions.all fun p => !p.rhs.isEmpty || !beforeBracket.testBit p.lhs) = true := by
  decide +kernel

/-- The checks over the endings of the rules, in one so that the onsets are found once. -/
theorem rules_settle : (endingsSettle && (bracketsSettle &&
    apart onsets 6 (.due Nonterminal.unaryExpressionNotPlusMinus.index)
      (.due Nonterminal.classOrInterface.index))) = true := by
  decide +kernel

theorem corners_settle : ∀ x ∈ watched,
    areCorners leadList (cornersOf x) = true ∧ (cornersOf x).testBit x.index = true := by
  intro x hx
  have hall := List.all_eq_true.mp rules_corners x hx
  rw [hasBit_eq] at hall
  exact Bool.and_eq_true_iff.mp hall

/-- Endings before a shift operator and before a closing bracket end in different symbols, are the
same, are a name read in two ways, or are found apart. -/
theorem endings_settle {d e : Ending} (hd : d ∈ endings beforeShift) (he : e ∈ endings beforeBracket) :
    d.last.key ≠ e.last.key ∨ d.number = e.number ∨
      (d.isName .postfixExpression = true ∧ e.isName .classOrInterface = true) ∨
        apart onsets 6 (.moved d.item) (.moved e.item) = true := by
  by_cases hkey : d.last.key = e.last.key
  · have hplace : Nat.land d.last.key 15 ∈ List.range 16 :=
      List.mem_range.mpr (Nat.lt_succ_of_le Nat.and_le_right)
    have hall := List.all_eq_true.mp (Bool.and_eq_true_iff.mp rules_settle).1 _ hplace
    have hd' := List.all_eq_true.mp hall d (mem_endingsIn hd)
    have he' := List.all_eq_true.mp hd' e (hkey ▸ mem_endingsIn he)
    simpa [hkey, or_assoc] using he'
  · exact .inl hkey

theorem brackets_settle {d : Ending} (hd : d ∈ endings beforeShift) {s : Spot}
    (hs : s ∈ bracketSpots) : apart onsets 6 (.moved d.item) s = true :=
  List.all_eq_true.mp (List.all_eq_true.mp
    (Bool.and_eq_true_iff.mp (Bool.and_eq_true_iff.mp rules_settle).2).1 d hd) s hs

theorem unary_apart : apart onsets 6 (.due Nonterminal.unaryExpressionNotPlusMinus.index)
    (.due Nonterminal.classOrInterface.index) = true :=
  (Bool.and_eq_true_iff.mp (Bool.and_eq_true_iff.mp rules_settle).2).2

/-! ### Reductions in one state -/

theorem covers_onsets : ∀ o ∈ onsets, o.Covers grammar := by
  intro o ho
  obtain ⟨x, hx, rfl⟩ := List.mem_map.mp ho
  have hgoal : grammar.productions[0]? =
      some ⟨Nonterminal.goal.index, [.nonterminal Nonterminal.compilationUnit.index]⟩ := by
    rw [productions_getElem?, ruleArray_zero]
    rfl
  obtain ⟨hcorners, hid⟩ := corners_settle x hx
  have hcovers := onset_covers (g := grammar) hcorners hid
  rwa [lhsOf_eq hgoal] at hcovers

/-- Spots that are found apart are in no state together. -/
theorem not_shared {state steps : Nat} {kernel : List Item} {s t : Spot}
    (hk : grammar.itemGraph.kernels[state]? = some kernel) (h : apart onsets steps s t = true)
    (hs : grammar.HasSpot kernel s) (ht : grammar.HasSpot kernel t) : False :=
  not_shared_of_apart covers_onsets h (wellFormed_grammar.reached hk) hs ht

/-! ### Names as expressions and as types -/

/-- The production that makes a nonterminal of a name. -/
def ofName (x : Nonterminal) : Production :=
  ⟨x.index, [.nonterminal Nonterminal.name.index]⟩

theorem settles_of_mem {own : Production} (hown : own ∈ grammar.productions) {dot : Nat}
    (hle : dot ≤ own.rhs.length) : postfixSettles (own.dotted dot) = true := by
  exact List.all_eq_true.mp (Bool.and_eq_true_iff.mp dots_settle).1 _
    (List.mem_flatMap.mpr ⟨own, mem_productions hown, own.dotted_mem_dots hle⟩)

theorem empties_bracketBound (kind other : TokenKind) (symbols : List Symbol) :
    (bracketBound kind).empties symbols = (bracketBound other).empties symbols := by
  induction symbols with
  | nil => rfl
  | cons s symbols ih =>
      cases s with
      | terminal k => rfl
      | nonterminal id => exact congrArg (vanishing.testBit id && ·) ih

/-- A postfix expression is expected before what is no shift operator, or where unary expressions
begin. -/
theorem postfix_expected {kind : TokenKind}
    (hkind : kind = .shiftRight ∨ kind = .shiftRightUnsigned) {own : Production}
    (hown : own ∈ grammar.productions) {dot : Nat} {rest : List Symbol}
    (hdrop : own.rhs.drop dot = .nonterminal Nonterminal.postfixExpression.index :: rest) :
    (bracketBound kind).starts rest = false ∧ ((bracketBound kind).empties rest = true →
      dot = 0 ∧ own.lhs = Nonterminal.unaryExpressionNotPlusMinus.index) := by
  have hlt : dot < own.rhs.length := by
    by_contra hge
    rw [List.drop_eq_nil_of_le (Nat.le_of_not_lt hge)] at hdrop
    cases hdrop
  have hsettles := settles_of_mem hown hlt.le
  unfold postfixSettles Production.dotted at hsettles
  rw [hdrop] at hsettles
  simp only [bne_self_eq_false, Bool.false_or, Bool.and_eq_true, Bool.or_eq_true,
    Bool.not_eq_true', List.isEmpty_reverse, List.isEmpty_iff, List.take_eq_nil_iff,
    beq_iff_eq] at hsettles
  obtain ⟨⟨hshift, hunsigned⟩, hends⟩ := hsettles
  refine ⟨by rcases hkind with rfl | rfl <;> assumption, fun hvanish => ?_⟩
  rw [empties_bracketBound kind .shiftRight] at hvanish
  rcases hends with hends | ⟨hdot, hlhs⟩
  · rw [hvanish] at hends
    cases hends
  · refine ⟨hdot.resolve_right fun hnil => ?_, hlhs⟩
    rw [hnil] at hlt
    exact Nat.not_lt_zero _ hlt

/-- In a state where a name can be read as a type, no shift operator follows it as an
expression. -/
theorem postfix_followBound {kind : TokenKind}
    (hkind : kind = .shiftRight ∨ kind = .shiftRightUnsigned) :
    FollowBound grammar kind.column fun state i => ∀ kernel,
      grammar.itemGraph.kernels[state]? = some kernel →
      grammar.productions[i.production]? = some (ofName .postfixExpression) →
      ∀ j, grammar.ItemOf kernel j →
        grammar.productions[j.production]? = some (ofName .classOrInterface) → j.dot ≠ i.dot := by
  have hmem : kind ∈ [TokenKind.gt, .shiftRight, .shiftRightUnsigned] := by
    rcases hkind with rfl | rfl <;> decide
  constructor
  · exact fun h => absurd h (column_ne_eof kind hmem)
  · intro state kernel i p production rest hk hi hdrop hp hrest kernel' hk' hname j hj htype hdot
    obtain rfl : kernel = kernel' := Option.some.inj (hk.symm.trans hk')
    obtain rfl : production = ofName .postfixExpression := Option.some.inj (hp.symm.trans hname)
    obtain ⟨own, hown, hdrop⟩ := exists_production_of_drop hdrop
    obtain ⟨hempties, hstarts⟩ := (bounds_firstSets hmem).ofSymbols rest
    obtain ⟨hnot, hends⟩ := postfix_expected hkind (Array.mem_of_getElem? hown) hdrop
    have hvanish : (grammar.firstSets.ofSymbols rest).2 = true := by
      rcases hrest with hhas | ⟨hvanish, _⟩
      · have := hstarts hhas
        rw [hnot] at this
        cases this
      · exact hvanish
    obtain ⟨hzero, hlhs⟩ := hends (hempties hvanish)
    have hreached := wellFormed_grammar.reached hk
    have hunary := hreached.hasSpot hi hown (by rw [hzero]; exact Nat.zero_le _)
    have hclass := hreached.hasSpot hj htype (by rw [hdot]; exact Nat.zero_le _)
    rw [hzero] at hunary
    rw [show j.dot = 0 from hdot] at hclass
    refine not_shared hk unary_apart ?_ hclass
    rw [← hlhs]
    exact hunary
  · intro state target kernel i s hk hi hbound hnext hedge kernel' hk' hname j hj htype hdot
    obtain ⟨production, hp, hs⟩ : ∃ production,
        grammar.productions[i.production]? = some production ∧ s ∈ production.rhs := by
      refine ⟨_, hname, ?_⟩
      unfold next? at hnext
      rw [rhsOf_eq (show grammar.productions[i.production]? = _ from hname)] at hnext
      exact List.mem_of_getElem? hnext
    have hsymbol := wellFormed_grammar.hasSymbol production (Array.mem_of_getElem? hp) s hs
    obtain ⟨advanced, hadvanced, hitems, _⟩ :=
      wellFormed_grammar.kernel_of_edge hk hsymbol hedge
    obtain rfl : advanced = kernel' := Option.some.inj (hadvanced.symm.trans hk')
    have hkernel : j ∈ advanced := by
      cases hj with
      | kernel hmem => exact hmem
      | start => cases hdot
    obtain ⟨j', hj', _, rfl⟩ := (hitems j).mp hkernel
    exact hbound kernel hk hname j' hj' htype (Nat.succ.inj hdot)

/-! ### What follows shift operators and closing brackets -/

/-- A production of the grammar ends so. -/
def Ending.Of (e : Ending) (g : Grammar) : Prop :=
  g.productions[e.number]? = some ⟨e.lhs, (e.last :: e.before).reverse⟩

/-- A production for a nonterminal before brackets or operators has an ending. -/
theorem exists_ending {ids p : Nat} {production : Production}
    (hp : grammar.productions[p]? = some production)
    (hids : ids.testBit production.lhs = true)
    (hbefore : beforeBracket.testBit production.lhs = true) :
    ∃ e ∈ endings ids, e.number = p ∧ e.Of grammar := by
  have hnonempty := List.all_eq_true.mp (Bool.and_eq_true_iff.mp dots_settle).2 production
    (mem_productions (Array.mem_of_getElem? hp))
  cases hrhs : production.rhs.reverse with
  | nil =>
      rw [List.reverse_eq_nil_iff] at hrhs
      simp [hrhs, hbefore] at hnonempty
  | cons last before =>
      refine ⟨⟨p, production.lhs, last, before⟩, List.mem_filterMap.mpr
        ⟨(production, p), ?_, ?_⟩, rfl, ?_⟩
      · rw [List.mk_mem_zipIdx_iff_getElem?, ← productions_toList, Array.getElem?_toList]
        exact hp
      · dsimp only
        rw [hrhs]
        dsimp only
        rw [if_pos hids]
      · unfold Ending.Of
        rw [hp, ← hrhs, List.reverse_reverse]

theorem Ending.Of.eq_ofName {g : Grammar} {e : Ending} {x : Nonterminal} (h : e.Of g)
    (hname : e.isName x = true) : g.productions[e.number]? = some (ofName x) := by
  unfold Ending.isName at hname
  simp only [Bool.and_eq_true, beq_iff_eq, decide_eq_true_eq, List.isEmpty_iff] at hname
  obtain ⟨⟨hlhs, hlast⟩, hbefore⟩ := hname
  unfold Ending.Of at h
  rw [h, hlhs, hlast, hbefore]
  rfl

section

variable {g : Grammar} (hg : g.WellFormed) {state p : Nat} {kernel : List Item}
  (hk : g.itemGraph.kernels[state]? = some kernel) {kind : TokenKind}

include hg hk

theorem itemOf_of_completed (h : Completed g state p kind) :
    g.ItemOf kernel ⟨p, (g.rhsOf p).length⟩ := by
  obtain ⟨follow, hi, _⟩ := h
  exact (mem_stateItems_spec hg (lookaheads_stable hg).1 hk hi).1

theorem exists_production_of_completed (h : Completed g state p kind) :
    ∃ production, g.productions[p]? = some production :=
  ⟨_, Array.getElem?_eq_getElem (hasItem_of_itemOf hg hk (itemOf_of_completed hg hk h)).1⟩

/-- A completed item is found in its state with its last symbol before the dot. -/
theorem moved_of_completed {e : Ending} (he : e.Of g) (h : Completed g state e.number kind) :
    g.HasSpot kernel (.moved e.item) := by
  have hlength := congrArg List.length (rhsOf_eq he)
  have hspot := (hg.reached hk).hasSpot (itemOf_of_completed hg hk h) he hlength.le
  unfold Production.dotted at hspot
  dsimp only at hspot
  rw [hlength, List.take_length, List.drop_length, List.reverse_reverse] at hspot
  exact hspot

end

/-- A state that shifts a closing bracket has it after a dot. -/
theorem bracketSpot_of_shift {state target : Nat} {kernel : List Item}
    (hk : grammar.itemGraph.kernels[state]? = some kernel)
    (h : tables.action state .gt = .shift target) :
    ∃ s ∈ bracketSpots, grammar.HasSpot kernel s := by
  obtain ⟨hgt, hedge⟩ := edge_of_shift wellFormed_grammar hk startIsolated_grammar h
  obtain ⟨_, _, _, i, hi, hnext⟩ :=
    wellFormed_grammar.kernel_of_edge hk (s := .terminal .gt) hgt hedge
  obtain ⟨production, hp, hs⟩ := exists_production_of_next? hnext
  obtain ⟨hlt, hget⟩ := List.getElem?_eq_some_iff.mp hs
  have hspot := (wellFormed_grammar.reached hk).hasSpot hi hp hlt.le
  refine ⟨_, List.mem_filterMap.mpr ⟨production.dotted i.dot, List.mem_flatMap.mpr
    ⟨production, mem_productions (Array.mem_of_getElem? hp), production.dotted_mem_dots hlt.le⟩,
    ?_⟩, hspot⟩
  have hafter : (production.dotted i.dot).after =
      .terminal .gt :: production.rhs.drop (i.dot + 1) := by
    unfold Production.dotted
    rw [List.drop_eq_getElem_cons hlt, hget]
  rw [hafter]

theorem apart_of_key_ne {d e : Ending} (h : d.last.key ≠ e.last.key) :
    apart onsets 1 (.moved d.item) (.moved e.item) = true := by
  unfold apart Ending.item Dotted.back?
  dsimp only
  rw [differ_eq, bne_iff_ne.mpr h, Bool.true_or]

section

variable {state p : Nat} {kernel : List Item} {kind : TokenKind}
  (hk : grammar.itemGraph.kernels[state]? = some kernel)
  (hkind : kind = .shiftRight ∨ kind = .shiftRightUnsigned)

include hk hkind

/-- An item before a shift operator has a left side that a shift operator can follow. -/
theorem beforeShift_of_completed {production : Production}
    (hp : grammar.productions[p]? = some production) (h : Completed grammar state p kind) :
    beforeShift.testBit production.lhs = true := by
  have hmem : kind ∈ [TokenKind.gt, .shiftRight, .shiftRightUnsigned] := by
    rcases hkind with rfl | rfl <;> decide
  have hfollowers : followersOf kind = beforeShift := by
    rcases hkind with rfl | rfl <;> rfl
  rw [← hfollowers]
  exact testBit_of_completed hmem hk hp h

/-- What is completed before a shift operator ends as one of the productions for what shift
operators follow. -/
theorem ending_of_completed (h : Completed grammar state p kind) :
    ∃ d ∈ endings beforeShift, d.number = p ∧ d.Of grammar := by
  obtain ⟨production, hp⟩ := exists_production_of_completed wellFormed_grammar hk h
  have hshift := beforeShift_of_completed hk hkind hp h
  refine exists_ending hp hshift ?_
  unfold beforeBracket
  rw [Nat.testBit_or, hshift, Bool.true_or]

/-- What is completed before a shift operator and before a closing bracket is the same. -/
theorem completed_unique {q : Nat} (hp : Completed grammar state p kind)
    (hq : Completed grammar state q .gt) : p = q := by
  obtain ⟨d, hd, rfl, hdOf⟩ := ending_of_completed hk hkind hp
  obtain ⟨production, hproduction⟩ := exists_production_of_completed wellFormed_grammar hk hq
  have hbracket : beforeBracket.testBit production.lhs = true :=
    testBit_of_completed (List.mem_cons_self ..) hk hproduction hq
  obtain ⟨e, he, rfl, heOf⟩ := exists_ending hproduction hbracket hbracket
  have hmoved := moved_of_completed wellFormed_grammar hk hdOf hp
  have hmoved' := moved_of_completed wellFormed_grammar hk heOf hq
  rcases endings_settle hd he with hkey | hnumber | ⟨hexpression, htype⟩ | hapart
  · exact (not_shared hk (apart_of_key_ne hkey) hmoved hmoved').elim
  · exact hnumber
  · -- a name before a shift operator is no type
    obtain ⟨follow, hi, hhas⟩ := hp
    have hitem := itemOf_of_completed wellFormed_grammar hk hq
    have hname := hdOf.eq_ofName hexpression
    have htype := heOf.eq_ofName htype
    have hdots := (postfix_followBound hkind).of_mem_stateItems wellFormed_grammar hk hi hhas
      kernel hk hname _ hitem htype
    refine absurd ?_ hdots
    dsimp only
    rw [rhsOf_eq hname, rhsOf_eq htype]
    rfl
  · exact (not_shared hk hapart hmoved hmoved').elim

/-- **Where a state reduces before a shift operator, it does the same before a closing bracket,
or has no action there.** -/
theorem action_gt_of_reduce (h : tables.action state kind = .reduce p) :
    tables.action state .gt = .reduce p ∨ tables.action state .gt = .error := by
  have hcompleted := (completed_of_reduce wellFormed_grammar hk startIsolated_grammar h).2
  cases haction : tables.action state .gt with
  | error => exact .inr rfl
  | accept =>
      have heof := (completed_of_accept wellFormed_grammar hk startIsolated_grammar haction).1
      cases heof
  | reduce q =>
      have hq := (completed_of_reduce wellFormed_grammar hk startIsolated_grammar haction).2
      rw [completed_unique hk hkind hcompleted hq]
      exact .inl rfl
  | shift target =>
      obtain ⟨d, hd, rfl, hdOf⟩ := ending_of_completed hk hkind hcompleted
      obtain ⟨s, hs, hspot⟩ := bracketSpot_of_shift hk haction
      have hmoved := moved_of_completed wellFormed_grammar hk hdOf hcompleted
      exact (not_shared hk (brackets_settle hd hs) hmoved hspot).elim

end

end Language

end AspectLang
