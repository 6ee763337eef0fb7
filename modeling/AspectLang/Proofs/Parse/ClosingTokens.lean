import AspectLang.Proofs.Automaton.LoneItems
import AspectLang.Proofs.Parse.AngleBrackets
import AspectLang.Proofs.Parse.Contributions
import AspectLang.Proofs.Parse.Outcomes

/-! # Reductions that closing tokens lead to

A type or a member ends with a semicolon or a brace, its body with it.  The productions that such a
token completes are alone in their states (`isLone_of_closing`), and since types stand in types as
their last members, a closing brace is seen after all of them (`sees_rBrace`).  So a state that
reduces by one of them does so before a closing brace, whatever the terminal was that it looked at
(`action_rBrace_of_reduce`).  The end of input is all that is seen after a whole unit
(`eq_eof_of_unit`), and there the unit is accepted (`action_eof_of_unit`). -/

namespace AspectLang

namespace Nonterminal

/-- How many reductions a closing token leads to at most, up to that of a nonterminal which ends
with it; nothing for those that end otherwise. -/
def closings : Nonterminal → Nat
  | .block => 1
  | .classBody | .methodBody => 2
  | .classDeclaration | .interfaceDeclaration | .aspectDeclaration | .fieldDeclaration
  | .methodDeclaration | .constructorDeclaration | .initializer | .pointcutDeclaration
  | .adviceDeclaration | .declareDeclaration | .declareAnnotationDeclaration
  | .interTypeFieldDeclaration | .interTypeMethodDeclaration | .interTypeConstructorDeclaration
  | .interTypeClassDeclaration => 3
  | _ => 0

/-- Whether a nonterminal stands for types or members. -/
def isMember (x : Nonterminal) : Bool := x.closings == 3

end Nonterminal

/-- Whether the last symbol of a rule is a terminal, or ends with a closing token sooner than the
left side. -/
def Rule.endsSooner (r : Rule) : Bool :=
  match r.rhs.getLast? with
  | none => false
  | some (.t _) => true
  | some (.n x) => 0 < x.closings && x.closings < r.lhs.closings

namespace Language

open Grammar GrammarIndex

theorem rules_endSooner : ∀ r ∈ rules, r.lhs.closings = 0 ∨ r.endsSooner = true := by
  decide +kernel

/-! ### The closing productions -/

/-- The productions that closing tokens complete, and that of the whole unit, with their numbers. -/
def closingProductions : List (Production × Nat) :=
  (rules.zipIdx.filter fun x => x.1.lhs.closings != 0 || x.2 == 0).map
    fun x => (x.1.production, x.2)

/-- The nonterminals whose productions are met on the way back from a closing token. -/
def metBehind : List Nonterminal := [.typeDeclaration, .classBodyDeclaration, .methodBody, .statement]

/-- Where the productions of these nonterminals begin. -/
def closingOnsets : List Onset :=
  metBehind.map fun x => onset expectingList Nonterminal.goal.index x.index (cornersOf x)

/-- The nonterminals that can end a given one. -/
def trailsOf (x : Nonterminal) : Nat := corners (trails productions) x.index 1

/-- The checks over the rules of the language. -/
theorem closings_settle :
    ((metBehind.all fun x => areCorners leadList (cornersOf x) && (cornersOf x).testBit x.index) &&
      (closingProductions.all fun x =>
        endsAlone closingOnsets 4 productions x.2 x.1) &&
      ((trailsOf .compilationUnit).testBit Nonterminal.classBody.index &&
        Nonterminal.all.all fun x => x.closings == 0 ||
          (trailsOf .classBodyDeclarationsOpt).testBit x.index)) = true := by
  decide +kernel

section

variable {p : Nat} {r : Rule}

theorem covers_closingOnsets : ∀ o ∈ closingOnsets, o.Covers grammar := by
  have hmet := (Bool.and_eq_true_iff.mp (Bool.and_eq_true_iff.mp closings_settle).1).1
  intro o ho
  obtain ⟨x, hx, rfl⟩ := List.mem_map.mp ho
  obtain ⟨hcorners, hid⟩ := Bool.and_eq_true_iff.mp (List.all_eq_true.mp hmet x hx)
  have hcovers := onset_covers (g := grammar) hcorners hid
  have hgoal : grammar.productions[0]? =
      some ⟨Nonterminal.goal.index, [.nonterminal Nonterminal.compilationUnit.index]⟩ := by
    rw [productions_getElem?, ruleArray_zero]
    rfl
  rwa [lhsOf_eq hgoal] at hcovers

theorem productions_of_rule (hr : ruleArray[p]? = some r) :
    grammar.productions[p]? = some r.production := by
  rw [productions_getElem?, hr]
  rfl

theorem mem_zipIdx_rules (hr : ruleArray[p]? = some r) : (r, p) ∈ rules.zipIdx := by
  rw [List.mk_mem_zipIdx_iff_getElem?, ← List.getElem?_toArray]
  exact hr

/-- **What a closing token completes is alone in its state**, and so is a whole unit. -/
theorem isLone_of_closing (hr : ruleArray[p]? = some r) (h : r.lhs.closings ≠ 0 ∨ p = 0) :
    grammar.IsLone (grammar.ended p) := by
  have hall := (Bool.and_eq_true_iff.mp (Bool.and_eq_true_iff.mp closings_settle).1).2
  have hmem : (r.production, p) ∈ closingProductions :=
    List.mem_map.mpr ⟨(r, p), List.mem_filter.mpr ⟨mem_zipIdx_rules hr, by simpa using h⟩, rfl⟩
  exact isLone_of_endsAlone covers_closingOnsets (productions_of_rule hr)
    (List.all_eq_true.mp hall _ hmem)

/-! ### What is seen after them -/

/-- What is seen after a nonterminal is seen after those that it can end with. -/
theorem seesAfter_trailsOf {t : TokenKind} {x y : Nonterminal}
    (h : grammar.SeesAfter t x.index) (hy : (trailsOf x).testBit y.index = true) :
    grammar.SeesAfter t y.index := seesAfter_corners wellFormed_grammar h 1 _ hy

theorem rhsOf_zero : grammar.rhsOf 0 = [.nonterminal Nonterminal.compilationUnit.index] := by
  rw [rhsOf_eq (productions_of_rule ruleArray_zero)]
  rfl

theorem seesAfter_unit : grammar.SeesAfter .eof Nonterminal.compilationUnit.index := by
  intro p production hp hlhs
  have hdrop : (grammar.rhsOf 0).drop 0 = [.nonterminal production.lhs] := by
    rw [hlhs, rhsOf_zero]
    rfl
  exact (sees_start wellFormed_grammar).begin wellFormed_grammar hdrop hp (canBegin_terminal _ _)

theorem classBody_mem : (⟨Nonterminal.classBody.index, [.terminal .lBrace,
    .nonterminal Nonterminal.classBodyDeclarationsOpt.index, .terminal .rBrace]⟩ : Production) ∈
      grammar.productions.toList := by
  decide +kernel

/-- The members of a type stand before its closing brace. -/
theorem seesAfter_members : grammar.SeesAfter .rBrace Nonterminal.classBodyDeclarationsOpt.index := by
  have htrails := (Bool.and_eq_true_iff.mp (Bool.and_eq_true_iff.mp closings_settle).2).1
  obtain ⟨b, hb⟩ := Array.mem_iff_getElem?.mp (Array.mem_toList_iff.mp classBody_mem)
  have hbody := seesAfter_trailsOf seesAfter_unit htrails b _ hb rfl
  intro p production hp hlhs
  have hmembers : (grammar.rhsOf b).drop 1 =
      .nonterminal production.lhs :: [.terminal .rBrace] := by
    rw [rhsOf_eq hb, hlhs]
    rfl
  have hopen : 1 ≤ (grammar.rhsOf b).length := by
    rw [rhsOf_eq hb]
    exact Nat.le_add_left 1 2
  exact (hbody.moved wellFormed_grammar hopen).begin wellFormed_grammar hmembers hp
    (canBegin_terminal _ _)

/-- **A closing brace is seen after all that a closing token completes.** -/
theorem sees_rBrace (hr : ruleArray[p]? = some r) (h : r.lhs.closings ≠ 0) :
    grammar.Sees (grammar.ended p) .rBrace := by
  have htrails := (Bool.and_eq_true_iff.mp (Bool.and_eq_true_iff.mp closings_settle).2).2
  have hbit := List.all_eq_true.mp htrails r.lhs (List.mem_of_getElem? r.lhs.all_getElem?)
  have hafter := seesAfter_trailsOf (y := r.lhs) seesAfter_members (by simpa [h] using hbit)
  exact (hafter p r.production (productions_of_rule hr) rfl).moved wellFormed_grammar
    (Nat.le_refl _)

/-! ### Actions -/

variable {state : Nat} {kernel : List Item} {kind : TokenKind}
  (hk : grammar.itemGraph.kernels[state]? = some kernel)

include hk in
/-- **A state that reduces by what a closing token completes does so before a closing brace.** -/
theorem action_rBrace_of_reduce (hr : ruleArray[p]? = some r) (h : r.lhs.closings ≠ 0)
    (haction : tables.action state kind = .reduce p) :
    tables.action state .rBrace = .reduce p := by
  obtain ⟨hne, hcompleted⟩ := completed_of_reduce wellFormed_grammar hk startIsolated_grammar haction
  have hi := itemOf_of_completed wellFormed_grammar hk hcompleted
  have hbrace := (isLone_of_closing hr (.inl h)).action_of_sees wellFormed_grammar
    startIsolated_grammar hk hi (by decide) (sees_rBrace hr h)
  rwa [if_neg fun hstart => hne hstart.1] at hbrace

end

/-! ### Whole units -/

theorem unit_in_goal : ∀ x ∈ rules.zipIdx, RuleSymbol.n .compilationUnit ∈ x.1.rhs → x.2 = 0 := by
  decide +kernel

/-- Only at the start a whole unit is expected. -/
theorem eq_start_of_drop {i : Item} {rest : List Symbol}
    (h : (grammar.rhsOf i.production).drop i.dot =
      .nonterminal Nonterminal.compilationUnit.index :: rest) : i = ⟨0, 0⟩ ∧ rest = [] := by
  obtain ⟨own, hown, hdrop⟩ := exists_production_of_drop h
  rw [productions_getElem?, Option.map_eq_some_iff] at hown
  obtain ⟨r, hr, rfl⟩ := hown
  have hmem : Symbol.nonterminal Nonterminal.compilationUnit.index ∈ r.production.rhs :=
    List.mem_of_mem_drop (hdrop ▸ List.mem_cons_self)
  obtain ⟨s, hs, hsymbol⟩ := List.mem_map.mp hmem
  obtain rfl : s = .n .compilationUnit := by
    cases s with
    | t kind => cases hsymbol
    | n x => rw [Nonterminal.index_injective (Symbol.nonterminal.inj hsymbol)]
  have hzero : i.production = 0 := unit_in_goal _ (mem_zipIdx_rules hr) hs
  rw [hzero, rhsOf_zero] at h
  obtain ⟨production, dot⟩ := i
  obtain rfl : production = 0 := hzero
  cases dot with
  | zero => exact ⟨rfl, (List.cons.inj h).2.symm⟩
  | succ dot => simp at h

/-- Nothing but the end of input follows a whole unit or the goal. -/
theorem unit_followBound {kind : TokenKind} (hkind : kind ≠ .eof) :
    FollowBound grammar kind.column fun _ i =>
      grammar.lhsOf i.production ≠ Nonterminal.compilationUnit.index ∧
        grammar.lhsOf i.production ≠ Nonterminal.goal.index where
  start := fun h => absurd (TokenKind.column_injective h) hkind
  begin := by
    intro state kernel i p production rest _ _ hdrop hp hrest
    rw [lhsOf_eq hp]
    refine ⟨fun hunit => ?_, fun hgoal => ?_⟩
    · rw [hunit] at hdrop
      obtain ⟨rfl, rfl⟩ := eq_start_of_drop hdrop
      rcases hrest with hhas | ⟨_, _, hne⟩
      · simp [FirstSets.ofSymbols] at hhas
      · exact hne (lhsOf_eq (productions_of_rule ruleArray_zero))
    · rw [hgoal] at hdrop
      obtain ⟨own, hown, hdrop⟩ := exists_production_of_drop hdrop
      refine startIsolated_grammar _ (productions_of_rule ruleArray_zero) own
        (Array.mem_of_getElem? hown) (List.mem_of_mem_drop (i := i.dot) ?_)
      rw [hdrop]
      exact List.mem_cons_self
  advance := fun _ _ _ _ _ _ _ h _ _ => h

/-- **A whole unit is reduced before the end of input only.** -/
theorem eq_eof_of_unit {state : Nat} {kernel : List Item} {kind : TokenKind}
    (hk : grammar.itemGraph.kernels[state]? = some kernel) (hr : ruleArray[p]? = some r)
    (hunit : r.lhs = .compilationUnit) (haction : tables.action state kind = .reduce p) :
    kind = .eof := by
  by_contra hkind
  obtain ⟨_, follow, hi, hhas⟩ :=
    completed_of_reduce wellFormed_grammar hk startIsolated_grammar haction
  have hne := ((unit_followBound hkind).of_mem_stateItems wellFormed_grammar hk hi hhas).1
  rw [lhsOf_eq (productions_of_rule hr)] at hne
  exact hne (congrArg Nonterminal.index hunit)

/-- **Behind a whole unit the end of input is accepted.** -/
theorem action_eof_of_unit {target : Nat} {below : List Nat} {before : List Symbol}
    (h : grammar.Spells (target :: below)
      (.nonterminal Nonterminal.compilationUnit.index :: before)) :
    tables.action target .eof = .accept := by
  cases h with
  | step hspells hs hedge =>
      obtain ⟨kernel, hk⟩ := hspells.kernel_top wellFormed_grammar
      obtain ⟨kernel', hk', hmem, i, hi, hnext⟩ := wellFormed_grammar.kernel_of_edge hk hs hedge
      obtain ⟨rest, hdrop⟩ := exists_drop_of_next? hnext
      obtain ⟨rfl, _⟩ := eq_start_of_drop hdrop
      have hended : grammar.ItemOf kernel' (grammar.ended 0) := by
        refine .kernel ((hmem _).mpr ⟨_, hi, hnext, ?_⟩)
        unfold ended
        rw [rhsOf_zero]
        rfl
      have hsees : grammar.Sees (grammar.ended 0) .eof :=
        (sees_start wellFormed_grammar).moved wellFormed_grammar (Nat.le_refl _)
      have haccept := (isLone_of_closing ruleArray_zero (.inr rfl)).action_of_sees
        wellFormed_grammar startIsolated_grammar hk' hended (by decide) hsees
      rwa [if_pos ⟨rfl, rfl⟩] at haccept

end Language

end AspectLang

/-! ## Declarations that wait to be reduced

Behind the last token of a declaration a machine may stop before it has reduced anything.
`Machine.ReducesTo` are the reductions that it would do before one token or another.  If they lead
to a type or a member, each of them is by a production that a closing token completes, since the
last symbols of such productions are such productions again; so they are just what the machine does
before a closing brace (`Machine.settle_of_reducesTo`). -/

namespace AspectLang

namespace Machine

variable {dialect : Dialect} {offset : Nat} {m m' last : Machine} {r r' : Rule}

/-- One reduction by a rule, whichever kind of token the table looks at for it. -/
def ReducesBy (dialect : Dialect) (offset : Nat) (m : Machine) (r : Rule) (m' : Machine) : Prop :=
  ∃ state below kind production, m.states = state :: below ∧
    Language.tables.action state kind = .reduce production ∧
      Language.ruleArray[production]? = some r ∧
        reduce dialect production (.point offset) m = .ok () m'

/-- Reductions alone, the last of them by a given rule. -/
inductive ReducesTo (dialect : Dialect) (offset : Nat) (m : Machine) : Rule → Machine → Prop
  | one {r : Rule} {m' : Machine} : m.ReducesBy dialect offset r m' → ReducesTo dialect offset m r m'
  | more {r r' : Rule} {m' last : Machine} : ReducesTo dialect offset m r m' →
      m'.ReducesBy dialect offset r' last → ReducesTo dialect offset m r' last

/-! ### One reduction -/

theorem ReducesBy.balanced (h : m.ReducesBy dialect offset r m') (hm : m.Balanced False) :
    m'.Balanced False := by
  obtain ⟨state, below, kind, production, hstates, haction, _, hreduce⟩ := h
  rcases ensures_reduce dialect (.point offset) hm hstates haction with
    ⟨_, next, hok, hnext, _⟩ | ⟨_, text, next, herror⟩
  · rw [hreduce] at hok
    cases hok
    exact hnext
  · rw [hreduce] at herror
    cases herror

/-- A reduction replaces the right side of its rule by the left side. -/
theorem spells_of_reduce {lookahead : Span} {state production : Nat} {below : List Nat}
    {kind : TokenKind} (hm : m.Balanced False) (hstates : m.states = state :: below)
    (haction : Language.tables.action state kind = .reduce production)
    (hrule : Language.ruleArray[production]? = some r)
    (hreduce : reduce dialect production lookahead m = .ok () m') :
    ∃ before, Language.grammar.Spells m.states ((r.rhs.map RuleSymbol.symbol).reverse ++ before) ∧
      Language.grammar.Spells m'.states (.nonterminal r.lhs.index :: before) := by
  obtain ⟨symbols, hspells, _, _⟩ := hm
  obtain ⟨rule, origin, rest, before, target, hrule', hdrop, rfl, hgoto, _, hafter⟩ :=
    exists_rule hspells hstates haction
  obtain rfl : r = rule := Option.some.inj (hrule.symm.trans hrule')
  rw [reduce_eq hrule hdrop hgoto] at hreduce
  split at hreduce
  · cases hreduce
  · cases hreduce
    exact ⟨before, hspells, hafter⟩

theorem ReducesBy.spells (h : m.ReducesBy dialect offset r m') (hm : m.Balanced False) :
    ∃ before, Language.grammar.Spells m.states ((r.rhs.map RuleSymbol.symbol).reverse ++ before) ∧
      Language.grammar.Spells m'.states (.nonterminal r.lhs.index :: before) := by
  obtain ⟨state, below, kind, production, hstates, haction, hrule, hreduce⟩ := h
  exact spells_of_reduce hm hstates haction hrule hreduce

/-- What a closing token completes is reduced before a closing brace, too. -/
theorem ReducesBy.settle_succ (h : m.ReducesBy dialect offset r m') (hm : m.Balanced False)
    (hclosing : r.lhs.closings ≠ 0) (gas : Nat) :
    settle dialect offset (gas + 1) m = settle dialect offset gas m' := by
  obtain ⟨state, below, kind, production, hstates, haction, hrule, hreduce⟩ := h
  obtain ⟨symbols, hspells, _, _⟩ := hm
  rw [hstates] at hspells
  obtain ⟨kernel, hk⟩ := hspells.kernel_top Language.wellFormed_grammar
  have hbrace := Language.action_rBrace_of_reduce hk hrule hclosing haction
  have hpending : m.pending? = some production := by
    unfold pending?
    rw [hstates, List.head?_cons, Option.bind_some, hbrace]
  rw [settle, get_bind, hpending]
  dsimp only
  rw [bind_ok (attempt_of_ok hreduce), if_pos rfl]

/-! ### Reductions in a row -/

theorem ReducesTo.balanced (h : m.ReducesTo dialect offset r m') (hm : m.Balanced False) :
    m'.Balanced False := by
  induction h with
  | one hby => exact hby.balanced hm
  | more _ hby ih => exact hby.balanced ih

theorem ReducesTo.spells (h : m.ReducesTo dialect offset r m') (hm : m.Balanced False) :
    ∃ before, Language.grammar.Spells m'.states (.nonterminal r.lhs.index :: before) := by
  cases h with
  | one hby =>
      obtain ⟨before, _, hafter⟩ := hby.spells hm
      exact ⟨before, hafter⟩
  | more hto hby =>
      obtain ⟨before, _, hafter⟩ := hby.spells (hto.balanced hm)
      exact ⟨before, hafter⟩

/-- What leads to a reduction by something that a closing token completes is completed by it, and
sooner. -/
theorem ReducesTo.closings_lt (hto : m.ReducesTo dialect offset r m')
    (hby : m'.ReducesBy dialect offset r' last) (hm : m.Balanced False)
    (hclosing : r'.lhs.closings ≠ 0) :
    r.lhs.closings ≠ 0 ∧ r.lhs.closings < r'.lhs.closings := by
  obtain ⟨before, hspells⟩ := hto.spells hm
  obtain ⟨before', hspells', _⟩ := hby.spells (hto.balanced hm)
  obtain ⟨_, _, _, production, _, _, hrule, _⟩ := hby
  have hsooner := (Language.rules_endSooner r' (Language.mem_rules hrule)).resolve_left hclosing
  unfold Rule.endsSooner at hsooner
  have hsame := hspells.unique Language.wellFormed_grammar hspells'
  cases hlast : r'.rhs.getLast? with
  | none => simp [hlast] at hsooner
  | some s =>
      obtain ⟨front, hfront⟩ := List.getLast?_eq_some_iff.mp hlast
      rw [hfront, List.map_append, List.reverse_append, List.map_singleton, List.reverse_singleton,
        List.singleton_append, List.cons_append] at hsame
      have htop : Symbol.nonterminal r.lhs.index = s.symbol := (List.cons.inj hsame).1
      cases s with
      | t kind => cases htop
      | n x =>
          obtain rfl := Nonterminal.index_injective (Symbol.nonterminal.inj htop)
          rw [hlast] at hsooner
          simpa [Nat.pos_iff_ne_zero] using hsooner

/-- **Reductions that lead to a declaration are those that are done before a closing brace.** -/
theorem settle_of_reducesTo (h : m.ReducesTo dialect offset r m') (hm : m.Balanced False)
    (hclosing : r.lhs.closings ≠ 0) :
    ∃ n ≤ r.lhs.closings, ∀ gas, settle dialect offset (n + gas) m =
      settle dialect offset gas m' := by
  induction h with
  | one hby =>
      refine ⟨1, Nat.one_le_iff_ne_zero.mpr hclosing, fun gas => ?_⟩
      rw [Nat.add_comm]
      exact hby.settle_succ hm hclosing gas
  | more hto hby ih =>
      obtain ⟨hsooner, hlt⟩ := hto.closings_lt hby hm hclosing
      obtain ⟨n, hn, hsettle⟩ := ih hsooner
      refine ⟨n + 1, by omega, fun gas => ?_⟩
      rw [Nat.add_assoc, Nat.add_comm 1 gas, hsettle]
      exact hby.settle_succ (hto.balanced hm) hclosing gas

end Machine

end AspectLang
