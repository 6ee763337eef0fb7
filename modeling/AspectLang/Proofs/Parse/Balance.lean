import AspectLang.Proofs.Parse.Contributions

/-! # Reductions keep the value stacks in step with the states

`stackProfile` lists what the symbols that a stack of states spells leave on the value stacks.
Where a rule is in progress, the declaration that it changes stands below what its symbols have
left (`traced_stands`).  So an action finds the values of the right side that is reduced, and
leaves those of the left side (`ensures_act`). -/

namespace AspectLang

/-! ### Profiles on top of each other -/

namespace Profile

variable (a b c frame : Profile)

theorem atop_assoc : (a.atop b).atop c = a.atop (b.atop c) := by
  simp [atop, Bool.or_assoc]

theorem empty_atop : atop {} a = a := by
  simp [atop]

variable (ps : List Profile)

theorem followed_atop : (a.atop frame).followed ps = (a.followed ps).atop frame := by
  induction ps generalizing a with
  | nil => rfl
  | cons p ps ih =>
      unfold followed
      rw [← atop_assoc, ih]

theorem followed_eq_atop : frame.followed ps = (followed {} ps).atop frame := by
  rw [← followed_atop, empty_atop]

theorem followed_concat : frame.followed (ps ++ [a]) = a.atop (frame.followed ps) := by
  induction ps generalizing frame with
  | nil => rfl
  | cons p ps ih => exact ih (p.atop frame)

end Profile

open Profile

/-! ### Symbols by number -/

/-- What a symbol of the grammar leaves on the value stacks. -/
def Symbol.profile : Symbol → Profile
  | .terminal kind => kind.profile
  | .nonterminal id => Nonterminal.all[id]?.elim {} Nonterminal.profile

theorem Nonterminal.profile_index (x : Nonterminal) :
    Symbol.profile (.nonterminal x.index) = x.profile := by
  change all[x.index]?.elim {} profile = x.profile
  rw [x.all_getElem?]
  rfl

theorem RuleSymbol.profile_symbol (s : RuleSymbol) : s.symbol.profile = s.profile := by
  cases s with
  | t kind => rfl
  | n x => exact x.profile_index

/-- What a stack of symbols, the topmost first, leaves on the value stacks. -/
def stackProfile : List Symbol → Profile
  | [] => {}
  | s :: below => s.profile.atop (stackProfile below)

theorem stackProfile_reverse_append (rhs : List RuleSymbol) (below : List Symbol) :
    stackProfile ((rhs.map RuleSymbol.symbol).reverse ++ below) =
      (stackProfile below).followed (rhs.map RuleSymbol.profile) := by
  induction rhs generalizing below with
  | nil => rfl
  | cons s rhs ih =>
      rw [List.map_cons, List.reverse_cons, List.append_assoc, List.singleton_append, ih,
        List.map_cons]
      change (s.symbol.profile.atop (stackProfile below)).followed _ = _
      rw [s.profile_symbol]
      rfl

/-! ### Rules in progress -/

namespace Rule

/-- The profile of a rule up to a dot, with the declaration that it changes. -/
def progress (r : Rule) (dot : Nat) : Profile :=
  r.base.followed ((r.rhs.take dot).map RuleSymbol.profile)

/-- The nodes of a rule in progress are on top of those that the symbols leave. -/
def Stands (r : Rule) (dot : Nat) (symbols : List Symbol) : Prop :=
  (r.progress dot).nodes <+: (stackProfile symbols).nodes

variable {r : Rule} {dot : Nat} {symbols : List Symbol} {s : RuleSymbol}

theorem progress_succ (h : r.rhs[dot]? = some s) :
    r.progress (dot + 1) = s.profile.atop (r.progress dot) := by
  unfold progress
  rw [List.take_add_one, h, Option.toList_some, List.map_append, List.map_cons, List.map_nil,
    followed_concat]

/-- The rule goes on when its next symbol is put on the stack. -/
theorem Stands.advance (h : r.Stands dot symbols) (hs : r.rhs[dot]? = some s) :
    r.Stands (dot + 1) (s.symbol :: symbols) := by
  unfold Stands stackProfile
  rw [progress_succ hs, s.profile_symbol]
  exact (List.prefix_append_right_inj s.profile.nodes).mpr h

/-- A rule for the next symbol begins with the declaration that it changes on top. -/
theorem Stands.begin (h : r.Stands dot symbols) (hr : r ∈ Language.rules) {r' : Rule}
    (hnext : r.rhs[dot]? = some (.n r'.lhs)) : r'.Stands 0 symbols := by
  have hlt : dot < r.rhs.length := (List.getElem?_eq_some_iff.mp hnext).1
  have hprovides := List.all_eq_true.mp (Language.rules_provide r hr) dot
    (List.mem_range.mpr hlt)
  rw [hnext] at hprovides
  exact (List.isPrefixOf_iff_prefix.mp hprovides).trans h

end Rule

namespace Language

variable {states : List Nat} {symbols : List Symbol} {kernel : List Item}

theorem next?_eq {i : Item} {r : Rule} (hr : ruleArray[i.production]? = some r) :
    grammar.next? i = (r.rhs[i.dot]?).map RuleSymbol.symbol := by
  have hp : grammar.productions[i.production]? = some r.production := by
    rw [productions_getElem?, hr]
    rfl
  unfold Grammar.next?
  rw [Grammar.rhsOf_eq hp]
  exact List.getElem?_map

theorem mem_rules {p : Nat} {r : Rule} (hr : ruleArray[p]? = some r) : r ∈ rules :=
  List.mem_toArray.mp (Array.mem_of_getElem? hr)

theorem exists_rule_of_next? {i : Item} {s : Symbol} (h : grammar.next? i = some s) :
    ∃ r x, ruleArray[i.production]? = some r ∧ r.rhs[i.dot]? = some x ∧ x.symbol = s := by
  cases hr : ruleArray[i.production]? with
  | none =>
      unfold Grammar.next? Grammar.rhsOf at h
      rw [productions_getElem?, hr] at h
      simp at h
  | some r =>
      rw [next?_eq hr, Option.map_eq_some_iff] at h
      obtain ⟨x, hx, hs⟩ := h
      exact ⟨r, x, rfl, hx, hs⟩

/-- What is so of the rules in progress on top of a stack of symbols: it is so where the start rule
begins, it stays so when the next symbol of a rule is put on the stack, and it is so of each rule
that may begin there. -/
structure Traced (P : Rule → Nat → List Symbol → Prop) : Prop where
  start : ∀ r, ruleArray[0]? = some r → P r 0 []
  advance : ∀ {r : Rule} {dot : Nat} {symbols : List Symbol} {s : RuleSymbol},
    P r dot symbols → r.rhs[dot]? = some s → P r (dot + 1) (s.symbol :: symbols)
  begins : ∀ {r r' : Rule} {dot : Nat} {symbols : List Symbol}, r ∈ rules → P r dot symbols →
    r.rhs[dot]? = some (.n r'.lhs) → P r' 0 symbols

namespace Traced

variable {P : Rule → Nat → List Symbol → Prop} (hP : Traced P)

include hP

/-- What is so of the rules in a kernel is so of those that begin there. -/
theorem of_itemOf (hkernel : ∀ i ∈ kernel, ∀ r, ruleArray[i.production]? = some r →
      P r i.dot symbols) {i : Item} (hi : grammar.ItemOf kernel i) {r : Rule}
    (hr : ruleArray[i.production]? = some r) : P r i.dot symbols := by
  induction hi generalizing r with
  | kernel hmem => exact hkernel _ hmem r hr
  | @start j p production hj hnext hp ih =>
      obtain ⟨r', x, hr', hx, hsymbol⟩ := exists_rule_of_next? hnext
      rw [productions_getElem?, hr] at hp
      obtain rfl : r.production = production := Option.some.inj hp
      have hlhs : x = .n r.lhs := by
        cases x with
        | t kind => cases hsymbol
        | n y => rw [Nonterminal.index_injective (Symbol.nonterminal.inj hsymbol)]
      rw [hlhs] at hx
      exact hP.begins (mem_rules hr') (ih hr') hx

/-- It is so of every rule in progress in the topmost state. -/
theorem of_spells {state : Nat} {below : List Nat} (h : grammar.Spells (state :: below) symbols)
    (hk : grammar.itemGraph.kernels[state]? = some kernel) {i : Item}
    (hi : grammar.ItemOf kernel i) {r : Rule} (hr : ruleArray[i.production]? = some r) :
    P r i.dot symbols := by
  generalize hstates : state :: below = states at h
  induction h generalizing state below kernel i r with
  | start =>
      obtain ⟨rfl, rfl⟩ := List.cons.inj hstates
      rw [wellFormed_grammar.kernels_zero, Option.some.injEq] at hk
      subst hk
      refine hP.of_itemOf (fun j hj r hr => ?_) hi hr
      obtain rfl := List.mem_singleton.mp hj
      exact hP.start r hr
  | @step previous target rest symbols s hprevious hs hedge ih =>
      obtain ⟨rfl, rfl⟩ := List.cons.inj hstates
      obtain ⟨kernel', hk'⟩ := hprevious.kernel_top wellFormed_grammar
      obtain ⟨advanced, hadvanced, hitems, _⟩ :=
        wellFormed_grammar.kernel_of_edge hk' hs hedge
      rw [hk, Option.some.injEq] at hadvanced
      subst hadvanced
      refine hP.of_itemOf (fun j hj r hr => ?_) hi hr
      obtain ⟨i', hi', hnext, rfl⟩ := (hitems j).mp hj
      obtain ⟨r', x, hr', hx, rfl⟩ := exists_rule_of_next? hnext
      obtain rfl : r' = r := Option.some.inj (hr'.symm.trans hr)
      exact hP.advance (ih hk' hi' hr' rfl) hx

/-- On top of every stack some rule is in progress. -/
theorem exists_of_spells (h : grammar.Spells states symbols) :
    ∃ r ∈ rules, ∃ dot ≤ r.rhs.length, P r dot symbols := by
  cases h with
  | start => exact ⟨_, mem_rules ruleArray_zero, 0, Nat.zero_le _, hP.start _ ruleArray_zero⟩
  | step hprevious hs hedge =>
      obtain ⟨kernel, hk⟩ := hprevious.kernel_top wellFormed_grammar
      obtain ⟨_, _, _, i, hi, hnext⟩ := wellFormed_grammar.kernel_of_edge hk hs hedge
      obtain ⟨r, x, hr, hx, rfl⟩ := exists_rule_of_next? hnext
      exact ⟨r, mem_rules hr, i.dot + 1, (List.getElem?_eq_some_iff.mp hx).1,
        hP.advance (hP.of_spells hprevious hk hi hr) hx⟩

end Traced

/-- Every rule in progress has its nodes on top. -/
theorem traced_stands : Traced Rule.Stands where
  start r hr := by
    rw [ruleArray_zero, Option.some.injEq] at hr
    subst hr
    exact List.nil_prefix
  advance h hs := h.advance hs
  begins hr h hnext := h.begin hr hnext

end Language

/-! ### Reductions -/

namespace Work

variable {plain : Prop} {w : Workspace}

/-- **The action of a rule turns the values of its right side into those of its left side.**
The frame below them is kept, but for the declaration that the rule changes. -/
theorem ensures_act (dialect : Dialect) {c : Handle} {r : Rule} {frame : Profile}
    (hr : r ∈ Language.rules) (harity : c.arity = r.rhs.length)
    (hcontext : r.lhs.context <+: frame.nodes)
    (h : w.Fits plain (frame.followed (r.rhs.map RuleSymbol.profile))) :
    Ensures plain w (act dialect c r.action) fun _ w' =>
      w'.Fits plain (r.lhs.profile.atop frame) := by
  obtain ⟨htakes, hgives⟩ := Bool.and_eq_true_iff.mp (Language.rules_balanced r hr)
  obtain ⟨nodes, hnodes⟩ := hcontext
  have hframe : frame = r.base.atop { frame with nodes } := by
    simp only [Rule.base, atop, hnodes, List.nil_append, Bool.false_or]
  rw [hframe, followed_atop] at h
  have hturns : Turns plain (act dialect c r.action) _ _ :=
    turns_act dialect c r.output r.action
  have hturns := hturns w { frame with nodes }
  rw [harity, followed_eq_atop] at hturns
  refine (hturns (h.widen htakes)).mono fun _ w' hw' => ?_
  rw [hframe, ← atop_assoc]
  exact hw'.widen hgives

end Work

end AspectLang
