import AspectLang.Automaton.Items

/-! # Derivations of a grammar

`g.Yields symbols kinds` says that the symbols derive the kinds, with one constructor per shape
of a forest of derivation trees; `g.Sentence kinds` that the right side of the start production
does.  `g.WellFormed` says that every symbol of every production has a place in the tables,
which holds of every grammar read from rules (`wellFormed_of_ofRules`).  The theory of the
tables also asks that the start nonterminal stands on no right side (`StartIsolated`) and that
no production mentions the end of input (`LacksEof`). -/

namespace AspectLang

namespace Grammar

/-! ### What symbols derive -/

/-- The kinds that a sequence of symbols derives. -/
inductive Yields (g : Grammar) : List Symbol → List TokenKind → Prop
  | nil : Yields g [] []
  | terminal {k : TokenKind} {rest : List Symbol} {w : List TokenKind} :
      Yields g rest w → Yields g (.terminal k :: rest) (k :: w)
  | nonterminal {p : Nat} {production : Production} {rest : List Symbol} {u v : List TokenKind} :
      g.productions[p]? = some production → Yields g production.rhs u → Yields g rest v →
        Yields g (.nonterminal production.lhs :: rest) (u ++ v)

/-- The sentences of a grammar: what the right side of the start production derives. -/
def Sentence (g : Grammar) (w : List TokenKind) : Prop := g.Yields (g.rhsOf 0) w

variable {g : Grammar}

theorem rhsOf_eq {p : Nat} {production : Production} (h : g.productions[p]? = some production) :
    g.rhsOf p = production.rhs := by
  simp [rhsOf, h]

theorem Yields.append {α β : List Symbol} {u v : List TokenKind} (hα : g.Yields α u)
    (hβ : g.Yields β v) : g.Yields (α ++ β) (u ++ v) := by
  induction hα with
  | nil => exact hβ
  | terminal _ ih => exact .terminal ih
  | nonterminal hp hrhs _ _ ih =>
      rw [List.append_assoc]
      exact .nonterminal hp hrhs ih

/-- A derivation from two sequences in a row splits. -/
theorem Yields.split {α β : List Symbol} {w : List TokenKind} (h : g.Yields (α ++ β) w) :
    ∃ u v, w = u ++ v ∧ g.Yields α u ∧ g.Yields β v := by
  induction α generalizing w with
  | nil => exact ⟨[], w, rfl, .nil, h⟩
  | cons s α ih =>
      cases h with
      | terminal hrest =>
          obtain ⟨u, v, rfl, hu, hv⟩ := ih hrest
          exact ⟨_ :: u, v, rfl, .terminal hu, hv⟩
      | nonterminal hp hrhs hrest =>
          obtain ⟨u, v, rfl, hu, hv⟩ := ih hrest
          exact ⟨_ ++ u, v, (List.append_assoc ..).symm, .nonterminal hp hrhs hu, hv⟩

theorem Yields.single_terminal (k : TokenKind) : g.Yields [.terminal k] [k] := .terminal .nil

/-- Replacing a right side at the end by its left side keeps what is derived. -/
theorem Yields.reduce {α : List Symbol} {p : Nat} {production : Production}
    {w : List TokenKind} (hp : g.productions[p]? = some production)
    (h : g.Yields (α ++ production.rhs) w) :
    g.Yields (α ++ [.nonterminal production.lhs]) w := by
  obtain ⟨u, v, rfl, hu, hv⟩ := h.split
  have hlhs : g.Yields [.nonterminal production.lhs] v := by
    simpa using Yields.nonterminal hp hv .nil
  exact hu.append hlhs

/-! ### Well-formed grammars -/

/-- Whether a symbol has a place in the tables. -/
def HasSymbol (g : Grammar) : Symbol → Prop
  | .terminal k => k ∈ TokenKind.all
  | .nonterminal id => id < g.nonterminals.size

instance (g : Grammar) : DecidablePred g.HasSymbol
  | .terminal k => inferInstanceAs (Decidable (k ∈ TokenKind.all))
  | .nonterminal id => inferInstanceAs (Decidable (id < g.nonterminals.size))

/-- There is a start production, and every symbol has a place in the tables. -/
structure WellFormed (g : Grammar) : Prop where
  nonempty : 0 < g.productions.size
  lhs_lt : ∀ production ∈ g.productions, production.lhs < g.nonterminals.size
  hasSymbol : ∀ production ∈ g.productions, ∀ s ∈ production.rhs, g.HasSymbol s

/-- The start nonterminal stands on no right side. -/
def StartIsolated (g : Grammar) : Prop :=
  ∀ start, g.productions[0]? = some start →
    ∀ production ∈ g.productions, Symbol.nonterminal start.lhs ∉ production.rhs

/-- No production mentions the end of input. -/
def LacksEof (g : Grammar) : Prop :=
  ∀ production ∈ g.productions, Symbol.terminal .eof ∉ production.rhs

theorem column_lt_of_mem_all {k : TokenKind} (h : k ∈ TokenKind.all) :
    k.column < TokenKind.columnCount := by
  revert k
  decide

theorem WellFormed.next_hasSymbol (hg : g.WellFormed) {i : Item} {s : Symbol}
    (h : g.next? i = some s) : g.HasSymbol s := by
  unfold next? rhsOf at h
  cases hp : g.productions[i.production]? with
  | none => simp [hp] at h
  | some production =>
      rw [hp] at h
      exact hg.hasSymbol production (Array.mem_of_getElem? hp) s (List.mem_of_getElem? h)

/-! ### Grammars read from rules -/

theorem forall_mem_of_mapM_ok {α β ε : Type} {f : α → Except ε β} {P : β → Prop} {l : List α}
    {l' : List β} (hf : ∀ a ∈ l, ∀ b, f a = .ok b → P b) (h : l.mapM f = .ok l') :
    ∀ b ∈ l', P b := by
  induction l generalizing l' with
  | nil =>
      obtain rfl : [] = l' := by simpa [pure, Except.pure] using h
      simp
  | cons a l ih =>
      rw [List.mapM_cons] at h
      cases ha : f a with
      | error e => simp [ha, bind, Except.bind] at h
      | ok b =>
          cases hl : l.mapM f with
          | error e => simp [ha, hl, bind, Except.bind] at h
          | ok bs =>
              obtain rfl : b :: bs = l' := by
                simpa [ha, hl, bind, Except.bind, pure, Except.pure] using h
              intro c hc
              rcases List.mem_cons.mp hc with rfl | hc
              · exact hf a List.mem_cons_self c ha
              · exact ih (fun d hd => hf d (List.mem_cons_of_mem a hd)) hl c hc

theorem hasSymbol_of_resolveSymbol {nonterminals : List String} {text name : String} {s : Symbol}
    {productions : Array Production} (h : resolveSymbol nonterminals text name = .ok s) :
    HasSymbol ⟨nonterminals.toArray, productions⟩ s := by
  unfold resolveSymbol at h
  cases hid : nonterminals.idxOf? name with
  | some id =>
      obtain rfl : Symbol.nonterminal id = s := by simpa [hid] using h
      have hlt : id < nonterminals.length := by
        rw [List.idxOf?_eq_some_iff] at hid
        exact hid.choose
      simpa [HasSymbol] using hlt
  | none =>
      cases hk : TokenKind.ofGrammarName? name with
      | none => simp [hid, hk] at h
      | some k =>
          obtain rfl : Symbol.terminal k = s := by simpa [hid, hk] using h
          exact List.mem_of_find?_eq_some hk

/-- The production of a rule whose left side is a nonterminal has its symbols in the tables. -/
theorem hasSymbols_of_resolveRule {nonterminals : List String} {r : RuleText}
    {production : Production} {productions : Array Production} (hr : r.lhs ∈ nonterminals)
    (h : resolveRule nonterminals r = .ok production) :
    production.lhs < nonterminals.length ∧
      ∀ s ∈ production.rhs, HasSymbol ⟨nonterminals.toArray, productions⟩ s := by
  unfold resolveRule at h
  cases hrhs : r.rhs.mapM (resolveSymbol nonterminals r.text) with
  | error e => simp [hrhs] at h
  | ok rhs =>
      obtain rfl : Production.mk _ rhs = production := by simpa [hrhs] using h
      exact ⟨List.idxOf_lt_length_iff.mpr hr,
        forall_mem_of_mapM_ok (fun _ _ _ hs => hasSymbol_of_resolveSymbol hs) hrhs⟩

/-- Grammars read from rules are well-formed once they have a production. -/
theorem wellFormed_of_ofRules {rules : List String} (h : ofRules rules = .ok g)
    (hne : g.productions.isEmpty = false) : g.WellFormed := by
  unfold ofRules at h
  cases hsplit : rules.mapM splitRule with
  | error e => simp [hsplit] at h
  | ok split =>
      rw [hsplit] at h
      dsimp only at h
      cases hprod : split.mapM (resolveRule (split.map (·.lhs)).eraseDups) with
      | error e => simp [hprod] at h
      | ok productions =>
          rw [hprod] at h
          obtain rfl : Grammar.mk _ _ = g := by simpa using h
          have hsymbols : ∀ production ∈ productions,
              production.lhs < (split.map (·.lhs)).eraseDups.length ∧
                ∀ s ∈ production.rhs, HasSymbol
                  ⟨(split.map (·.lhs)).eraseDups.toArray, productions.toArray⟩ s := by
            refine forall_mem_of_mapM_ok (fun r hr production h => ?_) hprod
            refine hasSymbols_of_resolveRule ?_ h
            rw [List.mem_eraseDups]
            exact List.mem_map_of_mem hr
          refine ⟨?_, fun p hp => ?_, fun p hp => ?_⟩
          · rw [Array.isEmpty_eq_false_iff] at hne
            exact Array.size_pos_iff.mpr hne
          · simpa using (hsymbols p (by simpa using hp)).1
          · exact (hsymbols p (by simpa using hp)).2

end Grammar

end AspectLang
