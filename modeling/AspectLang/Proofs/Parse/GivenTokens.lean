import AspectLang.Proofs.Parse.CollectedRuns
import AspectLang.Proofs.Parse.Crashes
import AspectLang.Proofs.Parse.Spacing

/-! # Tokens that were classified elsewhere

A parser can be given tokens that no scanner made, with any texts and any ranges.  Their texts are cut
by bytes where a shift operator is split (`Token.split_eq_brokenText_iff`) and where the quotes of a
literal are dropped.  Their positions are added to where a shift operator is split, where the tokens
of a run are put together, and at the end of the input.

The sums of splits stay below a limit if those of the given tokens do (`Machine.splitsBelow_step`),
since a repair inserts nothing that can be split.  The pseudo tokens on the stack end where tokens
ended that were read; so if the tokens keep some distance from the limit, nothing that is put together
reaches it (`Machine.endsBelow_step`). -/

namespace AspectLang

/-! ### Splitting -/

namespace Token

variable {t : Token}

/-- A shift operator cannot be split where its text begins with a character of several bytes. -/
theorem split_eq_brokenText_iff : t.split = .crashes (.brokenText t.text) ↔
    t.kind.halves?.isSome = true ∧ ∃ c ∈ t.text.toList.head?, c.utf8Size ≠ 1 := by
  unfold split dropByte?
  cases t.kind.halves? with
  | none => simp
  | some halves =>
      by_cases hfits : t.span.start + 1 < UInt64.size <;> cases t.text.toList with
      | nil => simp [hfits]
      | cons c cs => by_cases hone : c.utf8Size = 1 <;> simp [hfits, hone]

/-- At the last offset that has another one behind it, the second split of an operator does not fit. -/
example : ∃ first second,
    split ⟨.shiftRightUnsigned, .point (UInt64.size - 2), ">>>"⟩ = .halves first second ∧
      second.split = .crashes (.offsetOverflow (UInt64.size - 1)) :=
  ⟨_, _, rfl, rfl⟩

theorem brackets_le_three (kind : TokenKind) : kind.brackets ≤ 3 := by
  cases kind <;> decide

end Token

namespace Machine

variable {p : ParserSetup} {m m' : Machine} {limit : Nat}

/-- The tokens that are left can be split below a limit. -/
def SplitsBelow (limit : Nat) (m : Machine) : Prop := ∀ t ∈ m.rest, t.SplitsBelow limit

/-- A reduction leaves the tokens as they are. -/
theorem tokens_reduce {dialect : Dialect} {lookahead : Span} {state production : Nat}
    {below : List Nat} {kind : TokenKind} (hbalanced : m.Balanced False)
    (hstates : m.states = state :: below)
    (haction : Language.tables.action state kind = .reduce production)
    (hreduce : reduce dialect production lookahead m = .ok () m') :
    m'.rest = m.rest ∧ m'.previous = m.previous := by
  obtain ⟨symbols, hholds⟩ := hbalanced
  obtain ⟨rule, origin, rest, before, target, hrule, hdrop, _, hgoto, _⟩ :=
    exists_rule hholds.spells hstates haction
  rw [reduce_eq hrule hdrop hgoto] at hreduce
  split at hreduce <;> cases hreduce
  exact ⟨rfl, rfl⟩

/-- **A step keeps splits below a limit.** -/
theorem splitsBelow_step {progress : Progress} (h : m.SplitsBelow limit)
    (hbalanced : m.Balanced False) (hstep : step p m = .ok progress m') : m'.SplitsBelow limit := by
  obtain ⟨symbols, hholds⟩ := hbalanced
  obtain ⟨state, below, hstates⟩ := List.exists_cons_of_ne_nil hholds.spells.ne_nil
  cases hrest : m.rest with
  | nil =>
      rw [step_of_no_tokens hstates hrest] at hstep
      cases hstep
  | cons t rest =>
      have hall := h
      unfold SplitsBelow at hall
      rw [hrest] at hall
      obtain ⟨ht, hbehind⟩ := List.forall_mem_cons.mp hall
      cases stepped_of_step hstates hrest hstep with
      | shift => exact hbehind
      | reduce haction hreduce =>
          unfold SplitsBelow
          rw [(tokens_reduce ⟨symbols, hholds⟩ hstates haction hreduce).1]
          exact h
      | accept => exact h
      | split _ hsplit =>
          obtain ⟨hfirst, hsecond⟩ := ht.halves hsplit
          exact List.forall_mem_cons.mpr ⟨hfirst, List.forall_mem_cons.mpr ⟨hsecond, hbehind⟩⟩
      | repair =>
          unfold SplitsBelow
          rcases (recover_cases p t m).2 with hsame | htail | ⟨kinds, hwhole, hfront⟩
          · rw [hsame]
            exact h
          · rw [htail]
            exact fun u hu => h u (List.mem_of_mem_tail hu)
          · rw [hfront]
            refine List.forall_mem_append.mpr ⟨List.forall_mem_map.mpr fun kind hkind hsome => ?_, h⟩
            rw [hwhole kind hkind] at hsome
            cases hsome

end Machine

/-! ### Where pseudo tokens end -/

/-- The pseudo tokens in a node. -/
def Node.pseudoTokens : Node → List PseudoToken
  | .fragment f => Factory.tokensIn f
  | _ => []

/-- The pseudo tokens in a node end below a limit. -/
def Node.EndsBelow (limit : Nat) (n : Node) : Prop :=
  ∀ t ∈ n.pseudoTokens, t.span.EndsBelow limit

/-- The pseudo tokens on a stack end below a limit. -/
def SegmentStack.EndsBelow (limit : Nat) (s : SegmentStack Node) : Prop :=
  ∀ n ∈ s.items, n.EndsBelow limit

/-- The symbols on a right side and the token behind it end below a limit. -/
structure Handle.EndsBelow (limit : Nat) (c : Handle) : Prop where
  spans : ∀ s, some s ∈ c.spans → s.EndsBelow limit
  lookahead : c.lookahead.start + 1 < limit

section

variable {limit : Nat} {c : Handle} {f : Factory} {place : Span}

theorem Span.EndsBelow.hull {spans : List Span} (h : ∀ s ∈ spans, s.EndsBelow limit)
    (hhull : Span.hull spans = some place) : place.EndsBelow limit := by
  obtain ⟨first, hfirst, last, hlast, rfl⟩ := Span.exists_of_hull hhull
  have hbefore := h first hfirst
  have hbehind := h last hlast
  unfold EndsBelow merge at *
  dsimp only
  omega

theorem Handle.EndsBelow.whole? (h : c.EndsBelow limit) (hs : c.whole? = some place) :
    place.EndsBelow limit := by
  refine Span.EndsBelow.hull (fun s hs => ?_) hs
  obtain ⟨covered, hmem, rfl⟩ := List.mem_filterMap.mp hs
  exact h.spans s hmem

theorem Handle.EndsBelow.whole (h : c.EndsBelow limit) : c.whole.EndsBelow limit := by
  unfold Handle.whole
  cases hwhole : c.whole? with
  | none => exact h.lookahead
  | some s => exact h.whole? hwhole

theorem Handle.EndsBelow.span (h : c.EndsBelow limit) (i : Nat) : (c.span i).EndsBelow limit := by
  unfold Handle.span
  cases hspan : c.spans.getD i none with
  | none => exact h.lookahead
  | some s => exact h.spans s (Handle.Tidy.mem_of_getD hspan)

namespace Node

theorem endsBelow_pseudoToken {value : String} {isIdentifier : Bool} (h : place.EndsBelow limit) :
    (Node.fragment (f.pseudoToken value isIdentifier place)).EndsBelow limit := by
  cases f with
  | placeholder => exact nofun
  | aspects => exact List.forall_mem_singleton.mpr h

theorem endsBelow_guardToken {condition : Expr} (h : place.EndsBelow limit) :
    (Node.fragment (f.guardToken condition place)).EndsBelow limit := by
  cases f with
  | placeholder => exact nofun
  | aspects => exact List.forall_mem_singleton.mpr h

theorem endsBelow_literalToken {kind value : String} (h : place.EndsBelow limit) :
    (Node.fragment (f.setLiteralKind kind (f.pseudoToken value false place))).EndsBelow limit := by
  cases f with
  | placeholder => exact nofun
  | aspects => exact List.forall_mem_singleton.mpr h

theorem endsBelow_of_has {plain : Prop} {k : NodeRole} {n : Node} (hk : k ≠ .fragment)
    (h : k.Has plain n) : n.EndsBelow limit := by
  cases n with
  | fragment f => cases k <;> first | exact absurd rfl hk | cases h
  | _ => exact nofun

end Node

namespace SegmentStack

variable {s below : SegmentStack Node}

theorem EndsBelow.push (h : s.EndsBelow limit) {n : Node} (hn : n.EndsBelow limit) :
    (s.push n).EndsBelow limit :=
  List.forall_mem_cons.mpr ⟨hn, h⟩

theorem EndsBelow.pushSegment (h : s.EndsBelow limit) {ns : List Node}
    (hns : ∀ n ∈ ns, n.EndsBelow limit) : (s.pushSegment ns).EndsBelow limit :=
  List.forall_mem_append.mpr ⟨fun n hn => hns n (List.mem_reverse.mp hn), h⟩

theorem endsBelow_onto :
    (s.onto below).EndsBelow limit ↔ s.EndsBelow limit ∧ below.EndsBelow limit :=
  List.forall_mem_append

theorem endsBelow_of_fits {plain : Prop} {shapes : List (Shape NodeRole)}
    (h : s.Fits (NodeRole.Has plain) shapes) (hnone : shapes.all (·.role ≠ .fragment) = true) :
    s.EndsBelow limit := by
  intro n hn
  obtain ⟨shape, hshape, hhas⟩ := h.exists_shape hn
  exact Node.endsBelow_of_has (by simpa using List.all_eq_true.mp hnone shape hshape) hhas

end SegmentStack

end

/-! ### Words and literals that were just read -/

/-- The word or the literal that a leaf stands for lies on top, and ends below a limit. -/
def Nonterminal.EndsBelow (limit : Nat) (x : Nonterminal) (s : ValueStacks) : Prop :=
  match x with
  | .plainIdentifier =>
    ∃ word below, s.identifiers = SegmentStack.push word below ∧ word.span.EndsBelow limit
  | .literal => ∃ kind text span below,
      s.exprs = SegmentStack.push (.literal kind text span) below ∧ span.EndsBelow limit
  | _ => True

/-- The values of terminals and leaves on top are those of tokens that end below a limit. -/
inductive Rooted (limit : Nat) : List Symbol → ValueStacks → Prop
  | start {s : ValueStacks} : Rooted limit [] s
  | shift {symbols : List Symbol} {s : ValueStacks} (t : Token) : t.span.EndsBelow limit →
      Rooted limit symbols s → Rooted limit (.terminal t.kind :: symbols) (Machine.pushValue t s)
  | nonterminal {symbols : List Symbol} {s : ValueStacks} {x : Nonterminal} :
      x.EndsBelow limit s → Rooted limit (.nonterminal x.index :: symbols) s

namespace Rooted

variable {limit : Nat} {symbols : List Symbol} {s : ValueStacks}

/-- It does not matter which production is reduced. -/
theorem begin (h : Rooted limit symbols s) (production : Nat) :
    Rooted limit symbols (s.begin production) := by
  induction h with
  | start => exact .start
  | @shift _ s t ht _ ih =>
      have hbegin : (Machine.pushValue t s).begin production =
          Machine.pushValue t (s.begin production) := by
        unfold Machine.pushValue
        split
        · rfl
        · split <;> rfl
      rw [hbegin]
      exact .shift t ht ih
  | nonterminal hx => exact .nonterminal hx

/-- A terminal on top was just read. -/
theorem exists_shift {k : TokenKind} (h : Rooted limit (.terminal k :: symbols) s) :
    ∃ t lower, t.kind = k ∧ t.span.EndsBelow limit ∧ s = Machine.pushValue t lower ∧
      Rooted limit symbols lower := by
  cases h with
  | shift t ht hbelow => exact ⟨t, _, rfl, ht, rfl, hbelow⟩

/-- A word on top was just read. -/
theorem exists_word {k : TokenKind} (hk : k.isWord = true)
    (h : Rooted limit (.terminal k :: symbols) s) :
    ∃ word lower, s.identifiers = SegmentStack.push word lower.identifiers ∧
      word.span.EndsBelow limit ∧ Rooted limit symbols lower := by
  obtain ⟨t, lower, rfl, ht, rfl, hbelow⟩ := h.exists_shift
  rw [Machine.pushValue_of_isWord hk]
  exact ⟨_, lower, rfl, ht, hbelow⟩

/-- A sign on top leaves no value. -/
theorem of_sign {k : TokenKind} (hk : k.isSign = true)
    (h : Rooted limit (.terminal k :: symbols) s) : Rooted limit symbols s := by
  obtain ⟨t, lower, rfl, _, rfl, hbelow⟩ := h.exists_shift
  rwa [Machine.pushValue_of_isSign hk]

theorem of_nonterminal {x : Nonterminal} (h : Rooted limit (.nonterminal x.index :: symbols) s) :
    x.EndsBelow limit s := by
  generalize htop : Symbol.nonterminal x.index :: symbols = stack at h
  cases h with
  | start | shift => cases htop
  | nonterminal hx =>
      obtain rfl := Nonterminal.index_injective (Symbol.nonterminal.inj (List.cons.inj htop).1)
      exact hx

end Rooted

theorem Language.rules_show_or_keep :
    ∀ r ∈ rules, (r.showsTokens || r.keepsTokens) = true := by
  decide +kernel

namespace Rule

variable {limit : Nat} {r : Rule} {dialect : Dialect} {c : Handle} {w w' : Workspace}
  {before : List Symbol}

/-- What a rule leaves on top is a word or a literal only where it read one. -/
theorem endsBelow_lhs (hr : r ∈ Language.rules)
    (hrooted : Rooted limit ((r.rhs.map RuleSymbol.symbol).reverse ++ before) w.values)
    (hact : Work.act dialect c r.action w = .ok () w') : r.lhs.EndsBelow limit w'.values := by
  have hleaf := (Language.rules_show r hr).1
  obtain ⟨lhs, rhs, action⟩ := r
  dsimp only at hleaf hrooted hact ⊢
  by_cases htrivial : lhs = .plainIdentifier ∨ lhs = .literal
  · have hreads : Rule.readsToken ⟨lhs, rhs, action⟩ = true := by
      rw [← hleaf]
      rcases htrivial with rfl | rfl <;> rfl
    unfold readsToken at hreads
    split at hreads
    · rename_i k hlhs hrhs haction
      obtain rfl : lhs = _ := hlhs
      obtain rfl : rhs = _ := hrhs
      obtain rfl : action = _ := haction
      cases hact
      obtain ⟨word, lower, hwords, hword, _⟩ := hrooted.exists_word hreads
      exact ⟨word, _, hwords, hword⟩
    · rename_i k hlhs hrhs haction
      obtain rfl : lhs = _ := hlhs
      obtain rfl : rhs = _ := hrhs
      obtain rfl : action = _ := haction
      cases hact
      obtain ⟨hword, hliteral⟩ := Bool.and_eq_true_iff.mp hreads
      obtain ⟨kind, hkind⟩ := Option.isSome_iff_exists.mp hliteral
      obtain ⟨t, lower, rfl, ht, hvalues, _⟩ := hrooted.exists_shift
      rw [Machine.pushValue_of_literal (by simpa using hword) hkind] at hvalues
      rw [hvalues]
      exact ⟨kind, _, _, _, rfl, ht⟩
    · rename_i hlhs _ _
      obtain rfl : lhs = _ := hlhs
      rcases htrivial with h | h <;> cases h
    · rename_i hlhs _ _
      obtain rfl : lhs = _ := hlhs
      rcases htrivial with h | h <;> cases h
    · cases hreads
  · unfold Nonterminal.EndsBelow
    split
    · exact absurd (.inl rfl) htrivial
    · exact absurd (.inr rfl) htrivial
    · trivial

section

variable (hnodes : w.values.nodes.EndsBelow limit)

include hnodes

theorem endsBelow_identifierToken {word : Identifier} {below : SegmentStack Identifier}
    (hwords : w.values.identifiers = SegmentStack.push word below) (hword : word.span.EndsBelow limit)
    (hact : Work.act dialect c (.aspect .identifierToken) w = .ok () w') :
    w'.values.nodes.EndsBelow limit := by
  obtain ⟨f, middle, hvalues, hact⟩ := Work.exists_factory hact
  obtain ⟨i, popped, hpop, hpush⟩ := exists_of_bind (a := Work.popIdentifier) hact
  rw [← hvalues] at hwords hnodes
  obtain ⟨rfl, _, hsame⟩ := Work.popIdentifier_push hwords hpop
  rw [Work.pushNode_ok hpush, hsame]
  exact hnodes.push (Node.endsBelow_pseudoToken hword)

theorem endsBelow_literalToken
    (hliteral : Nonterminal.EndsBelow limit .literal w.values)
    (hact : Work.act dialect c (.aspect .literalToken) w = .ok () w') :
    w'.values.nodes.EndsBelow limit := by
  obtain ⟨kind, text, span, below, hexprs, hspan⟩ := hliteral
  obtain ⟨f, middle, hvalues, hact⟩ := Work.exists_factory hact
  obtain ⟨e, popped, hpop, hpush⟩ := exists_of_bind (a := Work.popExpr) hact
  rw [← hvalues] at hexprs hnodes
  obtain ⟨rfl, hsame⟩ := Work.popExpr_push hexprs hpop
  rw [Work.pushNode_ok hpush, hsame]
  exact hnodes.push (Node.endsBelow_literalToken hspan)

/-- Two words that were just read become the first tokens of a statement. -/
theorem endsBelow_headerTokens {first second : Identifier} {below : SegmentStack Identifier}
    {make : Identifier → Identifier → List Node}
    (hwords : w.values.identifiers = SegmentStack.push second (SegmentStack.push first below))
    (hmake : ∀ n ∈ make first second, n.EndsBelow limit)
    (hact : (do
      let kind ← Work.popIdentifier
      let keyword ← Work.popIdentifier
      Work.pushNodes (make keyword kind) : Work Unit) w = .ok () w') :
    w'.values.nodes.EndsBelow limit := by
  obtain ⟨_, middle, hpop₂, hact⟩ := exists_of_bind (a := Work.popIdentifier) hact
  obtain ⟨_, popped, hpop₁, hpush⟩ := exists_of_bind (a := Work.popIdentifier) hact
  obtain ⟨rfl, hrest, hmiddle⟩ := Work.popIdentifier_push hwords hpop₂
  obtain ⟨rfl, _, hpopped⟩ := Work.popIdentifier_push hrest hpop₁
  rw [Work.pushNodes_ok hpush, hpopped, hmiddle]
  exact hnodes.pushSegment hmake

/-- The pseudo tokens that a rule makes end below the limit, as what they are made of does. -/
theorem endsBelow_act (h : r.showsTokens = true) (hc : c.EndsBelow limit)
    (hrooted : Rooted limit ((r.rhs.map RuleSymbol.symbol).reverse ++ before) w.values)
    (hact : Work.act dialect c r.action w = .ok () w') : w'.values.nodes.EndsBelow limit := by
  obtain ⟨lhs, rhs, action⟩ := r
  unfold showsTokens at h
  split at h
  · rename_i k k' _ haction
    obtain rfl : action = _ := haction
    obtain ⟨f, middle, hvalues, hact⟩ := Work.exists_factory hact
    rw [Work.pushNode_ok hact, hvalues]
    exact hnodes.push (Node.endsBelow_pseudoToken (hc.span 0))
  · rename_i k hrhs haction
    obtain rfl : rhs = _ := hrhs
    obtain rfl : action = _ := haction
    obtain ⟨word, lower, hwords, hword, _⟩ := hrooted.exists_word h
    exact endsBelow_identifierToken hnodes hwords hword hact
  · rename_i hrhs haction
    obtain rfl : rhs = _ := hrhs
    obtain rfl : action = _ := haction
    obtain ⟨word, below, hwords, hword⟩ := hrooted.of_nonterminal
    exact endsBelow_identifierToken hnodes hwords hword hact
  · rename_i hrhs haction
    obtain rfl : rhs = _ := hrhs
    obtain rfl : action = _ := haction
    exact endsBelow_literalToken hnodes hrooted.of_nonterminal hact
  · rename_i haction
    obtain rfl : action = _ := haction
    obtain ⟨f, middle, hvalues, hact⟩ := Work.exists_factory hact
    rw [← hvalues] at hnodes
    exact (Work.keeps_bind inferInstance fun modifiers => Work.keeps_pushNode
      (Node.endsBelow_pseudoToken (hc.span 0))).kept _ _ _ hact hnodes
  · rename_i haction
    obtain rfl : action = _ := haction
    obtain ⟨f, middle, hvalues, hact⟩ := Work.exists_factory hact
    rw [← hvalues] at hnodes
    exact (Work.keeps_bind inferInstance fun type => Work.keeps_pushNode
      (Node.endsBelow_pseudoToken (hc.span 0))).kept _ _ _ hact hnodes
  · rename_i haction
    obtain rfl : action = _ := haction
    obtain ⟨f, middle, hvalues, hact⟩ := Work.exists_factory hact
    rw [← hvalues] at hnodes
    exact (Work.keeps_bind inferInstance fun condition => Work.keeps_pushNode
      (Node.endsBelow_guardToken hc.whole)).kept _ _ _ hact hnodes
  · rename_i keyword kind hrhs haction
    obtain rfl : rhs = _ := hrhs
    obtain rfl : action = _ := haction
    obtain ⟨hkeyword, hkind⟩ := Bool.and_eq_true_iff.mp h
    obtain ⟨second, _, hwords₂, hsecond, hrooted⟩ :=
      (hrooted.of_sign (k := .colon) (by decide)).exists_word hkind
    obtain ⟨first, _, hwords₁, hfirst, _⟩ := hrooted.exists_word hkeyword
    obtain ⟨f, middle, hvalues, hact⟩ := Work.exists_factory hact
    rw [hwords₁, ← hvalues] at hwords₂
    rw [← hvalues] at hnodes
    refine endsBelow_headerTokens hnodes hwords₂ ?_ hact
    simp only [List.forall_mem_cons, List.not_mem_nil, false_implies, implies_true, and_true]
    exact ⟨Node.endsBelow_pseudoToken hfirst, Node.endsBelow_pseudoToken hsecond,
      Node.endsBelow_pseudoToken (hc.span 2)⟩
  · rename_i keyword kind hrhs haction
    obtain rfl : rhs = _ := hrhs
    obtain rfl : action = _ := haction
    obtain ⟨hkeyword, hkind⟩ := Bool.and_eq_true_iff.mp h
    obtain ⟨second, _, hwords₂, hsecond, hrooted⟩ :=
      (hrooted.of_sign (k := .colon) (by decide)).exists_word hkind
    obtain ⟨first, _, hwords₁, hfirst, _⟩ :=
      (hrooted.of_sign (k := .atSign) (by decide)).exists_word hkeyword
    obtain ⟨f, middle, hvalues, hact⟩ := Work.exists_factory hact
    rw [hwords₁, ← hvalues] at hwords₂
    rw [← hvalues] at hnodes
    refine endsBelow_headerTokens hnodes hwords₂ ?_ hact
    simp only [List.forall_mem_cons, List.not_mem_nil, false_implies, implies_true, and_true]
    exact ⟨Node.endsBelow_pseudoToken hfirst, Node.endsBelow_pseudoToken (hc.span 1),
      Node.endsBelow_pseudoToken hsecond, Node.endsBelow_pseudoToken (hc.span 3)⟩
  · cases h

end

end Rule

/-! ### Machines -/

namespace Machine

variable {p : ParserSetup} {m m' : Machine} {dialect : Dialect} {limit : Nat}

/-- What was read ends below a limit, and so do the tokens that are left. -/
structure EndsBelow (limit : Nat) (m : Machine) : Prop where
  staged : m.Staged
  spans : ∀ s, some s ∈ m.spans → s.EndsBelow limit
  rooted : ∃ symbols, Language.grammar.Spells m.states symbols ∧ Rooted limit symbols m.work.values
  nodes : m.work.values.nodes.EndsBelow limit
  previous : ∀ t ∈ m.previous, t.span.EndsBelow limit
  rest : ∀ t ∈ m.rest, t.EndsBelow limit

theorem endsBelow_afterShift {state target : Nat} {below : List Nat} {t : Token} {rest : List Token}
    (h : m.EndsBelow limit) (hstates : m.states = state :: below) (hrest : m.rest = t :: rest)
    (haction : Language.tables.action state t.kind = .shift target) :
    (m.afterShift p t rest target).EndsBelow limit := by
  obtain ⟨symbols, hspells, hrooted⟩ := h.rooted
  have hall := h.rest
  rw [hrest] at hall
  obtain ⟨ht, hbehind⟩ := List.forall_mem_cons.mp hall
  rw [hstates] at hspells
  have hshift := hspells.shift Language.wellFormed_grammar Language.startIsolated_grammar haction
  rw [← hstates] at hshift
  refine ⟨stands_afterShift h.staged hstates haction, fun s hs => ?_,
    ⟨_, hshift, .shift t ht.span hrooted⟩, ?_, ?_, hbehind⟩
  · rcases List.mem_cons.mp hs with hs | hs
    · exact Option.some.inj hs ▸ ht.span
    · exact h.spans s hs
  · have hsame : (m.afterShift p t rest target).work.values.nodes = m.work.values.nodes :=
      nodes_pushValue ..
    rw [hsame]
    exact h.nodes
  · intro u hu
    cases hu
    exact ht.span

/-- A reduction that makes no pseudo tokens leaves some of those that were there. -/
theorem Replaces.endsBelow {r : Rule} {lower upper : Workspace} {below : SegmentStack Node}
    (h : Replaces NodeKind.Has dialect m r m' lower upper below) (hkeeps : r.keepsTokens = true)
    (hnodes : m.work.values.nodes.EndsBelow limit) : m'.work.values.nodes.EndsBelow limit := by
  rw [h.before, SegmentStack.endsBelow_onto] at hnodes
  rw [h.after, SegmentStack.endsBelow_onto]
  refine ⟨?_, hnodes.2⟩
  obtain ⟨c, hact⟩ := h.acts
  unfold Rule.keepsTokens at hkeeps
  rcases Bool.or_eq_true_iff.mp hkeeps with hsame | hother
  · rcases Bool.or_eq_true_iff.mp hsame with hnone | hconcat
    · rw [of_decide_eq_true hnone] at hact
      cases hact
      exact hnodes.1
    · rw [of_decide_eq_true hconcat] at hact
      have hitems := SegmentStack.items_of_concat (Work.onNodes_ok hact)
      unfold SegmentStack.EndsBelow
      rw [hitems]
      exact hnodes.1
  · exact SegmentStack.endsBelow_of_fits h.roles hother

/-- **A reduction keeps pseudo tokens below the limit.** -/
theorem endsBelow_reduce {lookahead : Span} {state production : Nat} {below : List Nat}
    {kind : TokenKind} (h : m.EndsBelow limit) (hbalanced : m.Balanced False)
    (hstates : m.states = state :: below)
    (haction : Language.tables.action state kind = .reduce production)
    (hlookahead : lookahead.start + 1 < limit)
    (hreduce : reduce dialect production lookahead m = .ok () m') : m'.EndsBelow limit := by
  obtain ⟨symbols, hspells, hrooted⟩ := h.rooted
  have hstaged := staged_reduce h.staged hbalanced hstates haction hreduce
  obtain ⟨hrest, hprevious⟩ := tokens_reduce hbalanced hstates haction hreduce
  obtain ⟨staged, hspelled, hfits⟩ := h.staged
  obtain rfl := hspells.unique Language.wellFormed_grammar hspelled
  obtain ⟨r, lower, upper, kept, hrule, hreplaces⟩ :=
    replaces_of_reduce (fun _ _ h => h) hspells hfits hbalanced hstates haction hreduce
  obtain ⟨rule, origin, rest, before, target, hrule', hdrop, rfl, hgoto, _, hafter⟩ :=
    exists_rule hspells hstates haction
  obtain rfl : r = rule := Option.some.inj (hrule.symm.trans hrule')
  rw [reduce_eq hrule hdrop hgoto] at hreduce
  split at hreduce
  · cases hreduce
  · rename_i u w hact
    have hc : (m.handle r.rhs.length lookahead).EndsBelow limit :=
      ⟨fun s hs => h.spans s (List.mem_of_mem_take (List.mem_reverse.mp hs)), hlookahead⟩
    have hbegin := hrooted.begin production
    have hnodes : m'.work.values.nodes.EndsBelow limit := by
      rcases Bool.or_eq_true_iff.mp (Language.rules_show_or_keep r hreplaces.mem) with
        hshows | hkeeps
      · have hbefore : (m.popped r.rhs.length production).work.values.nodes.EndsBelow limit := h.nodes
        cases hreduce
        exact Rule.endsBelow_act hbefore hshows hc hbegin hact
      · exact hreplaces.endsBelow hkeeps h.nodes
    have hlhs := Rule.endsBelow_lhs hreplaces.mem hbegin hact
    cases hreduce
    refine ⟨hstaged, fun s hs => ?_, ⟨_, hafter, .nonterminal hlhs⟩, hnodes, ?_, ?_⟩
    · rcases List.mem_cons.mp hs with hs | hs
      · exact hc.whole? hs.symm
      · exact h.spans s (List.mem_of_mem_drop hs)
    · exact h.previous
    · exact h.rest

theorem endsBelow_recover {t : Token} {rest : List Token} (h : m.EndsBelow limit)
    (hrest : m.rest = t :: rest) : (recover p t m).2.EndsBelow limit := by
  have hkeeps := keeps_recover p t m
  have hplace : m.insertionPlace t + 1 < limit := by
    unfold insertionPlace
    cases hlast : m.previous with
    | none => exact (h.rest t (hrest ▸ List.mem_cons_self)).start_lt
    | some last => exact h.previous last hlast
  obtain ⟨hprevious, hleft⟩ := recover_cases p t m
  refine ⟨stands_recover h.staged, ?_, ?_, ?_, ?_, ?_⟩
  · rw [hkeeps.spans]
    exact h.spans
  · rw [hkeeps.states, hkeeps.values]
    exact h.rooted
  · rw [hkeeps.values]
    exact h.nodes
  · rw [hprevious]
    exact h.previous
  · rcases hleft with hsame | htail | ⟨kinds, hwhole, hfront⟩
    · rw [hsame]
      exact h.rest
    · rw [htail]
      exact fun u hu => h.rest u (List.mem_of_mem_tail hu)
    · rw [hfront]
      refine List.forall_mem_append.mpr ⟨List.forall_mem_map.mpr fun kind hkind => ?_, h.rest⟩
      refine ⟨hplace, ?_⟩
      dsimp only
      rw [TokenKind.brackets_of_whole (hwhole kind hkind)]
      exact hplace

/-- **A step keeps pseudo tokens below the limit.** -/
theorem endsBelow_step {progress : Progress} (h : m.EndsBelow limit)
    (hbalanced : m.Balanced False) (hstep : step p m = .ok progress m') : m'.EndsBelow limit := by
  obtain ⟨symbols, hspells, _⟩ := h.rooted
  obtain ⟨state, below, hstates⟩ := List.exists_cons_of_ne_nil hspells.ne_nil
  cases hrest : m.rest with
  | nil =>
      rw [step_of_no_tokens hstates hrest] at hstep
      cases hstep
  | cons t rest =>
      have hall := h.rest
      rw [hrest] at hall
      obtain ⟨ht, hbehind⟩ := List.forall_mem_cons.mp hall
      cases stepped_of_step hstates hrest hstep with
      | shift haction => exact endsBelow_afterShift h hstates hrest haction
      | reduce haction hreduce =>
          exact endsBelow_reduce h hbalanced hstates haction ht.start_lt hreduce
      | accept => exact h
      | split _ hsplit =>
          obtain ⟨hfirst, hsecond⟩ := ht.halves hsplit
          exact { h with rest :=
            List.forall_mem_cons.mpr ⟨hfirst, List.forall_mem_cons.mpr ⟨hsecond, hbehind⟩⟩ }
      | repair => exact endsBelow_recover h hrest

/-- The reductions that only waited for a token keep them there too. -/
theorem endsBelow_settle {offset gas : Nat} (h : m.EndsBelow limit) (hbalanced : m.Balanced False)
    (hoffset : offset + 1 < limit) (hsettle : settle dialect offset gas m = .ok () m') :
    m'.EndsBelow limit :=
  settle_keeps (fun _ _ _ _ _ h hbalanced hstates haction =>
    endsBelow_reduce h hbalanced hstates haction hoffset) h hbalanced hsettle

end Machine

/-! ### Runs -/

namespace Work

variable {w w' : Workspace} {c : Handle} {action : AspectAction} {take : Work Collected}

theorem mem_popFragments {fragments : List Fragment} (h : popFragments w = .ok fragments w') :
    (∀ f ∈ fragments, .fragment f ∈ w.values.nodes.items) ∧
      w'.values.nodes.items ⊆ w.values.nodes.items := by
  obtain ⟨ns, middle, hpop, hexpect⟩ := exists_of_bind (a := popNodes) h
  obtain ⟨rfl, hread⟩ := expectNode_ok hexpect
  obtain rfl := eq_of_mapM_asFragment? hread
  rw [SegmentStack.items_of_popSegment (onNodes_ok hpop)]
  refine ⟨fun f hf => List.mem_append_left _ (List.mem_reverse.mpr ?_),
    List.subset_append_right ..⟩
  exact List.mem_map_of_mem hf

theorem mem_popFragment {f : Fragment} (h : popFragment w = .ok f w') :
    .fragment f ∈ w.values.nodes.items := by
  obtain ⟨n, middle, hpop, hexpect⟩ := exists_of_bind (a := popNode) h
  obtain ⟨rfl, hread⟩ := expectNode_ok hexpect
  have hpopped := onNodes_ok hpop
  unfold SegmentStack.pop at hpopped
  split at hpopped
  · cases hpopped
  · split at hpopped
    · split at hpopped
      · cases hpopped
      · rename_i hitems
        cases n <;> cases hread
        obtain ⟨rfl, _⟩ := EStateM.Result.ok.inj hpopped
        rw [hitems]
        exact List.mem_cons_self
    · cases hpopped

/-- A run is put together from fragments on the stack and the token that ends it. -/
theorem mem_collect {collected : Collected} (h : collect? c action = some take)
    (htake : take w = .ok collected w') : ∃ fragments terminator place,
      collected.run = endRun fragments terminator place ∧
        ∀ f ∈ fragments, .fragment f ∈ w.values.nodes.items := by
  unfold collect? at h
  split at h
  · cases h
    dsimp only at htake
    split at htake
    · obtain ⟨rest, w₁, hrest, htake⟩ := exists_of_bind (a := popFragments) htake
      obtain ⟨first, w₂, hfirst, htake⟩ := exists_of_bind (a := popFragment) htake
      cases htake
      obtain ⟨hmem, hsubset⟩ := mem_popFragments hrest
      exact ⟨_, _, _, rfl, List.forall_mem_cons.mpr ⟨hsubset (mem_popFragment hfirst), hmem⟩⟩
    · rw [pure_bind] at htake
      obtain ⟨first, w₂, hfirst, htake⟩ := exists_of_bind (a := popFragment) htake
      cases htake
      exact ⟨_, _, _, rfl, List.forall_mem_cons.mpr ⟨mem_popFragment hfirst, nofun⟩⟩
  · cases h
    obtain ⟨tokens, w₁, htokens, htake⟩ := exists_of_bind (a := popFragments) htake
    cases htake
    exact ⟨_, _, _, rfl, (mem_popFragments htokens).1⟩
  · cases h
    obtain ⟨tokens, w₁, htokens, htake⟩ := exists_of_bind (a := popFragments) htake
    cases htake
    exact ⟨_, _, _, rfl, (mem_popFragments htokens).1⟩
  · cases h
    obtain ⟨body, w₁, hbody, htake⟩ := exists_of_bind (a := popFragments) htake
    obtain ⟨header, w₂, hheader, htake⟩ := exists_of_bind (a := popFragments) htake
    cases htake
    obtain ⟨hmem, hsubset⟩ := mem_popFragments hbody
    exact ⟨_, _, _, rfl, List.forall_mem_append.mpr
      ⟨fun f hf => hsubset ((mem_popFragments hheader).1 f hf), hmem⟩⟩
  · cases h
    obtain ⟨e, w₁, he, htake⟩ := exists_of_bind (a := popExpr) htake
    obtain ⟨annotationUse, w₂, hexpect, htake⟩ := exists_of_bind htake
    obtain ⟨pattern, w₃, hpattern, htake⟩ := exists_of_bind (a := popFragments) htake
    obtain ⟨header, w₄, hheader, htake⟩ := exists_of_bind (a := popFragments) htake
    cases htake
    obtain ⟨rfl, _⟩ := expectNode_ok hexpect
    obtain ⟨hmem, hsubset⟩ := mem_popFragments hpattern
    rw [← nodes_popExpr he]
    exact ⟨_, _, _, rfl, List.forall_mem_append.mpr
      ⟨fun f hf => hsubset ((mem_popFragments hheader).1 f hf), hmem⟩⟩
  · cases h

end Work

theorem PseudoToken.FitWord.infix {ts part : List PseudoToken} (h : FitWord ts)
    (hpart : part <:+: ts) : FitWord part := by
  obtain ⟨before, behind, rfl⟩ := hpart
  intro t ht
  refine h t ?_
  rw [List.append_assoc, List.dropLast_append_of_ne_nil, List.mem_append]
  · right
    cases behind with
    | nil => rwa [List.append_nil]
    | cons u behind =>
        rw [List.dropLast_append_of_ne_nil (List.cons_ne_nil u behind)]
        exact List.mem_append_left _ (List.dropLast_subset _ ht)
  · intro hnil
    rw [(List.append_eq_nil_iff.mp hnil).1] at ht
    cases ht

/-- The tokens of a run that is collected end below a limit, but for the one that ends it. -/
theorem Machine.EndsBelow.collects {limit : Nat} {m : Machine} {run : Fragment}
    (h : m.EndsBelow limit) (hrun : m.Collects run) :
    ∀ t ∈ run.tokens.dropLast, t.span.EndsBelow limit := by
  obtain ⟨state, below, kind, production, rule, action, lookahead, take, collected, w, _, _, _, _,
    htake, hcollected, rfl⟩ := hrun
  obtain ⟨fragments, terminator, place, hrun, hmem⟩ := Work.mem_collect htake hcollected
  rw [hrun, Work.tokens_endRun, List.dropLast_concat]
  intro t ht
  obtain ⟨f, hf, ht⟩ := List.mem_flatMap.mp ht
  exact h.nodes _ (hmem f hf) t ht

/-! ### Given tokens -/

theorem TokenStream.mem_of_ofTokens {tokens : List Token} {t : Token}
    (ht : t ∈ (TokenStream.ofTokens tokens).tokens) : t ∈ tokens := by
  obtain ⟨piece, hpiece, ht⟩ := List.mem_filterMap.mp ht
  obtain ⟨u, hu, rfl⟩ := List.mem_map.mp hpiece
  cases ht
  exact List.mem_of_mem_filter hu

/-- The end of given tokens is behind one of them, or at the start. -/
theorem TokenStream.endOffset_ofTokens (tokens : List Token) :
    (TokenStream.ofTokens tokens).endOffset = 0 ∨
      ∃ t ∈ tokens, (TokenStream.ofTokens tokens).endOffset = t.span.stop + 1 := by
  unfold ofTokens
  cases hlast : tokens.getLast? with
  | none => exact .inl rfl
  | some last => exact .inr ⟨last, List.mem_of_getLast? hlast, rfl⟩

namespace Parser

variable {p : Parser} {stream : TokenStream} {m : Machine} {limit : Nat}

theorem Visits.splitsBelow (h : p.Visits stream m)
    (htokens : ∀ t ∈ stream.tokens, t.SplitsBelow limit) : m.SplitsBelow limit := by
  refine h.keeps (fun _ _ _ h hbalanced => Machine.splitsBelow_step h hbalanced)
    (fun _ m m' h hbalanced hsettle => ?_) fun t ht => ?_
  · refine Machine.settle_keeps (fun _ _ _ _ _ h hbalanced hstates haction hreduce => ?_) h hbalanced
      hsettle
    unfold Machine.SplitsBelow
    rw [(Machine.tokens_reduce hbalanced hstates haction hreduce).1]
    exact h
  · rcases List.mem_append.mp ht with ht | ht
    · exact htokens t ht
    · rw [List.mem_singleton.mp ht]
      exact nofun

theorem Visits.endsBelow (h : p.Visits stream m) (htokens : ∀ t ∈ stream.tokens, t.EndsBelow limit)
    (hend : stream.endOffset + 1 < limit) : m.EndsBelow limit := by
  refine h.keeps (fun _ _ _ h hbalanced => Machine.endsBelow_step h hbalanced)
    (fun _ _ _ h hbalanced => Machine.endsBelow_settle h hbalanced hend) ?_
  have hspans : (p.start stream).spans = [none] := rfl
  have hnodes : (p.start stream).work.values.nodes.items = [] := rfl
  have hprevious : (p.start stream).previous = none := rfl
  refine ⟨p.staged_start stream, fun s hs => ?_, ⟨[], .start, .start⟩, fun n hn => ?_, fun t ht => ?_,
    fun t ht => ?_⟩
  · rw [hspans] at hs
    cases List.mem_singleton.mp hs
  · rw [hnodes] at hn
    cases hn
  · rw [hprevious] at ht
    cases ht
  · rcases List.mem_append.mp ht with ht | ht
    · exact htokens t ht
    · rw [List.mem_singleton.mp ht]
      exact ⟨hend, hend⟩

/-- On tokens within a machine word, every offset that is taken behind another one is in the word:
where an operator is split, and where the text of a part of a run is put together. -/
theorem Visits.sums_fit (h : p.Visits stream m) (hword : stream.InWord) :
    (∀ t ∈ m.rest, t.kind.halves?.isSome = true → t.span.start + 1 < UInt64.size) ∧
      ∀ run, m.Collects run → ∀ part, part <:+: run.tokens → PseudoToken.FitWord part := by
  have hsplits := h.splitsBelow fun t ht => (hword.tokens t ht).splitsBelow
  have hends := h.endsBelow hword.tokens hword.endOffset
  refine ⟨fun t ht => (hsplits t ht).start_lt, fun run hrun part hpart => ?_⟩
  have hfit : PseudoToken.FitWord run.tokens := hends.collects hrun
  exact hfit.infix hpart

end Parser

/-! ### Tokens within a machine word -/

/-- **Parsing a unit within a machine word ends with a tree and empty stacks, or when the steps run
out.**  It runs out of steps exactly if the machine still runs after the last one it may take.  The
stacks never underflow, a segment or a node is never of the wrong kind, nothing is left over, and the
tables are never found wanting.  The only other end is a text that had to be cut inside a character,
which is possible only if the text of a token cannot be cut where its kind asks for it.  Wherever an
offset behind another one is taken on the way, at a split or in a part of a run whose text is put
together, it is in the word. -/
theorem parseStream_outcome (p : Parser) (stream : TokenStream) (hword : stream.InWord) :
    ((p.parseStream stream).1 = .error (.outOfGas Parser.stepLimit) ↔
      ∃ m, Machine.Walks p.setup Parser.stepLimit (p.start stream) m) ∧
    ((∃ o, (p.parseStream stream).1 = .ok o ∧
        (p.parseStream stream).2.values.depths.isZero = true) ∨
      (p.parseStream stream).1 = .error (.outOfGas Parser.stepLimit) ∨
      (∃ text, (p.parseStream stream).1 = .error (.crash (.brokenText text))) ∧
        ∃ t ∈ stream.tokens, ¬ t.Plain) ∧
    ∀ m, p.Visits stream m →
      (∀ t ∈ m.rest, t.kind.halves?.isSome = true → t.span.start + 1 < UInt64.size) ∧
        ∀ run, m.Collects run → ∀ part, part <:+: run.tokens → PseudoToken.FitWord part := by
  refine ⟨⟨fun hresult => ?_, fun ⟨m, hwalks⟩ => Parser.parseStream_of_walks hwalks⟩, ?_,
    fun m hvisits => hvisits.sums_fit hword⟩
  · rcases p.parseStream_cases stream with ⟨o, values, hok⟩ | hwalks | ⟨_, _, hcrash⟩
    · rw [hok] at hresult
      cases hresult
    · exact hwalks
    · rw [hcrash] at hresult
      cases hresult
  · rcases p.parseStream_cases stream with
      ⟨o, values, hok⟩ | ⟨m, hwalks⟩ | ⟨reason, hadmits, hcrash⟩
    · rw [hok]
      exact .inl ⟨o, rfl, rfl⟩
    · exact .inr (.inl (Parser.parseStream_of_walks hwalks))
    · cases reason with
      | brokenText text =>
          have hnot : ¬ ∀ t ∈ stream.tokens, t.Plain := hadmits
          exact .inr (.inr ⟨⟨text, hcrash⟩, by simpa using hnot⟩)
      | offsetOverflow offset =>
          exact absurd (fun t ht => (hword.tokens t ht).splitsBelow) hadmits

theorem closed_outcome :
    (TokenStream.ofTokens closedTokens).InWord ∧
      ((∃ o, ((Parser.new {} .disabled).parseStream (.ofTokens closedTokens)).1 = .ok o ∧
          ((Parser.new {} .disabled).parseStream
            (.ofTokens closedTokens)).2.values.depths.isZero = true) ∨
        ((Parser.new {} .disabled).parseStream (.ofTokens closedTokens)).1 =
          .error (.outOfGas Parser.stepLimit)) := by
  have hword : (TokenStream.ofTokens closedTokens).InWord := by decide
  have hplain : ∀ t ∈ (TokenStream.ofTokens closedTokens).tokens, t.Plain := by decide
  refine ⟨hword, ?_⟩
  rcases (parseStream_outcome (Parser.new {} .disabled) (.ofTokens closedTokens) hword).2 with
    hok | hgas | ⟨_, t, ht, hnot⟩
  · exact .inl hok
  · exact .inr hgas
  · exact absurd (hplain t ht) hnot

theorem crashes_of_last_offset :
    (((Parser.new {} .disabled).follow?
      (nestedTokens ⟨.shiftRight, .point (UInt64.size - 1), ">>"⟩) 27 0).map
        (·.crashes (Parser.new {} .disabled).setup (.offsetOverflow (UInt64.size - 1)) 18)) =
      some true := by
  decide +kernel

/-- The offset behind a shift operator that begins at the last offset is none. -/
theorem last_offset_outcome :
    ((Parser.new {} .disabled).parseStream
      (.ofTokens (nestedTokens ⟨.shiftRight, .point (UInt64.size - 1), ">>"⟩))).1 =
      .error (.crash (.offsetOverflow (UInt64.size - 1))) := by
  have hcrashes := Parser.crashes_of_follow?
    (.ofTokens (nestedTokens ⟨.shiftRight, .point (UInt64.size - 1), ">>"⟩)) rfl rfl rfl (by decide)
    crashes_of_last_offset
  exact Parser.parseStream_of_crashes _ hcrashes (by decide)

/-! ### Tokens with ranges of their own -/

/-- **Given tokens are parsed within their texts and within a machine word.**  The tokens may have any
kinds, and ranges that are not turned around and leave the offset behind them in the word.  Then their
end fits; no text is cut inside a character if those of shift operators and string literals can be cut;
every split of a shift operator fits if no unsigned one begins at the last of these offsets; and the
offsets behind the tokens of a run, but for the one that ends it, fit if the tokens end two offsets
earlier. -/
theorem given_tokens_fit (p : Parser) (tokens : List Token)
    (hturn : ∀ t ∈ tokens, t.span.start ≤ t.span.stop)
    (hstop : ∀ t ∈ tokens, t.span.stop + 1 < UInt64.size) :
    (TokenStream.ofTokens tokens).endOffset < UInt64.size ∧
    ((∀ t ∈ tokens, t.Plain) →
      ∀ text, (p.parseStream (.ofTokens tokens)).1 ≠ .error (.crash (.brokenText text))) ∧
    ((∀ t ∈ tokens, t.kind = .shiftRightUnsigned → t.span.start + 2 < UInt64.size) →
      (∀ offset, (p.parseStream (.ofTokens tokens)).1 ≠ .error (.crash (.offsetOverflow offset))) ∧
      ∀ m, p.Visits (.ofTokens tokens) m →
        ∀ t ∈ m.rest, t.kind.halves?.isSome = true → t.span.start + 1 < UInt64.size) ∧
    ((∀ t ∈ tokens, t.span.stop + 3 < UInt64.size) →
      ∀ m, p.Visits (.ofTokens tokens) m →
        ∀ run, m.Collects run → ∀ t ∈ run.tokens.dropLast, t.span.stop + 1 < UInt64.size) := by
  have hmem : ∀ {t}, t ∈ (TokenStream.ofTokens tokens).tokens → t ∈ tokens :=
    TokenStream.mem_of_ofTokens
  refine ⟨?_, fun hplain text hbroken => ?_, fun hlast => ?_, fun hearly m hvisits run hrun => ?_⟩
  · rcases TokenStream.endOffset_ofTokens tokens with hzero | ⟨t, ht, hend⟩
    · rw [hzero]
      decide
    · rw [hend]
      exact hstop t ht
  · exact p.admits_of_crash _ hbroken fun t ht => hplain t (hmem ht)
  · have hsplits : ∀ u ∈ (TokenStream.ofTokens tokens).tokens, u.SplitsBelow UInt64.size := by
      intro u hu hsome
      have hfits := hstop u (hmem hu)
      have hturned := hturn u (hmem hu)
      have hthree := hlast u (hmem hu)
      generalize u.kind = kind at hsome hthree ⊢
      cases kind with
      | shiftRight =>
          change u.span.start + 2 ≤ UInt64.size
          omega
      | shiftRightUnsigned => exact hthree rfl
      | _ => cases hsome
    exact ⟨fun offset hoverflow => p.admits_of_crash _ hoverflow hsplits,
      fun m hvisits t ht => (hvisits.splitsBelow hsplits t ht).start_lt⟩
  · have hbelow : m.EndsBelow UInt64.size := by
      refine hvisits.endsBelow (fun u hu => ?_) ?_
      · have hfits := hearly u (hmem hu)
        have hturned := hturn u (hmem hu)
        have hbrackets := Token.brackets_le_three u.kind
        exact ⟨hstop u (hmem hu), by omega⟩
      · rcases TokenStream.endOffset_ofTokens tokens with hzero | ⟨t, ht, hend⟩
        · rw [hzero]
          decide
        · rw [hend]
          exact Nat.lt_of_succ_lt (hearly t ht)
    exact hbelow.collects hrun

/-- A shift operator alone is given well. -/
theorem brackets_given :
    (∀ text, ((Parser.new {} .disabled).parseStream
        (.ofTokens [⟨.shiftRightUnsigned, ⟨3, 5⟩, ">>>"⟩])).1 ≠
          .error (.crash (.brokenText text))) ∧
      ∀ m, (Parser.new {} .disabled).Visits (.ofTokens [⟨.shiftRightUnsigned, ⟨3, 5⟩, ">>>"⟩]) m →
        (∀ t ∈ m.rest, t.kind.halves?.isSome = true → t.span.start + 1 < UInt64.size) ∧
          ∀ run, m.Collects run → ∀ t ∈ run.tokens.dropLast, t.span.stop + 1 < UInt64.size := by
  obtain ⟨_, hcuts, hsplits, hruns⟩ := given_tokens_fit (Parser.new {} .disabled)
    [⟨.shiftRightUnsigned, ⟨3, 5⟩, ">>>"⟩] (by decide) (by decide)
  exact ⟨hcuts (by decide), fun m hvisits => ⟨(hsplits (by decide)).2 m hvisits,
    hruns (by decide) m hvisits⟩⟩

/-- Parsing a nest of brackets whose text is one letter has to cut that text inside a character. -/
theorem operator_cut_inside_character :
    (∀ t ∈ mistypedTokens, t.span.start ≤ t.span.stop ∧ t.span.stop + 1 < UInt64.size) ∧
      ∃ text, ((Parser.new {} .disabled).parseStream (.ofTokens mistypedTokens)).1 =
        .error (.crash (.brokenText text)) := by
  refine ⟨by decide, "\u00e9", ?_⟩
  have hcrashes := Parser.crashes_of_follow? (.ofTokens mistypedTokens) rfl rfl rfl (by decide)
    crashes_mistypedTokens
  exact Parser.parseStream_of_crashes _ hcrashes (by decide)

end AspectLang
