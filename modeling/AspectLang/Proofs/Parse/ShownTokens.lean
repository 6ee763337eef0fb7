import AspectLang.Proofs.Parse.CompletedDeclarations
import AspectLang.Proofs.Parse.Containment

/-! # Tokens that pseudo tokens show

The pseudo tokens on the stack of nodes show tokens that were read, in the order in which they were
read (`Machine.Trails`).  A shift puts the value of a token on top; a leaf of the grammar, such as a
literal or a modifier, keeps it there (`Nonterminal.Reads`), and the action of a pseudo token takes
it up.  Every other action takes pseudo tokens away or leaves them as they are
(`Language.rules_show`).  So the steps of a machine keep the order (`Machine.trails_step`). -/

namespace AspectLang

/-- The pseudo token that shows a token. -/
def Token.pseudo (t : Token) : PseudoToken where
  value := t.text
  isIdentifier := t.kind.isWord
  span := t.span
  literalKind := t.kind.literalKind?.map Work.literalKindWord

/-- The text of a token is the one of its kind, if the kind has one. -/
def Token.Spelled (t : Token) : Prop := ∀ text, t.kind.lexeme? = some text → t.text = text

/-- A kind that leaves no value. -/
def TokenKind.isSign (k : TokenKind) : Bool := !k.isWord && k.literalKind?.isNone

/-- The pseudo tokens in a node, without guards. -/
def Node.shown : Node → List PseudoToken
  | .fragment f => (Factory.tokensIn f).filter (·.condition.isNone)
  | _ => []

/-- The pseudo tokens in the nodes on a stack, the lowest first, without guards. -/
def SegmentStack.shown (s : SegmentStack Node) : List PseudoToken := s.toList.flatMap Node.shown

namespace SegmentStack

variable {s s' below : SegmentStack Node}

theorem shown_push (n : Node) : (s.push n).shown = s.shown ++ n.shown := by
  unfold shown toList push
  rw [List.reverse_cons, List.flatMap_append, List.flatMap_singleton]

theorem shown_pushSegment (ns : List Node) :
    (s.pushSegment ns).shown = s.shown ++ ns.flatMap Node.shown := by
  unfold shown toList pushSegment
  rw [List.reverse_append, List.reverse_reverse, List.flatMap_append]

theorem shown_onto : (s.onto below).shown = below.shown ++ s.shown := by
  unfold shown toList onto
  rw [List.reverse_append, List.flatMap_append]

theorem shown_of_items (h : s'.items = s.items) : s'.shown = s.shown := by
  unfold shown toList
  rw [h]

end SegmentStack

/-! ### Pseudo tokens of tokens -/

theorem TokenKind.literalKind?_of_isWord {k : TokenKind} (h : k.isWord = true) :
    k.literalKind? = none := by
  cases k <;> first | rfl | cases h

section

variable {f : Factory} {t : Token} {earlier : List Token}

/-- A pseudo token with the text and the range of a word shows it. -/
theorem Factory.shown_word (h : t.kind.isWord = true) :
    (Node.fragment (f.pseudoToken t.text true t.span)).shown.Sublist [t.pseudo] := by
  cases f with
  | placeholder => exact List.nil_sublist _
  | aspects =>
      unfold Token.pseudo
      rw [TokenKind.literalKind?_of_isWord h, h]
      exact List.Sublist.refl _

theorem Factory.shown_sign (h : t.kind.isSign = true) :
    (Node.fragment (f.pseudoToken t.text false t.span)).shown.Sublist [t.pseudo] := by
  obtain ⟨hword, hliteral⟩ := Bool.and_eq_true_iff.mp h
  have hword : t.kind.isWord = false := by simpa using hword
  cases f with
  | placeholder => exact List.nil_sublist _
  | aspects =>
      unfold Token.pseudo
      rw [Option.isNone_iff_eq_none.mp hliteral, hword]
      exact List.Sublist.refl _

theorem Factory.shown_literal {kind : LiteralKind} (hword : t.kind.isWord = false)
    (h : t.kind.literalKind? = some kind) :
    (Node.fragment (f.setLiteralKind (Work.literalKindWord kind)
      (f.pseudoToken t.text false t.span))).shown.Sublist [t.pseudo] := by
  cases f with
  | placeholder => exact List.nil_sublist _
  | aspects =>
      unfold Token.pseudo
      rw [h, hword]
      exact List.Sublist.refl _

theorem Factory.shown_guardToken (condition : Expr) (span : Span) :
    (Node.fragment (f.guardToken condition span)).shown = [] := by
  cases f <;> rfl

/-- What shows the token that was read last may be put behind what shows earlier ones. -/
theorem SegmentStack.shown_push_sublist {s : SegmentStack Node} {n : Node}
    (h : s.shown.Sublist (earlier.map Token.pseudo)) (hn : n.shown.Sublist [t.pseudo]) :
    (s.push n).shown.Sublist ((earlier ++ [t]).map Token.pseudo) := by
  rw [shown_push, List.map_append]
  exact h.append hn

end

/-! ### Leaves -/

/-- The nonterminals that stand for one token each and keep its value. -/
def Nonterminal.isLeaf : Nonterminal → Bool
  | .plainIdentifier | .literal | .primitiveType | .modifierKeyword => true
  | _ => false

/-- A leaf stands for a token, whose value lies on top. -/
def Nonterminal.Reads (x : Nonterminal) (t : Token) (s : ValueStacks) : Prop :=
  match x with
  | .plainIdentifier =>
    t.kind.isWord = true ∧ ∃ below, s.identifiers = SegmentStack.push ⟨t.text, t.span⟩ below
  | .literal =>
    t.kind.isWord = false ∧ ∃ kind below, t.kind.literalKind? = some kind ∧
      s.exprs = SegmentStack.push (.literal kind t.text t.span) below
  | .primitiveType =>
    t.kind.isSign = true ∧
      ∃ below, s.types = SegmentStack.push (.type (.ofPrimitive t.text t.span)) below
  | .modifierKeyword =>
    t.kind.isSign = true ∧ ∃ start flags more below, t.text = Modifiers.render flags ∧
      s.ints = start :: flags :: more ∧ s.exprs = SegmentStack.pushLength 0 below
  | _ => False

/-- How the values on the stacks come from tokens that were read: those of terminals and leaves on
top are the values of the last tokens, and the pseudo tokens below show earlier ones in order. -/
inductive Trail : List Symbol → List (Option Span) → ValueStacks → List Token → Prop
  | start {spans : List (Option Span)} {s : ValueStacks} : s.nodes.shown = [] → Trail [] spans s []
  | shift {symbols : List Symbol} {spans : List (Option Span)} {s : ValueStacks} {seen : List Token}
      (t : Token) : t.Spelled → Trail symbols spans s seen →
        Trail (.terminal t.kind :: symbols) (some t.span :: spans) (Machine.pushValue t s)
          (seen ++ [t])
  | leaf {symbols : List Symbol} {spans : List (Option Span)} {s : ValueStacks} {seen : List Token}
      {x : Nonterminal} (t : Token) : s.nodes.shown.Sublist (seen.map Token.pseudo) →
        x.Reads t s →
          Trail (.nonterminal x.index :: symbols) (some t.span :: spans) s (seen ++ [t])
  | branch {symbols : List Symbol} {spans : List (Option Span)} {s : ValueStacks}
      {seen : List Token} {x : Nonterminal} : x.isLeaf = false →
        s.nodes.shown.Sublist (seen.map Token.pseudo) →
          Trail (.nonterminal x.index :: symbols) spans s seen

namespace Trail

variable {symbols : List Symbol} {spans : List (Option Span)} {s : ValueStacks} {seen : List Token}

/-- The pseudo tokens show tokens that were read, in order. -/
theorem shown (h : Trail symbols spans s seen) :
    s.nodes.shown.Sublist (seen.map Token.pseudo) := by
  induction h with
  | start hnone =>
      rw [hnone]
      exact List.nil_sublist _
  | @shift _ _ s seen t _ _ ih =>
      rw [Machine.nodes_pushValue, List.map_append]
      exact List.sublist_append_of_sublist_left ih
  | leaf t hshown =>
      rw [List.map_append]
      exact List.sublist_append_of_sublist_left hshown
  | branch _ hshown => exact hshown

/-- It does not matter which production is reduced. -/
theorem begin (h : Trail symbols spans s seen) (production : Nat) :
    Trail symbols spans (s.begin production) seen := by
  induction h with
  | start hnone => exact .start hnone
  | @shift _ _ s _ t hspelled _ ih =>
      have hbegin : (Machine.pushValue t s).begin production =
          Machine.pushValue t (s.begin production) := by
        unfold Machine.pushValue
        split
        · rfl
        · split <;> rfl
      rw [hbegin]
      exact .shift t hspelled ih
  | leaf t hshown hreads => exact .leaf t hshown hreads
  | branch hx hshown => exact .branch hx hshown

/-- A terminal on top was just read. -/
theorem exists_shift {k : TokenKind} (h : Trail (.terminal k :: symbols) spans s seen) :
    ∃ t below lower earlier, t.kind = k ∧ t.Spelled ∧ spans = some t.span :: below ∧
      s = Machine.pushValue t lower ∧ seen = earlier ++ [t] ∧ Trail symbols below lower earlier := by
  cases h with
  | @shift _ below lower earlier t hspelled hbelow =>
      exact ⟨t, below, lower, earlier, rfl, hspelled, rfl, rfl, rfl, hbelow⟩

/-- A leaf on top was just read. -/
theorem exists_leaf {x : Nonterminal} (hx : x.isLeaf = true)
    (h : Trail (.nonterminal x.index :: symbols) spans s seen) :
    ∃ t below earlier, spans = some t.span :: below ∧ seen = earlier ++ [t] ∧ x.Reads t s ∧
      s.nodes.shown.Sublist (earlier.map Token.pseudo) := by
  generalize htop : Symbol.nonterminal x.index :: symbols = stack at h
  cases h with
  | start | shift => cases htop
  | leaf t hshown hreads =>
      obtain rfl := Nonterminal.index_injective (Symbol.nonterminal.inj (List.cons.inj htop).1)
      exact ⟨t, _, _, rfl, rfl, hreads, hshown⟩
  | branch hbranch =>
      obtain rfl := Nonterminal.index_injective (Symbol.nonterminal.inj (List.cons.inj htop).1)
      rw [hx] at hbranch
      cases hbranch

end Trail

/-! ### Values on top -/

namespace Machine

variable {t : Token} {s : ValueStacks}

theorem pushValue_of_isWord (h : t.kind.isWord = true) :
    pushValue t s = { s with identifiers := s.identifiers.push ⟨t.text, t.span⟩ } :=
  if_pos h

theorem pushValue_of_isSign (h : t.kind.isSign = true) : pushValue t s = s := by
  obtain ⟨hword, hliteral⟩ := Bool.and_eq_true_iff.mp h
  unfold pushValue
  rw [if_neg (by simpa using hword), Option.isNone_iff_eq_none.mp hliteral]

theorem pushValue_of_literal {kind : LiteralKind} (hword : t.kind.isWord = false)
    (h : t.kind.literalKind? = some kind) :
    pushValue t s = { s with exprs := s.exprs.push (.literal kind t.text t.span) } := by
  unfold pushValue
  rw [if_neg (by simp [hword]), h]

end Machine

namespace Work

variable {w w' : Workspace}

theorem popIdentifier_push {i j : Identifier} {below : SegmentStack Identifier}
    (h : w.values.identifiers = below.push i) (hpop : popIdentifier w = .ok j w') :
    j = i ∧ w'.values.identifiers = below ∧ w'.values.nodes = w.values.nodes := by
  unfold popIdentifier onStacks StackM.onIdentifiers at hpop
  rw [h] at hpop
  cases hpop
  exact ⟨rfl, rfl, rfl⟩

theorem popExpr_push {e e' : Expr} {below : SegmentStack Expr}
    (h : w.values.exprs = below.push e) (hpop : popExpr w = .ok e' w') :
    e' = e ∧ w'.values.nodes = w.values.nodes := by
  unfold popExpr onStacks StackM.onExprs at hpop
  rw [h] at hpop
  cases hpop
  exact ⟨rfl, rfl⟩

theorem popType_push {t t' : TypeRef} {below : SegmentStack TypeNode}
    (h : w.values.types = below.push (.type t)) (hpop : popType w = .ok t' w') :
    t' = t ∧ w'.values.nodes = w.values.nodes := by
  obtain ⟨n, middle, hn, hexpect⟩ := exists_of_bind hpop
  unfold onStacks StackM.onTypes at hn
  rw [h] at hn
  cases hn
  cases hexpect
  exact ⟨rfl, rfl⟩

theorem popModifiers_push {start : Nat} {flags : Modifiers} {more : List Nat}
    {below : SegmentStack Expr} {written : WrittenModifiers}
    (hints : w.values.ints = start :: flags :: more) (hexprs : w.values.exprs = below.pushLength 0)
    (hpop : popModifiers w = .ok written w') :
    written.flags = flags ∧ w'.values.nodes = w.values.nodes := by
  obtain ⟨_, w₁, hstart, hpop⟩ := exists_of_bind hpop
  unfold popInt onStacks StackM.popInt at hstart
  rw [hints] at hstart
  cases hstart
  obtain ⟨_, w₂, hflags, hpop⟩ := exists_of_bind hpop
  cases hflags
  obtain ⟨_, w₃, hnone, hpop⟩ := exists_of_bind hpop
  unfold popExprs onStacks StackM.onExprs at hnone
  dsimp only at hnone
  rw [hexprs] at hnone
  cases hnone
  cases hpop
  exact ⟨rfl, rfl⟩

theorem factoryFor_ok {dialect : Dialect} {construct : String} {span : Span} {f : Factory}
    (h : factoryFor dialect construct span w = .ok f w') : w'.values = w.values := by
  cases dialect with
  | enabled =>
      cases h
      rfl
  | disabled =>
      simp only [factoryFor] at h
      rw [get_bind] at h
      split at h <;> cases h <;> rfl

end Work

/-! ### Rules -/

namespace Rule

/-- Whether a rule makes a leaf of a token, with the value that its terminal left or stands for. -/
def readsToken (r : Rule) : Bool :=
  match r.lhs, r.rhs, r.action with
  | .plainIdentifier, [.t k], .none => k.isWord
  | .literal, [.t k], .none => !k.isWord && k.literalKind?.isSome
  | .primitiveType, [.t k], .primitiveType name => k.isSign && k.lexeme? = some name
  | .modifierKeyword, [.t k], .modifierKeyword flags =>
    k.isSign && k.lexeme? = some (Modifiers.render flags)
  | _, _, _ => false

/-- Whether a rule makes pseudo tokens of the tokens on its right side. -/
def showsTokens (r : Rule) : Bool :=
  match r.rhs, r.action with
  | [.t k], .aspect (.symbolToken k') => k = k' && k.isSign && k.lexeme?.isSome
  | [.t k], .aspect .identifierToken => k.isWord
  | [.n .plainIdentifier], .aspect .identifierToken => true
  | [.n .literal], .aspect .literalToken => true
  | [.n .modifierKeyword], .aspect .modifierToken => true
  | [.n .primitiveType], .aspect .primitiveTypeToken => true
  | _, .aspect .guardToken => true
  | [.t keyword, .t kind, .t .colon], .aspect .declareHeader => keyword.isWord && kind.isWord
  | [.t keyword, .t .atSign, .t kind, .t .colon], .aspect .declareAnnotationHeader =>
    keyword.isWord && kind.isWord
  | _, _ => false

/-- Whether a rule makes no pseudo tokens: its action leaves the nodes as they are, or what it makes
of them are other nodes. -/
def keepsTokens (r : Rule) : Bool :=
  r.action = .none || r.action = .concatNodes || r.output.nodes.all (·.role ≠ .fragment)

end Rule

theorem Language.rules_show : ∀ r ∈ rules, r.lhs.isLeaf = r.readsToken ∧
    (r.readsToken || r.showsTokens || r.keepsTokens) = true := by
  decide +kernel

theorem Span.hull_singleton (s : Span) : Span.hull [s] = some s := by
  simp [Span.hull, Span.merge]

/-- The range of a right side of one symbol is that of the symbol. -/
theorem Handle.whole?_one (span : Option Span) (lookahead : Span) :
    (Handle.mk [span] lookahead).whole? = span := by
  unfold Handle.whole?
  cases span with
  | none => rfl
  | some s => exact Span.hull_singleton s

/-! ### Actions -/

namespace Rule

variable {r : Rule} {dialect : Dialect} {lookahead : Span} {w w' : Workspace} {t : Token}
  {before : List Symbol} {spans : List (Option Span)} {seen : List Token}

/-- The right side of a leaf is one terminal. -/
theorem exists_rhs_of_readsToken (h : r.readsToken = true) : ∃ k, r.rhs = [.t k] := by
  obtain ⟨lhs, rhs, action⟩ := r
  unfold readsToken at h
  split at h
  · rename_i hrhs _
    exact ⟨_, hrhs⟩
  · rename_i hrhs _
    exact ⟨_, hrhs⟩
  · rename_i hrhs _
    exact ⟨_, hrhs⟩
  · rename_i hrhs _
    exact ⟨_, hrhs⟩
  · cases h

/-- The action of a leaf leaves the value of its token on top. -/
theorem reads_act {k : TokenKind} {s : ValueStacks} (h : r.readsToken = true) (hrhs : r.rhs = [.t k])
    (ht : t.kind = k) (hspelled : t.Spelled) (hw : w.values = Machine.pushValue t s)
    (hact : Work.act dialect ⟨[some t.span], lookahead⟩ r.action w = .ok () w') :
    r.lhs.Reads t w'.values ∧ w'.values.nodes = w.values.nodes := by
  obtain ⟨lhs, rhs, action⟩ := r
  obtain rfl : rhs = [.t k] := hrhs
  subst ht
  unfold readsToken at h
  split at h
  · rename_i hlhs hrhs haction
    obtain rfl : lhs = _ := hlhs
    obtain rfl : action = _ := haction
    cases hrhs
    cases hact
    rw [hw, Machine.pushValue_of_isWord h]
    exact ⟨⟨h, _, rfl⟩, rfl⟩
  · rename_i hlhs hrhs haction
    obtain rfl : lhs = _ := hlhs
    obtain rfl : action = _ := haction
    cases hrhs
    cases hact
    obtain ⟨hword, hliteral⟩ := Bool.and_eq_true_iff.mp h
    obtain ⟨kind, hkind⟩ := Option.isSome_iff_exists.mp hliteral
    have hword : t.kind.isWord = false := by simpa using hword
    rw [hw, Machine.pushValue_of_literal hword hkind]
    exact ⟨⟨hword, kind, _, hkind, rfl⟩, rfl⟩
  · rename_i hlhs hrhs haction
    obtain rfl : lhs = _ := hlhs
    obtain rfl : action = _ := haction
    cases hrhs
    cases hact
    obtain ⟨hsign, hlexeme⟩ := Bool.and_eq_true_iff.mp h
    rw [← hspelled _ (of_decide_eq_true hlexeme)]
    exact ⟨⟨hsign, _, rfl⟩, rfl⟩
  · rename_i hlhs hrhs haction
    obtain rfl : lhs = _ := hlhs
    obtain rfl : action = _ := haction
    cases hrhs
    cases hact
    obtain ⟨hsign, hlexeme⟩ := Bool.and_eq_true_iff.mp h
    exact ⟨⟨hsign, _, _, _, _, hspelled _ (of_decide_eq_true hlexeme), rfl, rfl⟩, rfl⟩
  · cases h

/-- What a leaf leaves: the value of a token that was read last. -/
theorem trail_leaf (h : r.readsToken = true)
    (htrail : Trail ((r.rhs.map RuleSymbol.symbol).reverse ++ before) spans w.values seen)
    (hact : Work.act dialect ⟨(spans.take r.rhs.length).reverse, lookahead⟩ r.action w = .ok () w') :
    Trail (.nonterminal r.lhs.index :: before)
      ((Handle.mk (spans.take r.rhs.length).reverse lookahead).whole? ::
        spans.drop r.rhs.length) w'.values seen := by
  obtain ⟨k, hrhs⟩ := exists_rhs_of_readsToken h
  rw [hrhs] at htrail hact ⊢
  obtain ⟨t, below, lower, earlier, hkind, hspelled, rfl, hw, rfl, hbelow⟩ := htrail.exists_shift
  obtain ⟨hreads, hnodes⟩ := reads_act h hrhs hkind hspelled hw hact
  have hwhole := Handle.whole?_one (some t.span) lookahead
  change Trail _ ((Handle.mk [some t.span] lookahead).whole? :: below) _ _
  rw [hwhole]
  refine .leaf t ?_ hreads
  rw [hnodes, hw, Machine.nodes_pushValue]
  exact hbelow.shown

end Rule

section

variable {dialect : Dialect} {c : Handle} {w w' : Workspace} {t : Token} {earlier : List Token}

/-- Aspect actions work for some factory on the same values. -/
theorem Work.exists_factory {construct : String} {span : Span} {body : Factory → Work Unit}
    (h : (factoryFor dialect construct span >>= body) w = .ok () w') :
    ∃ f middle, middle.values = w.values ∧ body f middle = .ok () w' := by
  obtain ⟨f, middle, hfactory, hbody⟩ := exists_of_bind h
  exact ⟨f, middle, factoryFor_ok hfactory, hbody⟩

theorem Work.pushNode_ok {n : Node} (h : pushNode n w = .ok () w') :
    w'.values.nodes = w.values.nodes.push n := by
  cases h
  rfl

theorem Work.nodes_popExpr {e : Expr} (h : popExpr w = .ok e w') :
    w'.values.nodes = w.values.nodes := by
  unfold popExpr onStacks StackM.onExprs at h
  cases hop : SegmentStack.pop w.values.exprs <;> rw [hop] at h <;> cases h
  rfl

theorem Work.pushNodes_ok {ns : List Node} (h : pushNodes ns w = .ok () w') :
    w'.values.nodes = w.values.nodes.pushSegment ns := by
  cases h
  rfl

theorem shown_guardToken (hact : Work.act dialect c (.aspect .guardToken) w = .ok () w') :
    w'.values.nodes.shown = w.values.nodes.shown := by
  obtain ⟨f, middle, hvalues, hact⟩ := Work.exists_factory hact
  obtain ⟨condition, popped, hpop, hpush⟩ := exists_of_bind (a := Work.popExpr) hact
  rw [Work.pushNode_ok hpush, SegmentStack.shown_push, Factory.shown_guardToken, List.append_nil,
    Work.nodes_popExpr hpop, hvalues]

variable (hshown : w.values.nodes.shown.Sublist (earlier.map Token.pseudo))

include hshown

theorem shown_symbolToken {k : TokenKind} (hsign : t.kind.isSign = true)
    (htext : k.grammarName = t.text) (hc : c.span 0 = t.span)
    (hact : Work.act dialect c (.aspect (.symbolToken k)) w = .ok () w') :
    w'.values.nodes.shown.Sublist ((earlier ++ [t]).map Token.pseudo) := by
  obtain ⟨f, middle, hvalues, hact⟩ := Work.exists_factory hact
  rw [Work.pushNode_ok hact, hvalues, htext, hc]
  exact SegmentStack.shown_push_sublist hshown (Factory.shown_sign hsign)

theorem shown_identifierToken (hreads : Nonterminal.Reads .plainIdentifier t w.values)
    (hact : Work.act dialect c (.aspect .identifierToken) w = .ok () w') :
    w'.values.nodes.shown.Sublist ((earlier ++ [t]).map Token.pseudo) := by
  obtain ⟨hword, below, hidentifiers⟩ := hreads
  obtain ⟨f, middle, hvalues, hact⟩ := Work.exists_factory hact
  obtain ⟨word, popped, hpop, hpush⟩ := exists_of_bind (a := Work.popIdentifier) hact
  rw [← hvalues] at hidentifiers hshown
  obtain ⟨rfl, _, hnodes⟩ := Work.popIdentifier_push hidentifiers hpop
  rw [Work.pushNode_ok hpush, hnodes]
  exact SegmentStack.shown_push_sublist hshown (Factory.shown_word hword)

theorem shown_literalToken (hreads : Nonterminal.Reads .literal t w.values)
    (hact : Work.act dialect c (.aspect .literalToken) w = .ok () w') :
    w'.values.nodes.shown.Sublist ((earlier ++ [t]).map Token.pseudo) := by
  obtain ⟨hword, kind, below, hkind, hexprs⟩ := hreads
  obtain ⟨f, middle, hvalues, hact⟩ := Work.exists_factory hact
  obtain ⟨e, popped, hpop, hpush⟩ := exists_of_bind (a := Work.popExpr) hact
  rw [← hvalues] at hexprs hshown
  obtain ⟨rfl, hnodes⟩ := Work.popExpr_push hexprs hpop
  rw [Work.pushNode_ok hpush, hnodes]
  exact SegmentStack.shown_push_sublist hshown (Factory.shown_literal hword hkind)

theorem shown_modifierToken (hreads : Nonterminal.Reads .modifierKeyword t w.values)
    (hc : c.span 0 = t.span)
    (hact : Work.act dialect c (.aspect .modifierToken) w = .ok () w') :
    w'.values.nodes.shown.Sublist ((earlier ++ [t]).map Token.pseudo) := by
  obtain ⟨hsign, start, flags, more, below, htext, hints, hexprs⟩ := hreads
  obtain ⟨f, middle, hvalues, hact⟩ := Work.exists_factory hact
  obtain ⟨written, popped, hpop, hpush⟩ := exists_of_bind (a := Work.popModifiers) hact
  rw [← hvalues] at hints hexprs hshown
  obtain ⟨hflags, hnodes⟩ := Work.popModifiers_push hints hexprs hpop
  rw [Work.pushNode_ok hpush, hnodes, hflags, ← htext, hc]
  exact SegmentStack.shown_push_sublist hshown (Factory.shown_sign hsign)

theorem shown_primitiveTypeToken (hreads : Nonterminal.Reads .primitiveType t w.values)
    (hc : c.span 0 = t.span)
    (hact : Work.act dialect c (.aspect .primitiveTypeToken) w = .ok () w') :
    w'.values.nodes.shown.Sublist ((earlier ++ [t]).map Token.pseudo) := by
  obtain ⟨hsign, below, htypes⟩ := hreads
  obtain ⟨f, middle, hvalues, hact⟩ := Work.exists_factory hact
  obtain ⟨type, popped, hpop, hpush⟩ := exists_of_bind (a := Work.popType) hact
  rw [← hvalues] at htypes hshown
  obtain ⟨rfl, hnodes⟩ := Work.popType_push htypes hpop
  rw [Work.pushNode_ok hpush, hnodes, hc]
  exact SegmentStack.shown_push_sublist hshown (Factory.shown_sign hsign)

end

/-! ### Reductions -/

/-- A word on top was just read; the next sign keeps it there. -/
theorem Trail.exists_word {k : TokenKind} {symbols : List Symbol} {spans : List (Option Span)}
    {s : ValueStacks} {seen : List Token} (hk : k.isWord = true)
    (h : Trail (.terminal k :: symbols) spans s seen) :
    ∃ t below lower earlier, t.kind.isWord = true ∧ spans = some t.span :: below ∧
      s.identifiers = SegmentStack.push ⟨t.text, t.span⟩ lower.identifiers ∧
        s.nodes = lower.nodes ∧ seen = earlier ++ [t] ∧ Trail symbols below lower earlier := by
  obtain ⟨t, below, lower, earlier, rfl, _, hspans, rfl, hseen, hbelow⟩ := h.exists_shift
  rw [Machine.pushValue_of_isWord hk]
  exact ⟨t, below, lower, earlier, hk, hspans, rfl, rfl, hseen, hbelow⟩

/-- A sign on top was just read. -/
theorem Trail.exists_sign {k : TokenKind} {symbols : List Symbol} {spans : List (Option Span)}
    {s : ValueStacks} {seen : List Token} {text : String} (hk : k.isSign = true)
    (htext : k.lexeme? = some text) (h : Trail (.terminal k :: symbols) spans s seen) :
    ∃ t below earlier, t.kind.isSign = true ∧ t.text = text ∧ spans = some t.span :: below ∧
      seen = earlier ++ [t] ∧ Trail symbols below s earlier := by
  obtain ⟨t, below, lower, earlier, rfl, hspelled, hspans, rfl, hseen, hbelow⟩ := h.exists_shift
  rw [Machine.pushValue_of_isSign hk]
  exact ⟨t, below, earlier, hk, hspelled text htext, hspans, hseen, hbelow⟩

namespace Rule

variable {r : Rule} {dialect : Dialect} {lookahead : Span} {w w' : Workspace} {before : List Symbol}
  {spans : List (Option Span)} {seen : List Token}

/-- The first tokens of a declare statement are shown in order. -/
theorem shown_declareHeader {keyword kind : TokenKind} (hkeyword : keyword.isWord = true)
    (hkind : kind.isWord = true)
    (htrail : Trail (.terminal .colon :: .terminal kind :: .terminal keyword :: before) spans
      w.values seen)
    (hact : Work.act dialect ⟨(spans.take 3).reverse, lookahead⟩ (.aspect .declareHeader) w =
      .ok () w') : w'.values.nodes.shown.Sublist (seen.map Token.pseudo) := by
  obtain ⟨colon, _, _, hcolon, htext, rfl, rfl, htrail₁⟩ := htrail.exists_sign (by decide) rfl
  obtain ⟨second, _, _, _, hsecond, rfl, hwords₂, hnodes₂, rfl, htrail₂⟩ :=
    htrail₁.exists_word hkind
  obtain ⟨first, _, lower, earlier, hfirst, rfl, hwords₁, hnodes₁, rfl, htrail₃⟩ :=
    htrail₂.exists_word hkeyword
  obtain ⟨f, start, hvalues, hact⟩ := Work.exists_factory hact
  obtain ⟨_, middle, hpop₂, hact⟩ := exists_of_bind (a := Work.popIdentifier) hact
  obtain ⟨_, popped, hpop₁, hpush⟩ := exists_of_bind (a := Work.popIdentifier) hact
  rw [← hvalues] at hwords₂ hnodes₂
  obtain ⟨rfl, hrest, hmiddle⟩ := Work.popIdentifier_push hwords₂ hpop₂
  obtain ⟨rfl, _, hpopped⟩ := Work.popIdentifier_push (hrest.trans hwords₁) hpop₁
  rw [Work.pushNodes_ok hpush, SegmentStack.shown_pushSegment, hpopped, hmiddle, hnodes₂, hnodes₁,
    ← htext]
  have hthree := ((htrail₃.shown.append (Factory.shown_word (f := f) hfirst)).append
    (Factory.shown_word (f := f) hsecond)).append (Factory.shown_sign (f := f) hcolon)
  simpa [List.append_assoc, Handle.span] using hthree

/-- So are those of a declared annotation. -/
theorem shown_declareAnnotationHeader {keyword kind : TokenKind} (hkeyword : keyword.isWord = true)
    (hkind : kind.isWord = true)
    (htrail : Trail (.terminal .colon :: .terminal kind :: .terminal .atSign ::
      .terminal keyword :: before) spans w.values seen)
    (hact : Work.act dialect ⟨(spans.take 4).reverse, lookahead⟩
      (.aspect .declareAnnotationHeader) w = .ok () w') :
    w'.values.nodes.shown.Sublist (seen.map Token.pseudo) := by
  obtain ⟨colon, _, _, hcolon, htext, rfl, rfl, htrail₁⟩ := htrail.exists_sign (by decide) rfl
  obtain ⟨second, _, _, _, hsecond, rfl, hwords₂, hnodes₂, rfl, htrail₂⟩ :=
    htrail₁.exists_word hkind
  obtain ⟨sign, _, _, hsign, htext', rfl, rfl, htrail₃⟩ := htrail₂.exists_sign (by decide) rfl
  obtain ⟨first, _, lower, earlier, hfirst, rfl, hwords₁, hnodes₁, rfl, htrail₄⟩ :=
    htrail₃.exists_word hkeyword
  obtain ⟨f, start, hvalues, hact⟩ := Work.exists_factory hact
  obtain ⟨_, middle, hpop₂, hact⟩ := exists_of_bind (a := Work.popIdentifier) hact
  obtain ⟨_, popped, hpop₁, hpush⟩ := exists_of_bind (a := Work.popIdentifier) hact
  rw [← hvalues] at hwords₂ hnodes₂
  obtain ⟨rfl, hrest, hmiddle⟩ := Work.popIdentifier_push hwords₂ hpop₂
  obtain ⟨rfl, _, hpopped⟩ := Work.popIdentifier_push (hrest.trans hwords₁) hpop₁
  rw [Work.pushNodes_ok hpush, SegmentStack.shown_pushSegment, hpopped, hmiddle, hnodes₂, hnodes₁,
    ← htext, ← htext']
  have hfour := (((htrail₄.shown.append (Factory.shown_word (f := f) hfirst)).append
    (Factory.shown_sign (f := f) hsign)).append (Factory.shown_word (f := f) hsecond)).append
      (Factory.shown_sign (f := f) hcolon)
  simpa [List.append_assoc, Handle.span] using hfour

/-- The pseudo tokens that a rule makes show the tokens on its right side. -/
theorem shown_act (h : r.showsTokens = true)
    (htrail : Trail ((r.rhs.map RuleSymbol.symbol).reverse ++ before) spans w.values seen)
    (hact : Work.act dialect ⟨(spans.take r.rhs.length).reverse, lookahead⟩ r.action w = .ok () w') :
    w'.values.nodes.shown.Sublist (seen.map Token.pseudo) := by
  obtain ⟨lhs, rhs, action⟩ := r
  unfold showsTokens at h
  split at h
  · rename_i k k' hrhs haction
    obtain rfl : rhs = _ := hrhs
    obtain rfl : action = _ := haction
    simp only [Bool.and_eq_true, decide_eq_true_eq] at h
    obtain ⟨⟨rfl, hsign⟩, hlexeme⟩ := h
    obtain ⟨text, hlexeme⟩ := Option.isSome_iff_exists.mp hlexeme
    obtain ⟨t, _, _, hsign, htext, rfl, rfl, hbelow⟩ := htrail.exists_sign hsign hlexeme
    refine shown_symbolToken hbelow.shown hsign ?_ rfl hact
    unfold TokenKind.grammarName
    rw [hlexeme, htext]
    rfl
  · rename_i k hrhs haction
    obtain rfl : rhs = _ := hrhs
    obtain rfl : action = _ := haction
    obtain ⟨t, _, lower, _, hword, rfl, hidentifiers, hnodes, rfl, hbelow⟩ := htrail.exists_word h
    refine shown_identifierToken ?_ ⟨hword, _, hidentifiers⟩ hact
    rw [hnodes]
    exact hbelow.shown
  · rename_i hrhs haction
    obtain rfl : rhs = _ := hrhs
    obtain rfl : action = _ := haction
    obtain ⟨t, _, _, rfl, rfl, hreads, hshown⟩ := htrail.exists_leaf rfl
    exact shown_identifierToken hshown hreads hact
  · rename_i hrhs haction
    obtain rfl : rhs = _ := hrhs
    obtain rfl : action = _ := haction
    obtain ⟨t, _, _, rfl, rfl, hreads, hshown⟩ := htrail.exists_leaf rfl
    exact shown_literalToken hshown hreads hact
  · rename_i hrhs haction
    obtain rfl : rhs = _ := hrhs
    obtain rfl : action = _ := haction
    obtain ⟨t, _, _, rfl, rfl, hreads, hshown⟩ := htrail.exists_leaf rfl
    exact shown_modifierToken hshown hreads rfl hact
  · rename_i hrhs haction
    obtain rfl : rhs = _ := hrhs
    obtain rfl : action = _ := haction
    obtain ⟨t, _, _, rfl, rfl, hreads, hshown⟩ := htrail.exists_leaf rfl
    exact shown_primitiveTypeToken hshown hreads rfl hact
  · rename_i haction
    obtain rfl : action = _ := haction
    rw [shown_guardToken hact]
    exact htrail.shown
  · rename_i keyword kind hrhs haction
    obtain rfl : rhs = _ := hrhs
    obtain rfl : action = _ := haction
    obtain ⟨hkeyword, hkind⟩ := Bool.and_eq_true_iff.mp h
    exact shown_declareHeader hkeyword hkind htrail hact
  · rename_i keyword kind hrhs haction
    obtain rfl : rhs = _ := hrhs
    obtain rfl : action = _ := haction
    obtain ⟨hkeyword, hkind⟩ := Bool.and_eq_true_iff.mp h
    exact shown_declareAnnotationHeader hkeyword hkind htrail hact
  · cases h

end Rule

/-- Only fragments have pseudo tokens. -/
theorem NodeRole.shown_of_has {plain : Prop} {k : NodeRole} {n : Node} (hk : k ≠ .fragment)
    (h : k.Has plain n) : n.shown = [] := by
  cases n with
  | fragment f => cases k <;> first | exact absurd rfl hk | cases h
  | _ => rfl

theorem SegmentStack.shown_of_fits {plain : Prop} {s : SegmentStack Node}
    {shapes : List (Shape NodeRole)} (h : s.Fits (NodeRole.Has plain) shapes)
    (hnone : shapes.all (·.role ≠ .fragment) = true) : s.shown = [] := by
  refine List.flatMap_eq_nil_iff.mpr fun n hn => ?_
  obtain ⟨shape, hshape, hhas⟩ := h.exists_shape (List.mem_reverse.mp hn)
  exact NodeRole.shown_of_has (by simpa using List.all_eq_true.mp hnone shape hshape) hhas

namespace Machine

variable {p : ParserSetup} {m m' : Machine} {dialect : Dialect} {r : Rule} {seen : List Token}

/-- A reduction that makes no pseudo tokens leaves some of those that were there. -/
theorem Replaces.shown {lower upper : Workspace} {below : SegmentStack Node}
    (h : Replaces NodeKind.Has dialect m r m' lower upper below) (hkeeps : r.keepsTokens = true) :
    m'.work.values.nodes.shown.Sublist m.work.values.nodes.shown := by
  rw [h.before, h.after, SegmentStack.shown_onto, SegmentStack.shown_onto]
  refine (List.Sublist.refl _).append ?_
  obtain ⟨c, hact⟩ := h.acts
  unfold Rule.keepsTokens at hkeeps
  rcases Bool.or_eq_true_iff.mp hkeeps with hsame | hother
  · rcases Bool.or_eq_true_iff.mp hsame with hnone | hconcat
    · rw [of_decide_eq_true hnone] at hact
      cases hact
      exact List.Sublist.refl _
    · rw [of_decide_eq_true hconcat] at hact
      have hitems := SegmentStack.items_of_concat (Work.onNodes_ok hact)
      rw [SegmentStack.shown_of_items hitems]
  · rw [SegmentStack.shown_of_fits h.roles hother]
    exact List.nil_sublist _

/-- The values come from tokens that were read. -/
def Trails (m : Machine) (seen : List Token) : Prop :=
  ∃ symbols, Language.grammar.Spells m.states symbols ∧ Trail symbols m.spans m.work.values seen

theorem trails_afterShift {state target : Nat} {below : List Nat} {t : Token} {rest : List Token}
    (h : m.Trails seen) (ht : t.Spelled) (hstates : m.states = state :: below)
    (haction : Language.tables.action state t.kind = .shift target) :
    (m.afterShift p t rest target).Trails (seen ++ [t]) := by
  obtain ⟨symbols, hspells, htrail⟩ := h
  rw [hstates] at hspells
  have hshift := hspells.shift Language.wellFormed_grammar Language.startIsolated_grammar haction
  rw [← hstates] at hshift
  exact ⟨_, hshift, .shift t ht htrail⟩

/-- **A reduction keeps the order in which pseudo tokens show what was read.** -/
theorem trails_reduce {lookahead : Span} {state production : Nat} {below : List Nat}
    {kind : TokenKind} (h : m.Trails seen) (hstaged : m.Staged) (hbalanced : m.Balanced False)
    (hstates : m.states = state :: below)
    (haction : Language.tables.action state kind = .reduce production)
    (hreduce : reduce dialect production lookahead m = .ok () m') : m'.Trails seen := by
  obtain ⟨symbols, hspells, htrail⟩ := h
  obtain ⟨staged, hspelled, hfits⟩ := hstaged
  obtain rfl := hspells.unique Language.wellFormed_grammar hspelled
  obtain ⟨r, lower, upper, kept, hrule, hreplaces⟩ :=
    replaces_of_reduce (fun _ _ h => h) hspells hfits hbalanced hstates haction hreduce
  obtain ⟨rule, origin, rest, before, target, hrule', hdrop, rfl, hgoto, _, hafter⟩ :=
    exists_rule hspells hstates haction
  obtain rfl : r = rule := Option.some.inj (hrule.symm.trans hrule')
  obtain ⟨hleaf, hforms⟩ := Language.rules_show r hreplaces.mem
  rw [reduce_eq hrule hdrop hgoto] at hreduce
  split at hreduce
  · cases hreduce
  · rename_i u w hact
    cases hreduce
    have hbegin := htrail.begin production
    refine ⟨_, hafter, ?_⟩
    cases hreads : r.readsToken with
    | true => exact Rule.trail_leaf hreads hbegin hact
    | false =>
        rw [hreads] at hleaf hforms
        refine .branch hleaf ?_
        rcases Bool.or_eq_true_iff.mp hforms with hshows | hkeeps
        · exact Rule.shown_act hshows hbegin hact
        · exact (hreplaces.shown hkeeps).trans htrail.shown

end Machine

end AspectLang
