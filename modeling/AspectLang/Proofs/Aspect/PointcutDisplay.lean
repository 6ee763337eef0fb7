import AspectLang.Proofs.Aspect.PointcutChains
import AspectLang.Proofs.Aspect.TopLevelSplitting
import AspectLang.Proofs.Parse.ShownTokens
import AspectLang.Proofs.Aspect.RunTexts

/-! # Pointcuts are read again from their texts

The text of a pointcut that was read from the tokens of a source is put together from pieces
(`Pointcut.Shown`): names and patterns are excerpts of the source, and the signs between them are
those of the grammar.  The pieces are legible in front of whatever follows them there, and so the
scanner finds the tokens again of which the text was made.  From these the grammar derives the
pointcut once more, but for the ranges and for the grouping of its chains
(`Pointcut.tokenize_render`). -/

namespace AspectLang

open Scanner TokenKind

/-! ### Tokens of pieces -/

namespace Scanner

variable {source : String} {rest : List Char} {t : Token} {ts us : List Token} {k : TokenKind}
  {ps qs : List Piece}

theorem placed_append (offset : Nat) (ps qs : List Piece) :
    placed offset (ps ++ qs) = placed offset ps ++ placed (offset + Text.byteSize (spell ps)) qs := by
  induction ps generalizing offset with
  | nil => rfl
  | cons p ps ih =>
      cases p with
      | blank =>
          have hsize : Text.byteSize (spell (.blank :: ps)) = 1 + Text.byteSize (spell ps) := by
            change Text.byteSize ([' '] ++ spell ps) = _
            rw [Text.byteSize_append]
            rfl
          rw [List.cons_append, placed, placed, ih, hsize, Nat.add_assoc]
      | token k w =>
          have hsize : Text.byteSize (spell (.token k w :: ps)) =
              Text.byteSize w + Text.byteSize (spell ps) := Text.byteSize_append w _
          rw [List.cons_append, placed, placed, ih, hsize, Nat.add_assoc, List.cons_append]

theorem Legible.firstCover (h : Legible ps rest) {offset : Nat} (ht : t ∈ placed offset ps) :
    FirstCover patterns t.text.toList t.kind := by
  induction ps generalizing offset with
  | nil => cases ht
  | cons p ps ih =>
      cases p with
      | blank => exact ih h.2 ht
      | token k w =>
          obtain ⟨_, htakes, hrest⟩ := h
          rcases List.mem_cons.mp ht with rfl | ht
          · rw [String.toList_ofList]
            exact htakes.first
          · exact ih hrest ht

theorem Excerpt.sublist (h : Excerpt source ts) (hus : us.Sublist ts) : Excerpt source us :=
  ⟨fun t ht => h.origin t (hus.subset ht), h.order.sublist hus⟩

/-- A token of an excerpt is taken where nothing follows it. -/
theorem Excerpt.takes_alone (h : Excerpt source ts) (ht : t ∈ ts) :
    t.kind.isTrivia = false ∧ Takes t.kind t.text.toList [] := by
  have hone : Excerpt source [t] := h.sublist (List.singleton_sublist.mpr ht)
  have hbreaks : Breaks [] := nofun
  obtain ⟨htrivia, htakes, _⟩ := hone.legible hbreaks
  exact ⟨htrivia, htakes⟩

/-- A sign has the kind of its text. -/
theorem kind_of_sign (h : FirstCover patterns t.text.toList t.kind) (hk : k ∈ soleSigns)
    (htext : t.text = k.grammarName) : t.kind = k := by
  rw [htext] at h
  exact h.unique (takes_soleSign hk []).first

/-- The piece of a sign. -/
def sign (k : TokenKind) : Piece := .token k k.grammarName.toList

theorem legible_sign (hk : k ∈ soleSigns) (htrivia : k.isTrivia = false) (h : Legible ps rest) :
    Legible (sign k :: ps) rest :=
  ⟨htrivia, takes_soleSign hk _, h⟩

end Scanner

/-- The pseudo tokens of the tokens among pieces. -/
def pseudosOf (offset : Nat) (ps : List Piece) : List PseudoToken :=
  (placed offset ps).map Token.pseudo

theorem exists_pseudosOf_append (offset : Nat) (ps qs : List Piece) :
    ∃ offset', pseudosOf offset (ps ++ qs) = pseudosOf offset ps ++ pseudosOf offset' qs := by
  refine ⟨offset + Text.byteSize (spell ps), ?_⟩
  unfold pseudosOf
  rw [placed_append, List.map_append]

theorem pseudosOf_sign (offset : Nat) (k : TokenKind) (ps : List Piece) :
    ∃ t offset', pseudosOf offset (sign k :: ps) = t :: pseudosOf offset' ps ∧
      t.is k.grammarName = true := by
  refine ⟨_, _, rfl, ?_⟩
  rw [PseudoToken.is_eq_true_iff]
  exact ⟨rfl, String.ofList_toList⟩

namespace Pointcut

open PseudoToken

variable {source : String} {rest : List Char}

/-! ### Pieces of a pointcut -/

/-- Pieces begin with a character that cannot belong to what stands in front of them. -/
def Opens (ps : List Piece) : Prop := ∃ c cs, spell ps = c :: cs ∧ c ≠ '=' ∧ c ∉ blanks

/-- Pieces make up a text for a pointcut: they are legible in front of a character that no token
reaches over, and wherever they stand, a nonterminal derives from their tokens what stands for the
pointcut. -/
structure Shown (level : Level) (p : Pointcut) (text : String) (ps : List Piece) : Prop where
  text : spell ps = text.toList
  opens : Opens ps
  legible : ∀ rest, Breaks rest → Legible ps rest
  reads : ∀ offset, ∃ q, Derives ReadsName level (pseudosOf offset ps) q ∧ StandsFor q p

/-- The nonterminal that derives a pointcut without parentheses around it. -/
def level : Pointcut → Level
  | .or _ _ => .or
  | .and _ _ => .and
  | _ => .unary

/-- The nonterminal of the operands of an operator that binds with strength `parent`. -/
def operandLevel (parent : Nat) : Level :=
  if parent = 1 then .or else if parent = 2 then .and else .unary

/-- The pieces of an operand of an operator that binds with strength `parent`. -/
def operandPieces (parent : Nat) (p : Pointcut) (ps : List Piece) : List Piece :=
  if p.precedence < parent then sign .lParen :: (ps ++ [sign .rParen]) else ps

variable {p q : Pointcut} {ps qs : List Piece}

theorem Derives.operand {named : Naming} {ts : List PseudoToken} {parent : Nat}
    (h : Derives named p.level ts q) (hparent : 0 < parent) (hle : parent ≤ p.precedence) :
    Derives named (operandLevel parent) ts q := by
  unfold operandLevel
  split
  · exact h.outermost
  · split
    · cases p with
      | or =>
          simp only [precedence] at hle
          omega
      | and => exact h
      | _ => exact .conjunct h
    · cases p with
      | or | and =>
          simp only [precedence] at hle
          omega
      | _ => exact h

theorem breaks_sign {k : TokenKind} (hk : k ∈ separators) (ps : List Piece) (rest : List Char) :
    Breaks (spell (sign k :: ps) ++ rest) := by
  obtain ⟨hsole, _, hbreak⟩ := separators_break k hk
  obtain ⟨c, w, hw⟩ := List.exists_cons_of_ne_nil (liveAfter_soleSigns k hsole).2
  change Breaks (k.grammarName.toList ++ spell ps ++ rest)
  rw [hw] at hbreak ⊢
  exact hbreak

theorem Shown.operand {parent : Nat} (h : Shown p.level p p.render ps) (hparent : 0 < parent) :
    Shown (operandLevel parent) p (render.operand parent p.precedence p.render)
      (operandPieces parent p ps) := by
  unfold operandPieces render.operand
  split
  · refine ⟨?_, ⟨'(', _, rfl, by decide, by decide⟩, fun rest hrest => ?_, fun offset => ?_⟩
    · change ['('] ++ spell (ps ++ [sign .rParen]) = _
      rw [spell_append, h.text, String.toList_append, String.toList_append]
      rfl
    · refine legible_sign (by decide) rfl (legible_append.mpr ⟨h.legible _ ?_, ?_⟩)
      · exact breaks_sign (by decide) _ _
      · exact legible_sign (by decide) rfl trivial
    · obtain ⟨opening, offset₁, htokens, hopening⟩ :=
        pseudosOf_sign offset .lParen (ps ++ [sign .rParen])
      obtain ⟨offset₂, hinner⟩ := exists_pseudosOf_append offset₁ ps [sign .rParen]
      obtain ⟨closing, offset₃, hlast, hclosing⟩ := pseudosOf_sign offset₂ .rParen []
      obtain ⟨q, hq, hstands⟩ := h.reads offset₁
      rw [htokens, hinner, hlast]
      exact ⟨q, (Derives.parens hopening hq.outermost hclosing).innermost _, hstands⟩
  · rename_i hle
    refine ⟨h.text, h.opens, h.legible, fun offset => ?_⟩
    obtain ⟨q, hq, hstands⟩ := h.reads offset
    exact ⟨q, hq.operand hparent (Nat.le_of_not_lt hle), hstands⟩

/-- Two operands with the sign of an operator between them. -/
theorem Shown.binary {op : Pointcut → Pointcut → Pointcut} {level : Level} {k : TokenKind}
    {left right : String} (hk : k ∈ soleSigns) (htrivia : k.isTrivia = false)
    (hstands : ∀ {p p' q q' : Pointcut}, StandsFor p p' → StandsFor q q' →
      StandsFor (op p q) (op p' q'))
    (hjoins : ∀ {ts us : List PseudoToken} {t : PseudoToken} {p q : Pointcut},
      Derives ReadsName level ts p → t.is k.grammarName = true → Derives ReadsName level us q →
        ∃ r, Derives ReadsName level (ts ++ t :: us) r ∧ StandsFor r (op p q))
    (hp : Shown level p left ps) (hq : Shown level q right qs) :
    Shown level (op p q) (left ++ (" " ++ k.grammarName ++ " ") ++ right)
      (ps ++ .blank :: sign k :: .blank :: qs) where
  text := by
    rw [spell_append, hp.text, String.toList_append, String.toList_append, String.toList_append,
      String.toList_append, List.append_assoc, List.append_assoc, ← hq.text]
    change _ ++ ([' '] ++ (k.grammarName.toList ++ ([' '] ++ spell qs))) = _
    simp
  opens := by
    obtain ⟨c, cs, hspell, hc⟩ := hp.opens
    exact ⟨c, _, by rw [spell_append, hspell, List.cons_append], hc⟩
  legible rest hrest := by
    obtain ⟨c, cs, hspell, _, hc⟩ := hq.opens
    have hfirst : ∀ d ∈ (k.grammarName.toList ++ (' ' :: spell qs ++ rest)).head?, d ∉ blanks :=
      (takes_soleSign hk []).behind_blank htrivia _
    refine legible_append.mpr ⟨hp.legible _ ?_, ?_, legible_sign hk htrivia ⟨?_, hq.legible rest hrest⟩⟩
    · rintro d hd
      obtain rfl := Option.some.inj hd
      decide
    · change ∀ d ∈ (k.grammarName.toList ++ (' ' :: spell qs) ++ rest).head?, d ∉ blanks
      rw [List.append_assoc]
      exact hfirst
    · rintro d hd
      rw [hspell] at hd
      obtain rfl := Option.some.inj hd
      exact hc
  reads offset := by
    obtain ⟨offset₁, happend⟩ :=
      exists_pseudosOf_append offset ps (.blank :: sign k :: .blank :: qs)
    obtain ⟨t, offset₂, hsign, ht⟩ := pseudosOf_sign (offset₁ + 1) k (.blank :: qs)
    obtain ⟨p', hp', hstandsp⟩ := hp.reads offset
    obtain ⟨q', hq', hstandsq⟩ := hq.reads (offset₂ + 1)
    obtain ⟨r, hr, hstandsr⟩ := hjoins hp' ht hq'
    have htokens : pseudosOf offset (ps ++ .blank :: sign k :: .blank :: qs) =
        pseudosOf offset ps ++ t :: pseudosOf (offset₂ + 1) qs := by
      rw [happend]
      change _ ++ pseudosOf (offset₁ + 1) (sign k :: .blank :: qs) = _
      rw [hsign]
      rfl
    rw [htokens]
    exact ⟨r, hr, hstandsr.trans (hstands hstandsp hstandsq)⟩

theorem Shown.or (hp : Shown p.level p p.render ps) (hq : Shown q.level q q.render qs) :
    Shown .or (.or p q) (Pointcut.or p q).render
      (operandPieces 1 p ps ++ .blank :: sign .orOr :: .blank :: operandPieces 1 q qs) :=
  Shown.binary (k := .orOr) (by decide) rfl StandsFor.or Derives.exists_alternative
    (hp.operand Nat.one_pos) (hq.operand Nat.one_pos)

theorem Shown.and (hp : Shown p.level p p.render ps) (hq : Shown q.level q q.render qs) :
    Shown .and (.and p q) (Pointcut.and p q).render
      (operandPieces 2 p ps ++ .blank :: sign .andAnd :: .blank :: operandPieces 2 q qs) :=
  Shown.binary (k := .andAnd) (by decide) rfl StandsFor.and Derives.exists_conjunction
    (hp.operand Nat.two_pos) (hq.operand Nat.two_pos)

theorem liveAfter_bang :
    liveAfter ['!'] = [(.bang, .empty), (.ne, .char (.one '='))] := by
  decide +kernel

theorem takes_bang {text : List Char} (h : ∀ c ∈ text.head?, c ≠ '=') : Takes .bang ['!'] text := by
  refine takes_of_liveAfter (List.cons_ne_nil _ _) ?_ (by decide) fun d hd => ?_
  · rw [liveAfter_bang]
    rfl
  · have hnot : (CharClass.one '=').contains d = false := by
      refine Bool.eq_false_iff.mpr fun hcontains => h d hd ?_
      exact List.mem_singleton.mp (CharClass.contains_oneOf.mp hcontains)
    rw [liveAfter_bang]
    simp [advance, Pattern.derive, hnot]

theorem Shown.not {text : String} (h : Shown .unary p text ps) :
    Shown .unary (.not p) ("!" ++ text) (sign .bang :: ps) where
  text := by
    change ['!'] ++ spell ps = _
    rw [h.text, String.toList_append]
    rfl
  opens := ⟨'!', _, rfl, by decide, by decide⟩
  legible rest hrest := by
    obtain ⟨c, cs, hspell, hc, _⟩ := h.opens
    refine ⟨rfl, takes_bang ?_, h.legible rest hrest⟩
    rw [hspell]
    rintro d hd
    obtain rfl := Option.some.inj hd
    exact hc
  reads offset := by
    obtain ⟨t, offset', htokens, ht⟩ := pseudosOf_sign offset .bang ps
    obtain ⟨q, hq, hstands⟩ := h.reads offset'
    rw [htokens]
    exact ⟨.not q, .negation ht hq, hstands.not⟩

/-! ### Names -/

/-- Pieces make up a name, and their tokens are read as it. -/
structure ShownName (name : String) (ps : List Piece) : Prop where
  text : spell ps = name.toList
  opens : Opens ps
  legible : ∀ rest, Breaks rest → Legible ps rest
  reads : ∀ offset, ∃ span, ReadsName (pseudosOf offset ps) name span

/-- Words do not begin with an equals sign. -/
theorem patterns_words :
    ∀ e ∈ patterns, e.1.isWord = true → e.2.derive '=' = .none := by
  decide +kernel

theorem kindedDesignators_begin : ∀ word ∈ kindedDesignators, word.toList.head? ≠ some '=' := by
  decide

variable {as : List Token} {a : Token}

/-- A token that can be a name. -/
theorem opens_of_word (has : Excerpt source [a])
    (hword : a.kind.isWord = true ∨ a.text ∈ kindedDesignators) : Opens (piecesOf [a]) := by
  obtain ⟨htrivia, htakes⟩ := has.takes_alone List.mem_cons_self
  obtain ⟨c, cs, htext⟩ := List.exists_cons_of_ne_nil htakes.nonempty
  rw [htext] at htakes
  refine ⟨c, cs, ?_, ?_, htakes.head_not_blank htrivia⟩
  · change a.text.toList ++ [] = _
    rw [List.append_nil, htext]
  · rintro rfl
    rcases hword with hword | hkinded
    · obtain ⟨p, hp, hmatches⟩ := htakes.first.exists_mem
      exact Pattern.not_matches_of_derive (patterns_words _ hp hword) hmatches
    · exact kindedDesignators_begin _ hkinded (by rw [htext]; rfl)

theorem ReadsName.exists_shown {name : String} {span : Span}
    (h : ReadsName (as.map Token.pseudo) name span) (has : Excerpt source as) :
    ∃ ps, ShownName name ps := by
  generalize hts : as.map Token.pseudo = ts at h
  cases h with
  | word hreserved hadmits =>
      obtain ⟨a, rfl, rfl⟩ := List.map_eq_singleton_iff.mp hts
      refine ⟨piecesOf [a], ?_, opens_of_word has hadmits, fun rest hrest => has.legible hrest,
        fun offset => ?_⟩
      · exact List.append_nil _
      · unfold pseudosOf
        simp only [piecesOf, piecesAfter, placed, String.ofList_toList, List.map]
        exact ⟨_, .word hreserved hadmits⟩
  | @atWord _ _ hat hnext hadmits =>
      obtain ⟨a, as', rfl, rfl, hrest⟩ := List.map_eq_cons_iff.mp hts
      obtain ⟨b, rfl, rfl⟩ := List.map_eq_singleton_iff.mp hrest
      have hb : Excerpt source [b] := has.sublist (List.sublist_cons_self ..)
      have hkind : a.kind = .atSign :=
        kind_of_sign (has.takes_alone List.mem_cons_self).2.first (by decide)
          (is_eq_true_iff.mp hat).2
      have hkinded := hadmits.resolve_left fun hmarked => by
        change a.kind.isWord = true at hmarked
        rw [hkind] at hmarked
        cases hmarked
      refine ⟨Scanner.sign .atSign :: piecesOf [b], ?_, ⟨'@', _, rfl, by decide, by decide⟩,
        fun rest hrest => legible_sign (by decide) rfl (hb.legible hrest), fun offset => ?_⟩
      · change ['@'] ++ (b.text.toList ++ []) = ("@" ++ b.text).toList
        rw [List.append_nil, String.toList_append]
        rfl
      · unfold pseudosOf
        simp only [piecesOf, piecesAfter, placed, Scanner.sign, String.ofList_toList, List.map]
        have hsign : ∀ span, (Token.pseudo ⟨.atSign, span, "@"⟩).is "@" = true := fun _ => rfl
        exact ⟨_, .atWord (hsign _) hnext (.inr hkinded)⟩

/-! ### Designators -/

/-- A name with pieces in parentheses behind it. -/
def callPieces (names inner : List Piece) : List Piece :=
  names ++ sign .lParen :: (inner ++ [sign .rParen])

theorem Shown.call {name text : String} {names inner : List Piece} (hname : ShownName name names)
    (htext : spell inner = text.toList) (hlegible : ∀ rest, Legible inner (')' :: rest))
    (hmeans : ∀ {names opening closing offset span}, ReadsName names name span →
      opening.is "(" = true → closing.is ")" = true →
        ∃ q, Derives ReadsName .primary (names ++ opening :: pseudosOf offset inner ++ [closing]) q ∧
          StandsFor q p) :
    Shown .unary p (name ++ "(" ++ text ++ ")") (callPieces names inner) where
  text := by
    unfold callPieces
    rw [spell_append, hname.text]
    change _ ++ (['('] ++ spell (inner ++ [sign .rParen])) = _
    rw [spell_append, htext]
    simp only [String.toList_append, List.append_assoc]
    rfl
  opens := by
    obtain ⟨c, cs, hspell, hc⟩ := hname.opens
    exact ⟨c, _, by rw [callPieces, spell_append, hspell, List.cons_append], hc⟩
  legible rest hrest := by
    refine legible_append.mpr ⟨hname.legible _ (breaks_sign (by decide) _ _), ?_⟩
    refine legible_sign (by decide) rfl (legible_append.mpr ⟨hlegible rest, ?_⟩)
    exact legible_sign (by decide) rfl trivial
  reads offset := by
    obtain ⟨offset₁, happend⟩ :=
      exists_pseudosOf_append offset names (sign .lParen :: (inner ++ [sign .rParen]))
    obtain ⟨opening, offset₂, hfirst, hopening⟩ :=
      pseudosOf_sign offset₁ .lParen (inner ++ [sign .rParen])
    obtain ⟨offset₃, hinner⟩ := exists_pseudosOf_append offset₂ inner [sign .rParen]
    obtain ⟨closing, offset₄, hlast, hclosing⟩ := pseudosOf_sign offset₃ .rParen []
    obtain ⟨span, hreads⟩ := hname.reads offset
    obtain ⟨q, hq, hstands⟩ := @hmeans _ _ _ offset₂ _ hreads hopening hclosing
    have htokens : pseudosOf offset (callPieces names inner) =
        pseudosOf offset names ++ opening :: pseudosOf offset₂ inner ++ [closing] := by
      rw [callPieces, happend, hfirst, hinner, hlast, List.append_assoc, List.cons_append]
      rfl
    rw [htokens]
    exact ⟨q, .primary hq, hstands⟩

theorem unmarked_of_firstCover (h : FirstCover patterns a.text.toList a.kind) :
    Unmarked a.pseudo := by
  have hsign : ∀ {k}, k ∈ soleSigns → k.isWord = false → a.kind.isWord = true →
      a.pseudo.is k.grammarName = false := by
    intro k hk hplain hword
    refine Bool.eq_false_iff.mpr fun his => ?_
    have hkind := kind_of_sign h hk (is_eq_true_iff.mp his).2
    rw [hkind, hplain] at hword
    cases hword
  exact fun hword => ⟨hsign (k := .lParen) (by decide) rfl hword,
    hsign (k := .rParen) (by decide) rfl hword⟩

/-- The control flow of a pointcut. -/
theorem Shown.controlFlow {below : Bool} {names : List Piece} (span : Span)
    (hname : ShownName (controlFlowWord below) names) (h : Shown p.level p p.render ps) :
    Shown .unary (.cflow below p span) (Pointcut.cflow below p span).render
      (callPieces names ps) := by
  have hword : (Pointcut.cflow below p span).render =
      controlFlowWord below ++ "(" ++ p.render ++ ")" := by
    cases below <;> rfl
  rw [hword]
  have hlegible : ∀ rest, Legible ps (')' :: rest) := fun rest => h.legible _ (by
    rintro c hc
    obtain rfl := Option.some.inj hc
    decide)
  refine Shown.call hname h.text hlegible fun {_ _ _ offset _} hreads hopening hclosing => ?_
  obtain ⟨q, hq, hstands⟩ := h.reads offset
  have hbalanced : Balanced (pseudosOf offset ps) := by
    refine hq.balanced fun t ht => ?_
    obtain ⟨a, ha, rfl⟩ := List.mem_map.mp ht
    exact unmarked_of_firstCover ((hlegible []).firstCover ha)
  exact ⟨_, .controlFlow below hreads hopening hbalanced hq.outermost hclosing,
    hstands.cflow below _ _⟩

/-! ### Patterns and arguments -/

theorem shows_pseudo (as : List Token) : List.Forall₂ Shows (as.map Token.pseudo) as := by
  induction as with
  | nil => exact .nil
  | cons a as ih => exact .cons ⟨rfl, rfl, rfl⟩ ih

theorem toList_renderPseudos (as : List Token) :
    (renderAll (as.map Token.pseudo)).toList = spell (piecesOf as) :=
  toList_renderAll (shows_pseudo as)

/-- The tokens of an excerpt have the same text as those that it was made of. -/
theorem renderAll_pseudosOf (has : Excerpt source as) (offset : Nat) :
    renderAll (pseudosOf offset (piecesOf as)) = renderAll (as.map Token.pseudo) := by
  have htexts : ∀ t ∈ as, t.text.toList ≠ [] := fun t ht => (has.takes_alone ht).2.nonempty
  refine String.ext ?_
  unfold pseudosOf
  rw [toList_renderPseudos, toList_renderPseudos, piecesOf_placed htexts]

theorem bare_pseudosOf (as : List Token) (offset : Nat) :
    (pseudosOf offset (piecesOf as)).map bare = (as.map Token.pseudo).map bare := by
  have hbare : ∀ bs : List Token, (bs.map Token.pseudo).map bare =
      (bs.map lexed).map fun x => ⟨x.2, false, ⟨0, 0⟩, none, none⟩ := fun bs => by
    rw [List.map_map, List.map_map]
    rfl
  unfold pseudosOf
  rw [hbare, hbare, lexed_placed_piecesOf]

/-- The pieces of arguments, with commas and blanks between them. -/
def argumentPieces : List (List Token) → List Piece
  | [] => []
  | [part] => piecesOf part
  | part :: next :: parts => piecesOf part ++ sign .comma :: .blank :: argumentPieces (next :: parts)

/-- The texts of arguments. -/
def argumentTexts (parts : List (List Token)) : List String :=
  parts.map fun part => renderAll (part.map Token.pseudo)

section

variable {parts : List (List Token)}

theorem spell_argumentPieces (parts : List (List Token)) :
    spell (argumentPieces parts) = (", ".intercalate (argumentTexts parts)).toList := by
  induction parts with
  | nil => rfl
  | cons part parts ih =>
      cases parts with
      | nil => exact (toList_renderPseudos part).symm
      | cons next parts =>
          have htexts : argumentTexts (part :: next :: parts) =
              renderAll (part.map Token.pseudo) :: renderAll (next.map Token.pseudo) ::
                argumentTexts parts := rfl
          rw [argumentPieces, spell_append, htexts, String.intercalate_cons_cons, String.toList_append,
            String.toList_append, toList_renderPseudos, List.append_assoc]
          change _ ++ ([','] ++ ([' '] ++ spell (argumentPieces (next :: parts)))) = _
          rw [ih]
          rfl

/-- No part begins with a blank. -/
theorem head_piecesOf {as : List Token} {text : List Char} (has : Excerpt source as)
    (htext : ∀ d ∈ text.head?, d ∉ blanks) :
    ∀ d ∈ (spell (piecesOf as) ++ text).head?, d ∉ blanks := by
  cases as with
  | nil => exact htext
  | cons a as =>
      obtain ⟨htrivia, htakes⟩ := has.takes_alone List.mem_cons_self
      change ∀ d ∈ (a.text.toList ++ spell (piecesAfter a.span.stop as) ++ text).head?, _
      rw [List.append_assoc]
      exact htakes.behind_blank htrivia _

theorem head_argumentPieces (hparts : ∀ part ∈ parts, Excerpt source part)
    (hrest : ∀ d ∈ rest.head?, d ∉ blanks) :
    ∀ d ∈ (spell (argumentPieces parts) ++ rest).head?, d ∉ blanks := by
  match parts with
  | [] => exact hrest
  | [part] => exact head_piecesOf (hparts part List.mem_cons_self) hrest
  | part :: next :: parts =>
      rw [argumentPieces, spell_append, List.append_assoc]
      refine head_piecesOf (hparts part List.mem_cons_self) ?_
      rintro d hd
      obtain rfl := Option.some.inj hd
      decide

theorem legible_argumentPieces (hparts : ∀ part ∈ parts, Excerpt source part)
    (hrest : Breaks rest) (hblank : ∀ d ∈ rest.head?, d ∉ blanks) :
    Legible (argumentPieces parts) rest := by
  induction parts with
  | nil => trivial
  | cons part parts ih =>
      cases parts with
      | nil => exact (hparts part List.mem_cons_self).legible hrest
      | cons next parts =>
          have hnext : ∀ part ∈ next :: parts, Excerpt source part :=
            fun other hother => hparts other (List.mem_cons_of_mem _ hother)
          refine legible_append.mpr ⟨(hparts part List.mem_cons_self).legible ?_,
            legible_sign (by decide) rfl ⟨?_, ih hnext⟩⟩
          · rintro c hc
            obtain rfl := Option.some.inj hc
            decide
          · exact head_argumentPieces hnext hblank

/-- The tokens of arguments are those of their parts, with commas between them. -/
theorem exists_joins_pseudosOf (hparts : ∀ part ∈ parts, Excerpt source part) (offset : Nat) :
    ∃ read, Joins "," read (pseudosOf offset (argumentPieces parts)) ∧
      read.map renderAll = argumentTexts parts ∧
      read.map (List.map bare) = parts.map fun part => (part.map Token.pseudo).map bare := by
  induction parts generalizing offset with
  | nil => exact ⟨[], .none, rfl, rfl⟩
  | cons part parts ih =>
      cases parts with
      | nil =>
          refine ⟨[pseudosOf offset (piecesOf part)], .one _, ?_, ?_⟩
          · exact congrArg (fun text => [text])
              (renderAll_pseudosOf (hparts part List.mem_cons_self) offset)
          · exact congrArg (fun texts => [texts]) (bare_pseudosOf part offset)
      | cons next parts =>
          have hnext : ∀ part ∈ next :: parts, Excerpt source part :=
            fun other hother => hparts other (List.mem_cons_of_mem _ hother)
          obtain ⟨offset₁, happend⟩ := exists_pseudosOf_append offset (piecesOf part)
            (sign .comma :: .blank :: argumentPieces (next :: parts))
          obtain ⟨t, offset₂, hcomma, ht⟩ :=
            pseudosOf_sign offset₁ .comma (.blank :: argumentPieces (next :: parts))
          obtain ⟨read, hjoins, htexts, hbare⟩ := ih hnext (offset₂ + 1)
          have htokens : pseudosOf offset (argumentPieces (part :: next :: parts)) =
              pseudosOf offset (piecesOf part) ++
                t :: pseudosOf (offset₂ + 1) (argumentPieces (next :: parts)) := by
            rw [argumentPieces, happend, hcomma]
            rfl
          refine ⟨pseudosOf offset (piecesOf part) :: read, ?_, ?_, ?_⟩
          · cases read with
            | nil => cases htexts
            | cons first read =>
                rw [htokens]
                exact .more ht hjoins
          · rw [List.map_cons, htexts, renderAll_pseudosOf (hparts part List.mem_cons_self)]
            rfl
          · rw [List.map_cons, List.map_cons, hbare, bare_pseudosOf]

/-- The parts of an excerpt are excerpts. -/
theorem exists_parts {split : List (List PseudoToken)} {separator : String} {as : List Token}
    (h : Joins separator split (as.map Token.pseudo)) (has : Excerpt source as) :
    ∃ parts : List (List Token), split = parts.map (List.map Token.pseudo) ∧
      ∀ part ∈ parts, Excerpt source part := by
  generalize hts : as.map Token.pseudo = ts at h
  induction h generalizing as with
  | none => exact ⟨[], rfl, nofun⟩
  | one part =>
      subst hts
      exact ⟨[as], rfl, by simpa using has⟩
  | more ht _ ih =>
      obtain ⟨first, behind, rfl, rfl, hbehind⟩ := List.map_eq_append_iff.mp hts
      obtain ⟨comma, rest, rfl, rfl, hrest⟩ := List.map_eq_cons_iff.mp hbehind
      obtain ⟨parts, hparts, hexcerpts⟩ := ih (has.sublist (List.sublist_append_of_sublist_right
        (List.sublist_cons_self ..))) hrest
      refine ⟨first :: parts, by rw [List.map_cons, hparts], List.forall_mem_cons.mpr
        ⟨has.sublist (List.sublist_append_left ..), hexcerpts⟩⟩

end

/-- A designator, or the use of a named pointcut. -/
theorem exists_shown_ofName {name : String} {names : List Piece} {as : List Token} (span : Span)
    (hname : ShownName name names) (hother : ∀ below, name ≠ controlFlowWord below)
    (has : Excerpt source as) (hbalanced : Balanced (as.map Token.pseudo)) :
    ∃ ps, Shown (ofName name (as.map Token.pseudo) span).level
      (ofName name (as.map Token.pseudo) span) (ofName name (as.map Token.pseudo) span).render
        ps := by
  unfold ofName
  split
  · rename_i hkinded
    refine ⟨callPieces names (piecesOf as), Shown.call hname (toList_renderPseudos as).symm
      (fun rest => has.legible ?_) fun {_ _ _ offset _} hreads hopening hclosing => ?_⟩
    · rintro c hc
      obtain rfl := Option.some.inj hc
      decide
    · refine ⟨_, .designator hreads hother hopening (hbalanced.of_bare (bare_pseudosOf as offset))
        hclosing, ?_⟩
      rw [ofName, if_pos hkinded, renderAll_pseudosOf has]
      exact ⟨.kinded _ _ _ _, rfl, rfl⟩
  · rename_i hkinded
    have hsigns : "," ≠ "(" ∧ "," ≠ "<" := by decide
    obtain ⟨parts, hsplit, hparts⟩ :=
      exists_parts (joins_splitOutsideBrackets hsigns (as.map Token.pseudo)) has
    have htexts : (splitOutsideBrackets (as.map Token.pseudo) ",").map renderAll =
        argumentTexts parts := by
      rw [hsplit, List.map_map]
      rfl
    have hsame : (splitOutsideBrackets (as.map Token.pseudo) ",").map (List.map bare) =
        parts.map fun part => (part.map Token.pseudo).map bare := by
      rw [hsplit, List.map_map]
      rfl
    rw [htexts]
    refine ⟨callPieces names (argumentPieces parts), Shown.call hname (spell_argumentPieces parts)
      (fun rest => legible_argumentPieces hparts ?_ ?_)
      fun {_ _ _ offset _} hreads hopening hclosing => ?_⟩
    · rintro c hc
      obtain rfl := Option.some.inj hc
      decide
    · rintro c hc
      obtain rfl := Option.some.inj hc
      decide
    · obtain ⟨read, hjoins, hread, hbare⟩ := exists_joins_pseudosOf hparts offset
      have hwhole := (joins_splitOutsideBrackets hsigns (as.map Token.pseudo)).bare_eq hjoins
        (hsame.trans hbare.symm)
      refine ⟨_, .designator hreads hother hopening (hbalanced.of_bare hwhole.symm) hclosing, ?_⟩
      rw [ofName, if_neg hkinded, splitOutsideBrackets_of_joins hsigns hjoins
        (hsame.trans hbare.symm), hread]
      exact ⟨.reference _ _ _ _, rfl, rfl⟩

/-! ### Reading the text of a pointcut -/

/-- **What is derived from an excerpt has a text that is put together from legible pieces.** -/
theorem Derives.exists_shown {level : Level} {as : List Token}
    (h : Derives ReadsName level (as.map Token.pseudo) p) (has : Excerpt source as) :
    ∃ ps, Shown p.level p p.render ps := by
  generalize hts : as.map Token.pseudo = ts at h
  induction h generalizing as with
  | conjunction _ ih | conjunct _ ih | primary _ ih => exact ih has hts
  | alternative _ _ _ ihleft ihright =>
      obtain ⟨left, rest, rfl, rfl, hrest⟩ := List.map_eq_append_iff.mp hts
      obtain ⟨_, right, rfl, rfl, rfl⟩ := List.map_eq_cons_iff.mp hrest
      obtain ⟨ps, hps⟩ := ihleft (has.sublist (List.sublist_append_left ..)) rfl
      obtain ⟨qs, hqs⟩ := ihright (has.sublist (List.sublist_append_of_sublist_right
        (List.sublist_cons_self ..))) rfl
      exact ⟨_, hps.or hqs⟩
  | both _ _ _ ihleft ihright =>
      obtain ⟨left, rest, rfl, rfl, hrest⟩ := List.map_eq_append_iff.mp hts
      obtain ⟨_, right, rfl, rfl, rfl⟩ := List.map_eq_cons_iff.mp hrest
      obtain ⟨ps, hps⟩ := ihleft (has.sublist (List.sublist_append_left ..)) rfl
      obtain ⟨qs, hqs⟩ := ihright (has.sublist (List.sublist_append_of_sublist_right
        (List.sublist_cons_self ..))) rfl
      exact ⟨_, hps.and hqs⟩
  | negation _ _ ih =>
      obtain ⟨_, inner, rfl, rfl, rfl⟩ := List.map_eq_cons_iff.mp hts
      obtain ⟨ps, hps⟩ := ih (has.sublist (List.sublist_cons_self ..)) rfl
      have hoperand := hps.operand (Nat.succ_pos 2)
      exact ⟨_, hoperand.not⟩
  | parens _ _ _ ih =>
      obtain ⟨before, _, rfl, hbefore, _⟩ := List.map_eq_append_iff.mp hts
      obtain ⟨_, inner, rfl, rfl, rfl⟩ := List.map_eq_cons_iff.mp hbefore
      exact ih (has.sublist ((List.sublist_cons_self ..).trans (List.sublist_append_left ..))) rfl
  | guard ht =>
      obtain ⟨a, rfl, rfl⟩ := List.map_eq_singleton_iff.mp hts
      cases ht
  | controlFlow below hname _ _ _ _ ih =>
      obtain ⟨front, _, rfl, hfront, _⟩ := List.map_eq_append_iff.mp hts
      obtain ⟨names, rest, rfl, rfl, hrest⟩ := List.map_eq_append_iff.mp hfront
      obtain ⟨_, inner, rfl, rfl, rfl⟩ := List.map_eq_cons_iff.mp hrest
      have hfront := has.sublist (List.sublist_append_left ..)
      obtain ⟨ns, hns⟩ := hname.exists_shown (hfront.sublist (List.sublist_append_left ..))
      obtain ⟨ps, hps⟩ := ih (hfront.sublist (List.sublist_append_of_sublist_right
        (List.sublist_cons_self ..))) rfl
      exact ⟨_, Shown.controlFlow _ hns hps⟩
  | designator hname hother _ hinner _ =>
      obtain ⟨front, _, rfl, hfront, _⟩ := List.map_eq_append_iff.mp hts
      obtain ⟨names, rest, rfl, rfl, hrest⟩ := List.map_eq_append_iff.mp hfront
      obtain ⟨_, inner, rfl, rfl, rfl⟩ := List.map_eq_cons_iff.mp hrest
      have hfront := has.sublist (List.sublist_append_left ..)
      obtain ⟨ns, hns⟩ := hname.exists_shown (hfront.sublist (List.sublist_append_left ..))
      have hinner' : Excerpt source inner := hfront.sublist
        (List.sublist_append_of_sublist_right (List.sublist_cons_self ..))
      exact exists_shown_ofName _ hns hother hinner' hinner

/-- **A pointcut is read again from its text**, but for the ranges and for the grouping of its chains,
and has the same text once more: if it was read from tokens of a source in their order, among which
brackets and semicolons may have been put in. -/
theorem tokenize_render {as : List Token} {stop : Span} (has : Excerpt source as)
    (hparse : parse (as.map Token.pseudo) stop = .ok p) :
    ∃ read q, tokenize p.render = .ok read ∧
      (∀ stop', parse (read.map Token.pseudo) stop' = .ok q) ∧ Alike q p ∧ q.render = p.render := by
  obtain ⟨ps, hps⟩ := ((parse_iff_derives _).1 stop p).mp hparse |>.exists_shown has
  obtain ⟨q, hq, hstands⟩ := hps.reads 0
  have htext : p.render = String.ofList (spell ps) := by rw [hps.text, String.ofList_toList]
  refine ⟨placed 0 ps, q, ?_, fun stop' => ?_, hstands.alike, hstands.render⟩
  · rw [htext]
    exact tokenize_spell (hps.legible [] nofun)
  · exact ((parse_iff_derives _).1 stop' q).mpr hq.outermost

/-- The use of a name that is not a word for control flow. -/
theorem Derives.use (name opening closing : PseudoToken) (inner : List PseudoToken)
    (hname : isReserved name = false ∧ name.isIdentifier = true)
    (hother : ∀ below, name.value ≠ controlFlowWord below) (hopening : opening.is "(" = true)
    (hinner : Balanced inner) (hclosing : closing.is ")" = true) :
    Derives ReadsName .primary (name :: opening :: (inner ++ [closing]))
      (ofName name.value inner (name.span.merge closing.span)) :=
  .designator (ReadsName.word hname.1 (.inl hname.2)) hother hopening hinner hclosing

/-- A chain that stands in parentheses behind an operand. -/
def chainSource : String := "p() && (q(x , y) && !r())"

/-- The tokens of the text. -/
def chainTokens : List Token :=
  [⟨.identifier, ⟨0, 0⟩, "p"⟩, ⟨.lParen, ⟨1, 1⟩, "("⟩, ⟨.rParen, ⟨2, 2⟩, ")"⟩,
    ⟨.andAnd, ⟨4, 5⟩, "&&"⟩, ⟨.lParen, ⟨7, 7⟩, "("⟩, ⟨.identifier, ⟨8, 8⟩, "q"⟩,
    ⟨.lParen, ⟨9, 9⟩, "("⟩, ⟨.identifier, ⟨10, 10⟩, "x"⟩, ⟨.comma, ⟨12, 12⟩, ","⟩,
    ⟨.identifier, ⟨14, 14⟩, "y"⟩, ⟨.rParen, ⟨15, 15⟩, ")"⟩, ⟨.andAnd, ⟨17, 18⟩, "&&"⟩,
    ⟨.bang, ⟨20, 20⟩, "!"⟩, ⟨.identifier, ⟨21, 21⟩, "r"⟩, ⟨.lParen, ⟨22, 22⟩, "("⟩,
    ⟨.rParen, ⟨23, 23⟩, ")"⟩, ⟨.rParen, ⟨24, 24⟩, ")"⟩]

theorem stream_chain : (stream chainSource).tokens = chainTokens := by
  unfold stream scan
  rw [scanFrom_eq_within (n := 25) (by decide)]
  decide +kernel

theorem parse_chain : ∃ p, parse (chainTokens.map Token.pseudo) ⟨0, 24⟩ = .ok p ∧
    p.render = "p() && q(x, y) && !r()" := by
  have hp := Derives.use (Token.pseudo ⟨.identifier, ⟨0, 0⟩, "p"⟩)
    (Token.pseudo ⟨.lParen, ⟨1, 1⟩, "("⟩) (Token.pseudo ⟨.rParen, ⟨2, 2⟩, ")"⟩) []
    (by decide) (by decide) rfl .nil rfl
  have hq := Derives.use (Token.pseudo ⟨.identifier, ⟨8, 8⟩, "q"⟩)
    (Token.pseudo ⟨.lParen, ⟨9, 9⟩, "("⟩) (Token.pseudo ⟨.rParen, ⟨15, 15⟩, ")"⟩)
    ([⟨.identifier, ⟨10, 10⟩, "x"⟩, ⟨.comma, ⟨12, 12⟩, ","⟩,
      ⟨.identifier, ⟨14, 14⟩, "y"⟩].map Token.pseudo)
    (by decide) (by decide) rfl (.plain rfl rfl (.plain rfl rfl (.plain rfl rfl .nil))) rfl
  have hr := Derives.use (Token.pseudo ⟨.identifier, ⟨21, 21⟩, "r"⟩)
    (Token.pseudo ⟨.lParen, ⟨22, 22⟩, "("⟩) (Token.pseudo ⟨.rParen, ⟨23, 23⟩, ")"⟩) []
    (by decide) (by decide) rfl .nil rfl
  have hnot := Derives.negation (t := Token.pseudo ⟨.bang, ⟨20, 20⟩, "!"⟩) rfl (.primary hr)
  have hinner := Derives.both (t := Token.pseudo ⟨.andAnd, ⟨17, 18⟩, "&&"⟩)
    (.conjunct (.primary hq)) rfl hnot
  have hopening : (Token.pseudo ⟨.lParen, ⟨7, 7⟩, "("⟩).is "(" = true := rfl
  have hclosing : (Token.pseudo ⟨.rParen, ⟨24, 24⟩, ")"⟩).is ")" = true := rfl
  have hparens := Derives.parens hopening (.conjunction hinner) hclosing
  have hwhole := Derives.both (t := Token.pseudo ⟨.andAnd, ⟨4, 5⟩, "&&"⟩)
    (.conjunct (.primary hp)) rfl (.primary hparens)
  exact ⟨_, ((parse_iff_derives _).1 _ _).mpr (.conjunction hwhole), by decide +kernel⟩

/-- The chain loses its parentheses, and is grouped from the left when it is read again. -/
theorem tokenize_render_chain : ∃ p read q,
    parse (chainTokens.map Token.pseudo) ⟨0, 24⟩ = .ok p ∧
      tokenize "p() && q(x, y) && !r()" = .ok read ∧
      (∀ stop', parse (read.map Token.pseudo) stop' = .ok q) ∧ Alike q p ∧
      q.render = "p() && q(x, y) && !r()" := by
  obtain ⟨p, hparse, hrender⟩ := parse_chain
  have hexcerpt : Excerpt chainSource chainTokens := by
    rw [← stream_chain]
    exact excerpt_stream chainSource
  obtain ⟨read, q, hread, hagain, halike, htext⟩ := tokenize_render hexcerpt hparse
  rw [hrender] at hread htext
  exact ⟨p, read, q, hparse, hread, hagain, halike, htext⟩

end Pointcut

end AspectLang
