import AspectLang.Proofs.Token.Relexing
import Mathlib.Data.List.Pairwise

/-! # Excerpts of a text

Some tokens of a source, in their order, are written down again with a blank wherever the source
has a gap between two of them (`Scanner.piecesOf`).  Brackets and semicolons may stand among them
that the source does not have.  Whatever stood in the gaps, such an excerpt is legible
(`Scanner.Excerpt.legible`): behind each token the text goes on as in the source up to the next gap,
bracket or semicolon, and nothing behind that counts.  So the excerpt is read as the tokens that it
was made of (`Scanner.tokenize_excerpt`), and once more written down it is the same text
(`Scanner.piecesOf_placed`). -/

namespace AspectLang

namespace Scanner

variable {source : String} {text rest behind b : List Char} {t : Token} {ts : List Token}
  {stop offset : Nat}

/-! ### Tokens at their places -/

/-- A token stands in a text with the rest of the text behind it. -/
structure StandsIn (text : List Char) (t : Token) (behind : List Char) : Prop where
  start : Text.dropBytes? t.span.start text = some (t.text.toList ++ behind)
  stop : Text.dropBytes? (t.span.stop + 1) text = some behind
  trivia : t.kind.isTrivia = false
  takes : Takes t.kind t.text.toList behind

theorem stop_ofLen {w : List Char} (hw : w ≠ []) (offset : Nat) :
    (Span.ofLen offset (Text.byteSize w)).stop + 1 = offset + Text.byteSize w := by
  have hlength := List.length_pos_iff.mpr hw
  have hsize := Text.length_le_byteSize w
  unfold Span.ofLen
  dsimp only
  omega

theorem exists_standsIn (ht : t ∈ (stream source).tokens) :
    ∃ behind, StandsIn source.toList t behind := by
  obtain ⟨piece, hpiece, hok⟩ := List.mem_filterMap.mp ht
  obtain ⟨hscan, hsignificant⟩ := List.mem_filter.mp hpiece
  cases piece with
  | error e => cases hok
  | ok t' =>
      cases hok
      obtain ⟨before, behind, hsource, hspan, htakes⟩ := takes_of_mem_scan hscan
      refine ⟨behind, ?_, ?_, by simpa [isSignificant] using hsignificant, htakes⟩
      · rw [hspan, hsource]
        exact Text.dropBytes?_byteSize before _
      · rw [hspan, stop_ofLen htakes.nonempty, hsource, ← Text.byteSize_append, ← List.append_assoc]
        exact Text.dropBytes?_byteSize _ behind

theorem pairwise_of_apart {limit : Nat} (h : Token.Apart 1 limit offset ts) :
    (∀ t ∈ ts, offset ≤ t.span.start ∧ t.span.start ≤ t.span.stop) ∧
      ts.Pairwise fun t u => t.span.stop < u.span.start := by
  induction ts generalizing offset with
  | nil => exact ⟨nofun, .nil⟩
  | cons t ts ih =>
      have hturn := h.start_le_stop
      obtain ⟨hstart, _, _, hrest⟩ := h
      obtain ⟨hbehind, hpairwise⟩ := ih hrest
      refine ⟨List.forall_mem_cons.mpr ⟨⟨hstart, hturn⟩, fun u hu => ⟨?_, (hbehind u hu).2⟩⟩,
        List.pairwise_cons.mpr ⟨fun u hu => (hbehind u hu).1, hpairwise⟩⟩
      have := (hbehind u hu).1
      omega

/-- Two tokens stand at the same place, or one behind the other. -/
def Clear (a b : Token) : Prop :=
  a.span = b.span ∨ a.span.stop < b.span.start ∨ b.span.stop < a.span.start

instance : Std.Symm Clear := ⟨fun _ _ h => h.imp Eq.symm Or.symm⟩

/-- Tokens of a source do not overlap. -/
theorem clear_of_mem {a b : Token} (ha : a ∈ (stream source).tokens)
    (hb : b ∈ (stream source).tokens) : a.span.start ≤ a.span.stop ∧ Clear a b := by
  obtain ⟨hturned, hpairwise⟩ := pairwise_of_apart (apart_stream source)
  refine ⟨(hturned a (List.mem_append_left _ ha)).2, ?_⟩
  have hordered : (stream source).tokens.Pairwise Clear :=
    (List.pairwise_append.mp hpairwise).1.imp fun h => .inr (.inl h)
  exact hordered.forall_of_forall (fun _ _ => .inl rfl) ha hb

/-! ### Writing down -/

/-- Tokens behind one that ended at a byte, with a blank wherever there is a gap. -/
def piecesAfter (stop : Nat) : List Token → List Piece
  | [] => []
  | t :: ts =>
    (if stop + 1 < t.span.start then [.blank] else []) ++
      .token t.kind t.text.toList :: piecesAfter t.span.stop ts

/-- Tokens with a blank wherever there is a gap between two of them. -/
def piecesOf : List Token → List Piece
  | [] => []
  | t :: ts => .token t.kind t.text.toList :: piecesAfter t.span.stop ts

/-- What a token is written as. -/
def lexed (t : Token) : TokenKind × String := (t.kind, t.text)

theorem lexed_placed_piecesAfter (offset stop : Nat) (ts : List Token) :
    (placed offset (piecesAfter stop ts)).map lexed = ts.map lexed := by
  induction ts generalizing offset stop with
  | nil => rfl
  | cons t ts ih =>
      unfold piecesAfter
      split <;> simp [placed, lexed, ih]

/-- The tokens of an excerpt are those that it was made of. -/
theorem lexed_placed_piecesOf (offset : Nat) (ts : List Token) :
    (placed offset (piecesOf ts)).map lexed = ts.map lexed := by
  cases ts with
  | nil => rfl
  | cons t ts => simp [piecesOf, placed, lexed, lexed_placed_piecesAfter]

/-- Where tokens were placed, a gap is left for each blank and for nothing else. -/
theorem piecesAfter_placed (hts : ∀ t ∈ ts, t.text.toList ≠ []) (hstop : stop + 1 = offset)
    (start : Nat) :
    piecesAfter stop (placed offset (piecesAfter start ts)) = piecesAfter start ts := by
  induction ts generalizing offset stop start with
  | nil => rfl
  | cons t ts ih =>
      obtain ⟨hne, hts⟩ := List.forall_mem_cons.mp hts
      rw [piecesAfter]
      split
      · simp only [List.cons_append, List.nil_append, placed, piecesAfter, String.toList_ofList]
        rw [if_pos (by simp only [Span.ofLen]; omega), ih hts (stop_ofLen hne _)]
        rfl
      · simp only [List.nil_append, placed, piecesAfter, String.toList_ofList]
        rw [if_neg (by simp only [Span.ofLen]; omega), ih hts (stop_ofLen hne _)]
        rfl

/-- **An excerpt of an excerpt is the same text.** -/
theorem piecesOf_placed (hts : ∀ t ∈ ts, t.text.toList ≠ []) (offset : Nat) :
    piecesOf (placed offset (piecesOf ts)) = piecesOf ts := by
  cases ts with
  | nil => rfl
  | cons t ts =>
      obtain ⟨hne, hts⟩ := List.forall_mem_cons.mp hts
      simp only [piecesOf, placed, String.toList_ofList, piecesAfter_placed hts (stop_ofLen hne _)]

/-! ### Excerpts -/

/-- The brackets and the semicolon. -/
def separators : List TokenKind :=
  [.semicolon, .lParen, .rParen, .lBracket, .rBracket, .lBrace, .rBrace]

/-- A token is a bracket or a semicolon, wherever it stands. -/
def IsSeparator (t : Token) : Prop := t.kind ∈ separators ∧ t.text = t.kind.grammarName

/-- Tokens of a source in their order, with brackets and semicolons among them. -/
structure Excerpt (source : String) (ts : List Token) : Prop where
  origin : ∀ t ∈ ts, t ∈ (stream source).tokens ∨ IsSeparator t
  order : ts.Pairwise fun t u => IsSeparator t ∨ IsSeparator u ∨ t.span.stop < u.span.start

/-- A text goes on like another one up to a character that no token reaches over. -/
def Continues (behind text : List Char) : Prop :=
  ∃ q b, text = q ++ b ∧ q <+: behind ∧ Breaks b

theorem Continues.of_breaks (h : Breaks text) : Continues behind text :=
  ⟨[], text, rfl, List.nil_prefix, h⟩

theorem Continues.append {w : List Char} (h : Continues behind text) :
    Continues (w ++ behind) (w ++ text) := by
  obtain ⟨q, b, rfl, hq, hb⟩ := h
  exact ⟨w ++ q, b, (List.append_assoc ..).symm, (List.prefix_append_right_inj w).mpr hq, hb⟩

theorem Takes.continues {k : TokenKind} {w : List Char} (h : Takes k w behind)
    (hk : k.isTrivia = false) (htext : Continues behind text) : Takes k w text := by
  obtain ⟨q, b, rfl, hq, hb⟩ := htext
  exact h.relocate hk hq hb

theorem separators_break : ∀ k ∈ separators,
    k ∈ soleSigns ∧ k.isTrivia = false ∧ ∀ c ∈ k.grammarName.toList.head?, c ∈ breakers := by
  have hall : ∀ k ∈ separators, k ∈ soleSigns ∧ k.isTrivia = false ∧
      (k.grammarName.toList.head?.all fun c => c ∈ breakers) = true :=
    List.all_iff_forall_prop.mp (by decide +kernel)
  refine fun k hk => ⟨(hall k hk).1, (hall k hk).2.1, fun c hc => ?_⟩
  have hbreak := (hall k hk).2.2
  rw [Option.mem_def.mp hc] at hbreak
  exact of_decide_eq_true hbreak

theorem IsSeparator.takes (h : IsSeparator t) (rest : List Char) :
    t.kind.isTrivia = false ∧ Takes t.kind t.text.toList rest := by
  obtain ⟨hsole, htrivia, _⟩ := separators_break _ h.1
  rw [h.2]
  exact ⟨htrivia, takes_soleSign hsole rest⟩

theorem IsSeparator.breaks (h : IsSeparator t) (rest : List Char) :
    Breaks (t.text.toList ++ rest) := by
  obtain ⟨hsole, _, hbreak⟩ := separators_break _ h.1
  obtain ⟨c, w, hw⟩ := List.exists_cons_of_ne_nil (liveAfter_soleSigns _ hsole).2
  rw [h.2]
  rw [hw] at hbreak ⊢
  exact hbreak

/-- The next token of an excerpt does not overlap with what ended at a byte. -/
def Follows (stop : Nat) (ts : List Token) : Prop :=
  ∀ t ∈ ts.head?, IsSeparator t ∨ stop < t.span.start

/-- A token of an excerpt is taken in front of what follows it there. -/
theorem Excerpt.takes (h : Excerpt source (t :: ts))
    (hrest : ∀ behind, Text.dropBytes? (t.span.stop + 1) source.toList = some behind →
      Follows t.span.stop ts → Continues behind text) :
    t.kind.isTrivia = false ∧ Takes t.kind t.text.toList text := by
  by_cases hseparator : IsSeparator t
  · exact hseparator.takes text
  · obtain ⟨behind, hstands⟩ := exists_standsIn
      ((h.origin t List.mem_cons_self).resolve_right hseparator)
    refine ⟨hstands.trivia, hstands.takes.continues hstands.trivia (hrest behind hstands.stop ?_)⟩
    intro u hu
    exact ((List.pairwise_cons.mp h.order).1 u (List.mem_of_mem_head? hu)).resolve_left hseparator

theorem Excerpt.tail (h : Excerpt source (t :: ts)) : Excerpt source ts :=
  ⟨fun u hu => h.origin u (List.mem_cons_of_mem t hu), (List.pairwise_cons.mp h.order).2⟩

/-- The tokens of an excerpt behind one that ended at a byte are legible, and they go on as the
source does there. -/
theorem Excerpt.legible_after (h : Excerpt source ts) (hrest : Breaks rest) (stop : Nat) :
    Legible (piecesAfter stop ts) rest ∧
      ∀ behind, Text.dropBytes? (stop + 1) source.toList = some behind → Follows stop ts →
        Continues behind (spell (piecesAfter stop ts) ++ rest) := by
  induction ts generalizing stop with
  | nil => exact ⟨trivial, fun behind _ _ => .of_breaks hrest⟩
  | cons t ts ih =>
      obtain ⟨hlegible, hcontinues⟩ := ih h.tail t.span.stop
      obtain ⟨htrivia, htakes⟩ := h.takes hcontinues
      have htoken : Legible (.token t.kind t.text.toList :: piecesAfter t.span.stop ts) rest :=
        ⟨htrivia, htakes, hlegible⟩
      rw [piecesAfter]
      split
      · refine ⟨⟨?_, htoken⟩, fun behind _ _ => .of_breaks ?_⟩
        · change ∀ d ∈ (t.text.toList ++ spell (piecesAfter t.span.stop ts) ++ rest).head?, _
          rw [List.append_assoc]
          exact htakes.behind_blank htrivia _
        · rintro c hc
          obtain rfl := Option.some.inj hc
          decide
      · rename_i hgap
        refine ⟨htoken, fun behind hbehind hfollows => ?_⟩
        change Continues behind (t.text.toList ++ spell (piecesAfter t.span.stop ts) ++ rest)
        rw [List.append_assoc]
        by_cases hseparator : IsSeparator t
        · exact .of_breaks (hseparator.breaks _)
        · -- the token stands right behind, in the source as well
          obtain ⟨after, hstands⟩ := exists_standsIn
            ((h.origin t List.mem_cons_self).resolve_right hseparator)
          have hstart : t.span.start = stop + 1 := by
            have := (hfollows t rfl).resolve_left hseparator
            omega
          have hafter := hstands.start
          rw [hstart, hbehind] at hafter
          obtain rfl := Option.some.inj hafter
          refine (hcontinues after hstands.stop fun u hu => ?_).append
          exact ((List.pairwise_cons.mp h.order).1 u (List.mem_of_mem_head? hu)).resolve_left
            hseparator

/-- **An excerpt is legible**, in front of any text that begins with a character that no token
reaches over. -/
theorem Excerpt.legible (h : Excerpt source ts) (hrest : Breaks rest) :
    Legible (piecesOf ts) rest := by
  cases ts with
  | nil => trivial
  | cons t ts =>
      obtain ⟨hlegible, hcontinues⟩ := h.tail.legible_after hrest t.span.stop
      obtain ⟨htrivia, htakes⟩ := h.takes hcontinues
      exact ⟨htrivia, htakes, hlegible⟩

/-- All tokens of a source are an excerpt. -/
theorem excerpt_stream (source : String) : Excerpt source (stream source).tokens where
  origin _ ht := .inl ht
  order := by
    obtain ⟨_, hpairwise⟩ := pairwise_of_apart (apart_stream source)
    exact (List.pairwise_append.mp hpairwise).1.imp fun h => .inr (.inr h)

/-- **An excerpt is read as the tokens that it was made of.** -/
theorem tokenize_excerpt (h : Excerpt source ts) :
    ∃ read, tokenize (String.ofList (spell (piecesOf ts))) = .ok read ∧
      read.map lexed = ts.map lexed :=
  ⟨_, tokenize_spell (h.legible nofun), lexed_placed_piecesOf 0 ts⟩

/-! ### What is read -/

theorem eq_map_ok_of_mapM_id {pieces : List (Except LexicalError Token)}
    (h : pieces.mapM id = .ok ts) : pieces = ts.map .ok := by
  induction pieces generalizing ts with
  | nil =>
      cases h
      rfl
  | cons piece pieces ih =>
      rw [List.mapM_cons] at h
      cases piece with
      | error e => cases h
      | ok t =>
          cases hrest : pieces.mapM id with
          | error e =>
              rw [hrest] at h
              cases h
          | ok rest =>
              rw [hrest] at h
              cases h
              rw [List.map_cons, ih hrest]

/-- The tokens of a text are those of its stream. -/
theorem tokens_of_tokenize (h : tokenize source = .ok ts) : (stream source).tokens = ts := by
  unfold TokenStream.tokens
  rw [eq_map_ok_of_mapM_id h, List.filterMap_map]
  exact List.filterMap_some

/-- No token is without text. -/
theorem text_ne_empty (ht : t ∈ (stream source).tokens) : t.text ≠ "" := by
  obtain ⟨_, hstands⟩ := exists_standsIn ht
  intro hempty
  exact hstands.takes.nonempty (by rw [hempty]; rfl)

end Scanner

end AspectLang
