import AspectLang.Proofs.Token.Scanning

/-! # The scanner takes the longest match

A derivative covers exactly what its pattern goes on with (`Pattern.matches_derive`), so the
patterns that are live after a few characters cover exactly what may stand behind them
(`Scanner.Covered.advance`).  The search for the longest match therefore ends with the longest
prefix that any pattern covers, and with the first pattern listed that covers it
(`Scanner.longest_spec`).  The words are listed before the identifiers, so a text that a word has
is that word (`TokenKind.eq_of_firstCover`).

A comment that is closed somewhere is covered up to the first place where it is
(`TokenKind.covers_comment`).  The slash of an unfinished comment is thus the only token that the
scanner does not take, and every other lexical error stands where no prefix is a token
(`Scanner.takes_longest_match`). -/

namespace AspectLang

/-! ### Derivatives cover all they should -/

namespace Pattern

variable {p q : Pattern} {c : Char} {u w : List Char}

theorem Matches.nullable_of_nil (h : p.Matches w) (hw : w = []) : p.nullable = true := by
  induction h with
  | empty | starNil | starCons => rfl
  | char => cases hw
  | seq _ _ ihp ihq =>
      obtain ⟨hu, hv⟩ := List.append_eq_nil_iff.mp hw
      exact Bool.and_eq_true_iff.mpr ⟨ihp hu, ihq hv⟩
  | altLeft _ ih => exact Bool.or_eq_true_iff.mpr (.inl (ih hw))
  | altRight _ ih => exact Bool.or_eq_true_iff.mpr (.inr (ih hw))

theorem matches_nil : p.Matches [] ↔ p.nullable = true :=
  ⟨fun h => h.nullable_of_nil rfl, .of_nullable⟩

theorem Matches.seq' (h : (Pattern.seq p q).Matches u) : (seq' p q).Matches u := by
  cases h with
  | seq hp hq =>
      unfold Pattern.seq'
      split
      · cases hp
      · cases hq
      · cases hp
        exact hq
      · cases hq
        rwa [List.append_nil]
      · exact .seq hp hq

theorem Matches.alt' (h : (Pattern.alt p q).Matches u) : (alt' p q).Matches u := by
  unfold Pattern.alt'
  split
  · cases h with
    | altLeft h => cases h
    | altRight h => exact h
  · cases h with
    | altLeft h => exact h
    | altRight h => cases h
  · split
    · rename_i heq
      cases h with
      | altLeft h => exact h
      | altRight h => exact heq ▸ h
    · exact h

/-- What a repetition covers begins with a round that is not empty. -/
theorem Matches.exists_round (h : p.star.Matches (c :: u)) :
    ∃ v w, u = v ++ w ∧ p.Matches (c :: v) ∧ p.star.Matches w := by
  generalize hstar : p.star = q at h
  generalize htext : c :: u = text at h
  induction h with
  | @starCons q front rest hp hs _ ih =>
      cases hstar
      cases front with
      | nil => exact ih rfl htext
      | cons d front =>
          cases htext
          exact ⟨front, rest, rfl, hp, hs⟩
  | starNil => cases htext
  | empty | char | seq | altLeft | altRight => cases hstar

/-- What a pattern covers after a character, the derivative covers. -/
theorem Matches.derive (h : p.Matches (c :: u)) : (derive c p).Matches u := by
  induction p generalizing u with
  | none | empty => cases h
  | char k =>
      generalize htext : c :: u = text at h
      cases h with
      | char hc =>
          cases htext
          rw [Pattern.derive, if_pos hc]
          exact .empty
  | seq p q ihp ihq =>
      generalize htext : c :: u = text at h
      cases h with
      | @seq _ _ front rest hp hq =>
          unfold Pattern.derive
          cases front with
          | nil =>
              cases htext
              rw [if_pos (matches_nil.mp hp)]
              exact (Matches.altRight (ihq hq)).alt'
          | cons d front =>
              cases htext
              have hfront := (Matches.seq (ihp hp) hq).seq'
              split
              · exact (Matches.altLeft hfront).alt'
              · exact hfront
  | alt p q ihp ihq =>
      cases h with
      | altLeft h => exact (Matches.altLeft (ihp h)).alt'
      | altRight h => exact (Matches.altRight (ihq h)).alt'
  | star p ih =>
      obtain ⟨front, rest, rfl, hp, hs⟩ := h.exists_round
      exact (Matches.seq (ih hp) hs).seq'

/-- A derivative covers what its pattern covers after the character. -/
theorem matches_derive : (derive c p).Matches u ↔ p.Matches (c :: u) := ⟨.of_derive, .derive⟩

theorem matches_literal (text : List Char) : (literal text).Matches text := by
  have hone : ∀ d, (CharClass.one d).contains d = true := fun d => by
    simp [CharClass.contains, CharClass.one]
  induction text with
  | nil => exact .empty
  | cons d text ih =>
      cases text with
      | nil => exact .char (hone d)
      | cons e text => exact .seq (.char (hone d)) ih

end Pattern

/-! ### The longest prefix that is covered -/

namespace Scanner

open Pattern hiding none

variable {live : List (TokenKind × Pattern)} {k : TokenKind} {c : Char} {w : List Char}

/-- Some pattern listed covers a text. -/
def Covered (live : List (TokenKind × Pattern)) (w : List Char) : Prop :=
  ∃ e ∈ live, e.2.Matches w

/-- The first pattern listed that covers a text is one of a kind. -/
def FirstCover : List (TokenKind × Pattern) → List Char → TokenKind → Prop
  | [], _, _ => False
  | e :: live, w, k => (e.2.Matches w ∧ e.1 = k) ∨ (¬ e.2.Matches w ∧ FirstCover live w k)

theorem FirstCover.exists_mem (h : FirstCover live w k) : ∃ p, (k, p) ∈ live ∧ p.Matches w := by
  induction live with
  | nil => cases h
  | cons e live ih =>
      rcases h with ⟨hmatches, rfl⟩ | ⟨_, h⟩
      · exact ⟨e.2, List.mem_cons_self, hmatches⟩
      · obtain ⟨p, hp, hmatches⟩ := ih h
        exact ⟨p, List.mem_cons_of_mem e hp, hmatches⟩

/-- What is covered after a character is covered by what is live after it. -/
theorem Covered.advance (h : Covered live (c :: w)) : Covered (advance c live) w := by
  obtain ⟨⟨k, p⟩, hmem, hmatches⟩ := h
  have hrest : (p.derive c).Matches w := hmatches.derive
  refine ⟨(k, p.derive c), List.mem_filterMap.mpr ⟨(k, p), hmem, ?_⟩, hrest⟩
  dsimp only
  split
  · rename_i hnone
    rw [hnone] at hrest
    cases hrest
  · rfl

theorem FirstCover.of_advance (h : FirstCover (advance c live) w k) :
    FirstCover live (c :: w) k := by
  induction live with
  | nil => cases h
  | cons e live ih =>
      have hderive : (e.2.derive c).Matches w ↔ e.2.Matches (c :: w) := matches_derive
      unfold Scanner.advance at h
      rw [List.filterMap_cons] at h
      dsimp only at h
      split at h
      · rename_i hdead
        split at hdead
        · rename_i hnone
          rw [hnone] at hderive
          refine .inr ⟨fun hmatches => ?_, ih h⟩
          cases hderive.mpr hmatches
        · cases hdead
      · rename_i live' hlive
        split at hlive
        · cases hlive
        · cases hlive
          rcases h with ⟨hmatches, hk⟩ | ⟨hmatches, h⟩
          · exact .inl ⟨hderive.mp hmatches, hk⟩
          · exact .inr ⟨fun hmore => hmatches (hderive.mpr hmore), ih h⟩

theorem firstCover_of_complete? (h : complete? live = some k) : FirstCover live [] k := by
  induction live with
  | nil => cases h
  | cons e live ih =>
      obtain ⟨k', p⟩ := e
      unfold complete? at h
      rw [List.find?_cons] at h
      dsimp only at h
      split at h
      · cases h
        exact .inl ⟨.of_nullable ‹_›, rfl⟩
      · rename_i hnot
        refine .inr ⟨fun hmatches => ?_, ih h⟩
        rw [matches_nil.mp hmatches] at hnot
        cases hnot

theorem not_covered_of_complete? (h : complete? live = none) : ¬ Covered live [] := by
  rintro ⟨e, hmem, hmatches⟩
  have hnot := List.find?_eq_none.mp (Option.map_eq_none_iff.mp h) e hmem
  exact hnot (matches_nil.mp hmatches)

/-- No prefix but the empty one is covered. -/
def NoneCovered (live : List (TokenKind × Pattern)) (text : List Char) : Prop :=
  ∀ w, w <+: text → w ≠ [] → ¬ Covered live w

/-- A result tells the length of the longest prefix that is covered, counted on from `read`, and
the kind of the first pattern that covers it. -/
def IsLongest (live : List (TokenKind × Pattern)) (read : Nat) (text : List Char)
    (result : Option (TokenKind × Nat)) : Prop :=
  ∃ k w, w <+: text ∧ w ≠ [] ∧ result = some (k, read + w.length) ∧ FirstCover live w k ∧
    ∀ v, v <+: text → w.length < v.length → ¬ Covered live v

variable {read : Nat} {text : List Char} {best result : Option (TokenKind × Nat)}

theorem exists_tail (hw : w <+: c :: text) (hne : w ≠ []) : ∃ v, w = c :: v ∧ v <+: text :=
  (List.prefix_cons_iff.mp hw).resolve_left hne

theorem NoneCovered.not_covered (h : NoneCovered (advance c live) text) (hw : w <+: c :: text)
    (hlength : 1 < w.length) : ¬ Covered live w := by
  have hne : w ≠ [] := List.ne_nil_of_length_pos (Nat.zero_lt_of_lt hlength)
  obtain ⟨v, rfl, hv⟩ := exists_tail hw hne
  have hmore : v ≠ [] := List.ne_nil_of_length_pos (Nat.lt_of_succ_lt_succ hlength)
  exact fun hcovered => h v hv hmore hcovered.advance

theorem IsLongest.of_advance (h : IsLongest (advance c live) (read + 1) text result) :
    IsLongest live read (c :: text) result := by
  obtain ⟨k, w, hw, _, hresult, hfirst, hlonger⟩ := h
  refine ⟨k, c :: w, ?_, List.cons_ne_nil c w, ?_, hfirst.of_advance, ?_⟩
  · exact List.prefix_cons_iff.mpr (.inr ⟨w, rfl, hw⟩)
  · rw [hresult, List.length_cons, Nat.add_assoc, Nat.add_comm 1]
  · intro v hv hlength hcovered
    have hne : v ≠ [] := List.ne_nil_of_length_pos (Nat.zero_lt_of_lt hlength)
    obtain ⟨u, rfl, hu⟩ := exists_tail hv hne
    exact hlonger u hu (Nat.lt_of_succ_lt_succ hlength) hcovered.advance

/-- The search ends with the longest prefix that is covered, or with the match known before if
there is none. -/
theorem longest_spec (live : List (TokenKind × Pattern)) (read : Nat)
    (best : Option (TokenKind × Nat)) (text : List Char) :
    (longest live read best text = best ∧ NoneCovered live text) ∨
      IsLongest live read text (longest live read best text) := by
  induction text generalizing live read best with
  | nil => exact .inl ⟨rfl, fun w hw hne => absurd (List.prefix_nil.mp hw) hne⟩
  | cons c text ih =>
      unfold longest
      split
      · rename_i hdead
        refine .inl ⟨rfl, fun w hw hne hcovered => ?_⟩
        obtain ⟨v, rfl, _⟩ := exists_tail hw hne
        have hlive := hcovered.advance
        rw [hdead] at hlive
        obtain ⟨_, hmem, _⟩ := hlive
        cases hmem
      · dsimp only
        cases hcomplete : complete? (advance c live) with
        | some k =>
            rcases ih (advance c live) (read + 1) (some (k, read + 1)) with ⟨hbest, hnone⟩ | hmore
            · refine .inr ⟨k, [c], ⟨text, rfl⟩, List.cons_ne_nil c [], hbest,
                (firstCover_of_complete? hcomplete).of_advance, fun v hv hlength => ?_⟩
              exact hnone.not_covered hv hlength
            · exact .inr hmore.of_advance
        | none =>
            rcases ih (advance c live) (read + 1) best with ⟨hbest, hnone⟩ | hmore
            · refine .inl ⟨hbest, fun w hw hne hcovered => ?_⟩
              obtain ⟨v, rfl, hv⟩ := exists_tail hw hne
              by_cases hempty : v = []
              · subst hempty
                exact not_covered_of_complete? hcomplete hcovered.advance
              · exact hnone v hv hempty hcovered.advance
            · exact .inr hmore.of_advance

end Scanner

/-! ### Words before identifiers -/

namespace TokenKind

open Scanner
open Pattern hiding none

variable {k : TokenKind} {w : List Char}

/-- A pattern of a kind covers a text. -/
def Covers (k : TokenKind) (w : List Char) : Prop := ∃ p, (k, p) ∈ patterns ∧ p.Matches w

theorem Covers.covered (h : k.Covers w) : Covered patterns w := by
  obtain ⟨p, hp, hmatches⟩ := h
  exact ⟨(k, p), hp, hmatches⟩

/-- The kinds with fixed text are listed. -/
theorem mem_of_lexeme? {text : String} (h : k.lexeme? = some text) : k ∈ keywords ++ symbols := by
  cases k <;> first | cases h; done | decide

/-- No two kinds have the same fixed text. -/
theorem lexeme?_injective {k k' : TokenKind} {text : String} (h : k.lexeme? = some text)
    (h' : k'.lexeme? = some text) : k = k' := by
  have hfound : ∀ k ∈ keywords ++ symbols,
      (keywords ++ symbols).find? (·.lexeme? == k.lexeme?) = some k := by
    decide +kernel
  have hk := hfound k (mem_of_lexeme? h)
  have hk' := hfound k' (mem_of_lexeme? h')
  rw [h] at hk
  rw [h', hk] at hk'
  exact Option.some.inj hk'

theorem varying_lexeme? : ∀ e ∈ varyingPatterns, e.1.lexeme? = none := by
  decide

/-- A kind with fixed text covers that text only. -/
theorem Covers.eq_of_lexeme? {text : String} (h : k.Covers w) (htext : k.lexeme? = some text) :
    w = text.toList := by
  obtain ⟨p, hp, hmatches⟩ := h
  rcases List.mem_append.mp hp with hfixed | hvarying
  · obtain ⟨k', _, hpattern⟩ := List.mem_filterMap.mp hfixed
    obtain ⟨text', htext', heq⟩ := Option.map_eq_some_iff.mp hpattern
    cases heq
    obtain rfl := Option.some.inj (htext.symm.trans htext')
    exact hmatches.eq_of_literal
  · have hnone := varying_lexeme? _ hvarying
    rw [htext] at hnone
    cases hnone

theorem FirstCover.of_append {l l' : List (TokenKind × Pattern)} (h : FirstCover (l ++ l') w k)
    (hcovered : Covered l w) : FirstCover l w k := by
  induction l with
  | nil =>
      obtain ⟨_, hmem, _⟩ := hcovered
      cases hmem
  | cons e l ih =>
      rcases h with hhere | ⟨hnot, hlater⟩
      · exact .inl hhere
      · refine .inr ⟨hnot, ih hlater ?_⟩
        obtain ⟨e', hmem, hmatches⟩ := hcovered
        rcases List.mem_cons.mp hmem with rfl | hmem
        · exact absurd hmatches hnot
        · exact ⟨e', hmem, hmatches⟩

/-- A text that a kind has as its fixed text is of that kind, whatever else covers it. -/
theorem eq_of_firstCover {k' : TokenKind} {text : String} (h : FirstCover patterns text.toList k)
    (htext : k'.lexeme? = some text) : k = k' := by
  have hcovered : Covered ((keywords ++ symbols).filterMap fixedPattern?) text.toList := by
    refine ⟨(k', literal text.toList), ?_, matches_literal _⟩
    exact List.mem_filterMap.mpr ⟨k', mem_of_lexeme? htext, by simp [fixedPattern?, htext]⟩
  obtain ⟨p, hp, hmatches⟩ := (FirstCover.of_append h hcovered).exists_mem
  obtain ⟨k'', _, hpattern⟩ := List.mem_filterMap.mp hp
  obtain ⟨text', htext', heq⟩ := Option.map_eq_some_iff.mp hpattern
  cases heq
  obtain rfl := String.toList_inj.mp hmatches.eq_of_literal
  exact lexeme?_injective htext' htext

end TokenKind

/-! ### Closed comments -/

namespace CharClass

variable {cs : List Char} {d : Char}

theorem contains_oneOf : (oneOf cs).contains d = true ↔ d ∈ cs := by
  simp only [contains, oneOf, List.any_map, bne_iff_ne, ne_eq, Bool.not_eq_false, List.any_eq_true,
    Function.comp_apply, Bool.and_eq_true, decide_eq_true_eq]
  constructor
  · rintro ⟨e, he, hle, hge⟩
    exact Char.le_antisymm hle hge ▸ he
  · exact fun hd => ⟨d, hd, Char.le_refl d, Char.le_refl d⟩

theorem contains_noneOf : (noneOf cs).contains d = true ↔ d ∉ cs := by
  rw [← contains_oneOf]
  simp [contains, oneOf, noneOf]

end CharClass

namespace TokenKind

open Pattern hiding none

/-- A round of the repetition in the pattern of comments: text after asterisks that do not close
the comment, up to the next asterisks. -/
def commentRound : Pattern :=
  sequence [outside ['/', '*'], .star (outside ['*']), oneOrMore (among ['*'])]

theorem matches_among {cs : List Char} {d : Char} (h : d ∈ cs) : (among cs).Matches [d] :=
  .char (CharClass.contains_oneOf.mpr h)

theorem matches_outside {cs : List Char} {d : Char} (h : d ∉ cs) : (outside cs).Matches [d] :=
  .char (CharClass.contains_noneOf.mpr h)

/-- A text with the end of a comment goes on as the pattern of comments asks for, before an
asterisk and behind one. -/
theorem exists_closing (body : List Char) :
    (['*', '/'] <:+: body → ∃ n s g rest, body = n ++ '*' :: (s ++ (g ++ '/' :: rest)) ∧
      (outside ['*']).star.Matches n ∧ (among ['*']).star.Matches s ∧
      commentRound.star.Matches g) ∧
    (['*', '/'] <:+: '*' :: body → ∃ s g rest, body = s ++ (g ++ '/' :: rest) ∧
      (among ['*']).star.Matches s ∧ commentRound.star.Matches g) := by
  induction body with
  | nil =>
      refine ⟨fun h => ?_, fun h => ?_⟩
      · cases List.infix_nil.mp h
      · exact absurd h.length_le (by decide)
  | cons d body ih =>
      -- a character that is no asterisk does not begin the end of a comment
      have hskip : d ≠ '*' → ['*', '/'] <:+: d :: body → ['*', '/'] <:+: body := by
        intro hd h
        refine (List.infix_cons_iff.mp h).resolve_left fun hfront => ?_
        exact hd (List.cons_prefix_cons.mp hfront).1.symm
      refine ⟨fun h => ?_, fun h => ?_⟩
      · by_cases hd : d = '*'
        · subst hd
          obtain ⟨s, g, rest, rfl, hs, hg⟩ := ih.2 h
          exact ⟨[], s, g, rest, rfl, .starNil, hs, hg⟩
        · obtain ⟨n, s, g, rest, rfl, hn, hs, hg⟩ := ih.1 (hskip hd h)
          exact ⟨d :: n, s, g, rest, rfl, .starCons (matches_outside (by simpa)) hn, hs, hg⟩
      · by_cases hslash : d = '/'
        · subst hslash
          exact ⟨[], [], body, rfl, .starNil, .starNil⟩
        · have hlater : ['*', '/'] <:+: d :: body := by
            refine (List.infix_cons_iff.mp h).resolve_left fun hfront => ?_
            have hsecond := (List.cons_prefix_cons.mp hfront).2
            exact hslash (List.cons_prefix_cons.mp hsecond).1.symm
          by_cases hd : d = '*'
          · subst hd
            obtain ⟨s, g, rest, rfl, hs, hg⟩ := ih.2 hlater
            exact ⟨'*' :: s, g, rest, rfl, .starCons (matches_among (by simp)) hs, hg⟩
          · obtain ⟨n, s, g, rest, rfl, hn, hs, hg⟩ := ih.1 (hskip hd hlater)
            have hround : commentRound.Matches ([d] ++ (n ++ (['*'] ++ s))) :=
              .seq (matches_outside (by simp [hslash, hd]))
                (.seq hn (.seq (matches_among (by simp)) hs))
            refine ⟨[], [d] ++ (n ++ (['*'] ++ s)) ++ g, rest, ?_, .starNil, .starCons hround hg⟩
            simp

/-- A comment that is closed is covered. -/
theorem covers_comment {body : List Char} (h : ['*', '/'] <:+: body) :
    ∃ w, w <+: '/' :: '*' :: body ∧ 1 < w.length ∧ blockComment.Covers w := by
  obtain ⟨n, s, g, rest, rfl, hn, hs, hg⟩ := (exists_closing body).1 h
  refine ⟨['/'] ++ (['*'] ++ (n ++ (['*'] ++ s ++ (g ++ ['/'])))), ⟨rest, by simp⟩, by simp, ?_⟩
  refine ⟨_, List.mem_append_right _ (by simp [varyingPatterns]; rfl), ?_⟩
  exact .seq (matches_among (by simp)) (.seq (matches_among (by simp))
    (.seq hn (.seq (.seq (matches_among (by simp)) hs) (.seq hg (matches_among (by simp))))))

end TokenKind

/-! ### What scanning takes -/

namespace Scanner

variable {k : TokenKind} {c : Char} {cs : List Char}

/-- A kind and a prefix are what a scanner has to take from the front of a text: the kind covers
the prefix, no kind covers a longer one, and the kind is the one with just this text if there is
one. -/
structure LongestMatch (text : List Char) (k : TokenKind) (w : List Char) : Prop where
  front : w <+: text
  covers : k.Covers w
  longest : ∀ v, v <+: text → w.length < v.length → ∀ k' : TokenKind, ¬ k'.Covers v
  fixed : ∀ (k' : TokenKind) (word : String), k'.lexeme? = some word → word.toList = w → k = k'

/-- No token can be taken from the front of a text: no kind covers a prefix but the empty one, or
the text begins a comment that is not closed. -/
def Unreadable (text : List Char) : Prop :=
  (∀ w, w <+: text → w ≠ [] → ∀ k : TokenKind, ¬ k.Covers w) ∨
    ∃ body, text = '/' :: '*' :: body ∧ ¬ ['*', '/'] <:+: body

theorem lead_spec (c : Char) (cs : List Char) :
    (∀ k, (lead c cs).kind = some k →
      LongestMatch (c :: cs) k (c :: cs.take (lead c cs).extra)) ∧
    ((lead c cs).kind = none → Unreadable (c :: cs)) := by
  rcases longest_spec TokenKind.patterns 0 none (c :: cs) with
    ⟨hnone, hcovered⟩ | ⟨k, w, hw, hne, hlongest, hfirst, hlonger⟩
  · have hkind : (lead c cs).kind = none := by
      unfold lead
      rw [hnone]
      dsimp only
      split <;> rfl
    refine ⟨fun k hk => ?_, fun _ => .inl fun w hw hne k hk => hcovered w hw hne hk.covered⟩
    rw [hkind] at hk
    cases hk
  · obtain ⟨v, rfl, hv⟩ := exists_tail hw hne
    have hcovers : k.Covers (c :: v) := hfirst.exists_mem
    unfold lead
    rw [hlongest]
    dsimp only
    split
    · rename_i hcomment
      refine ⟨fun k hk => (Option.some_ne_none k hk.symm).elim, fun _ => .inr ?_⟩
      obtain ⟨hslash, hstar⟩ := Bool.and_eq_true_iff.mp hcomment
      obtain rfl := of_decide_eq_true hslash
      obtain ⟨body, rfl⟩ := List.head?_eq_some_iff.mp (of_decide_eq_true hstar)
      obtain ⟨rfl, rfl⟩ := List.cons.inj (hcovers.eq_of_lexeme? rfl)
      refine ⟨body, rfl, fun hclosed => ?_⟩
      obtain ⟨u, hu, hlength, hcomment⟩ := TokenKind.covers_comment hclosed
      exact hlonger u hu hlength hcomment.covered
    · have htake : cs.take (0 + (c :: v).length - 1) = v := by
        rw [Nat.zero_add, List.length_cons, Nat.add_sub_cancel]
        exact (List.prefix_iff_eq_take.mp hv).symm
      refine ⟨fun k' hk' => ?_, fun hnone => (Option.some_ne_none k hnone).elim⟩
      cases hk'
      rw [htake]
      refine ⟨hw, hcovers, fun u hu hlength k' hk' => hlonger u hu hlength hk'.covered, ?_⟩
      rintro k' word hword hsame
      rw [← hsame] at hfirst
      exact TokenKind.eq_of_firstCover hfirst hword

/-- **The scanner takes the longest match.**  The text of a token is covered by its kind, no kind
covers a longer prefix of the source from there on, and a text that some kind has as its own is of
that kind.  A lexical error stands only where no kind covers any prefix, or where a comment begins
that is not closed. -/
theorem takes_longest_match (source : String) :
    (∀ t, .ok t ∈ scan source → ∃ text, Text.dropBytes? t.span.start source.toList = some text ∧
      LongestMatch text t.kind t.text.toList) ∧
    (∀ e, .error e ∈ scan source → ∃ text, Text.dropBytes? e.span.start source.toList = some text ∧
      Unreadable text) := by
  have hcut : ∀ p ∈ scan source, ∃ c after, Text.dropBytes? (spanOf p).start source.toList =
      some (c :: after) ∧ ∃ offset, p = piece offset c after (lead c after) := by
    intro p hp
    obtain ⟨before, c, after, hsource, rfl⟩ := mem_scanFrom hp
    refine ⟨c, after, ?_, _, rfl⟩
    rw [start_piece, Nat.zero_add, hsource]
    exact Text.dropBytes?_byteSize before (c :: after)
  refine ⟨fun t ht => ?_, fun e he => ?_⟩
  · obtain ⟨c, after, hdrop, offset, hpiece⟩ := hcut _ ht
    refine ⟨c :: after, hdrop, ?_⟩
    unfold piece at hpiece
    split at hpiece
    · rename_i k hkind
      cases hpiece
      rw [String.toList_ofList]
      exact (lead_spec c after).1 k hkind
    · cases hpiece
  · obtain ⟨c, after, hdrop, offset, hpiece⟩ := hcut _ he
    refine ⟨c :: after, hdrop, ?_⟩
    unfold piece at hpiece
    split at hpiece
    · cases hpiece
    · exact (lead_spec c after).2 ‹_›

end Scanner

end AspectLang
