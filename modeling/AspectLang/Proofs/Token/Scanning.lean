import AspectLang.Automaton.Feed
import AspectLang.Token.Scanner

/-! # Where scanned tokens stand

A derivative of a pattern covers only what the pattern goes on with (`Pattern.Matches.of_derive`),
so a token is what its pattern covers (`Scanner.matches_of_lead`).  A shift operator therefore has
as many bytes as brackets.  The tokens of a text stand one after the other, each in front of the
next, and the end of input stands behind them all (`Scanner.queued_stream`). -/

namespace AspectLang

/-! ### Derivatives cover what they should -/

namespace Pattern

variable {p q : Pattern} {c : Char} {u : List Char}

theorem Matches.of_nullable (h : p.nullable = true) : p.Matches [] := by
  induction p with
  | none | char => cases h
  | empty => exact .empty
  | star => exact .starNil
  | seq p q ihp ihq =>
      obtain ⟨hp, hq⟩ := Bool.and_eq_true_iff.mp h
      exact .seq (ihp hp) (ihq hq)
  | alt p q ihp ihq =>
      rcases Bool.or_eq_true_iff.mp h with hp | hq
      · exact .altLeft (ihp hp)
      · exact .altRight (ihq hq)

theorem Matches.of_seq' (h : (seq' p q).Matches u) : (Pattern.seq p q).Matches u := by
  unfold seq' at h
  split at h
  · cases h
  · cases h
  · exact .seq .empty h
  · have hmore : (Pattern.seq p .empty).Matches (u ++ []) := .seq h .empty
    rwa [List.append_nil] at hmore
  · exact h

theorem Matches.of_alt' (h : (alt' p q).Matches u) : (Pattern.alt p q).Matches u := by
  unfold alt' at h
  split at h
  · exact .altRight h
  · exact .altLeft h
  · split at h
    · exact .altLeft h
    · exact h

/-- What a derivative covers, the pattern covers after the character. -/
theorem Matches.of_derive (h : (derive c p).Matches u) : p.Matches (c :: u) := by
  induction p generalizing u with
  | none | empty => cases h
  | char k =>
      unfold derive at h
      split at h
      · cases h
        exact .char ‹_›
      · cases h
  | seq p q ihp ihq =>
      have hfront : ∀ {v}, (seq' (derive c p) q).Matches v → (Pattern.seq p q).Matches (c :: v) := by
        intro v hv
        cases hv.of_seq' with
        | seq hp hq => exact .seq (ihp hp) hq
      unfold derive at h
      split at h
      · rename_i hnullable
        cases h.of_alt' with
        | altLeft h => exact hfront h
        | altRight h => exact .seq (.of_nullable hnullable) (ihq h)
      · exact hfront h
  | alt p q ihp ihq =>
      cases (show (alt' (derive c p) (derive c q)).Matches u from h).of_alt' with
      | altLeft h => exact .altLeft (ihp h)
      | altRight h => exact .altRight (ihq h)
  | star p ih =>
      cases (show (seq' (derive c p) (star p)).Matches u from h).of_seq' with
      | seq hp hs => exact .starCons (ih hp) hs

/-- A literal covers one text only. -/
theorem Matches.eq_of_literal {text : List Char} (h : (literal text).Matches u) : u = text := by
  have hone : ∀ {d v}, (Pattern.char (.one d)).Matches v → v = [d] := by
    intro d v hv
    cases hv with
    | @char _ e he =>
        have hsame : d ≤ e ∧ e ≤ d := by
          simpa [CharClass.contains, CharClass.one] using he
        rw [Char.le_antisymm hsame.1 hsame.2]
  induction text generalizing u with
  | nil =>
      cases h
      rfl
  | cons d text ih =>
      cases text with
      | nil => exact hone h
      | cons e text =>
          cases h with
          | seq hd hrest => rw [hone hd, ih hrest, List.singleton_append]

end Pattern

/-! ### Tokens are covered by their patterns -/

namespace Scanner

open Pattern

variable {live : List (TokenKind × Pattern)} {read n : Nat} {best : Option (TokenKind × Nat)}
  {k : TokenKind} {c : Char} {cs : List Char}

theorem mem_of_mem_advance {q : Pattern} (h : (k, q) ∈ advance c live) :
    ∃ p, (k, p) ∈ live ∧ q = p.derive c := by
  obtain ⟨⟨k', p⟩, hmem, heq⟩ := List.mem_filterMap.mp h
  dsimp only at heq
  split at heq
  · cases heq
  · cases heq
    exact ⟨p, hmem, rfl⟩

theorem mem_of_complete? (h : complete? live = some k) :
    ∃ p, (k, p) ∈ live ∧ p.nullable = true := by
  obtain ⟨⟨k', p⟩, hfind, rfl⟩ := Option.map_eq_some_iff.mp h
  have hnullable := List.find?_some hfind
  exact ⟨p, List.mem_of_find?_eq_some hfind, hnullable⟩

/-- A longest match is the best one known, or a live pattern covers it. -/
theorem longest_cases (h : longest live read best cs = some (k, n)) :
    best = some (k, n) ∨
      ∃ p m, (k, p) ∈ live ∧ n = read + (m + 1) ∧ m < cs.length ∧ p.Matches (cs.take (m + 1)) := by
  induction cs generalizing live read best with
  | nil => exact .inl h
  | cons c cs ih =>
      unfold longest at h
      split at h
      · exact .inl h
      · rcases ih h with hbest | ⟨q, m, hq, hn, hm, hmatches⟩
        · split at hbest
          · rename_i k' hcomplete
            cases hbest
            obtain ⟨q, hq, hnullable⟩ := mem_of_complete? hcomplete
            obtain ⟨p, hp, rfl⟩ := mem_of_mem_advance hq
            exact .inr ⟨p, 0, hp, rfl, Nat.succ_pos _, .of_derive (.of_nullable hnullable)⟩
          · exact .inl hbest
        · obtain ⟨p, hp, rfl⟩ := mem_of_mem_advance hq
          refine .inr ⟨p, m + 1, hp, by omega, Nat.succ_lt_succ hm, ?_⟩
          exact .of_derive hmatches

/-- A token at the front of a text is covered by a pattern of its kind. -/
theorem matches_of_lead (h : (lead c cs).kind = some k) :
    ∃ p, (k, p) ∈ TokenKind.patterns ∧ p.Matches (c :: cs.take (lead c cs).extra) := by
  unfold lead at h ⊢
  split at h
  · rename_i k' n hlongest
    split at h
    · cases h
    · rename_i hslash
      cases h
      rw [if_neg hslash]
      rcases longest_cases hlongest with hnone | ⟨p, m, hp, rfl, _, hmatches⟩
      · cases hnone
      · refine ⟨p, hp, ?_⟩
        simpa using hmatches
  · split at h <;> cases h

end Scanner

/-! ### Lengths of tokens -/

namespace TokenKind

theorem varying_brackets : ∀ e ∈ varyingPatterns, e.1.brackets = 1 := by
  simp [varyingPatterns, brackets]

/-- A kind that can be split has as many characters as brackets. -/
theorem brackets_le_lexeme {k : TokenKind} {text : String} (h : k.lexeme? = some text) :
    k.brackets ≤ max 1 text.toList.length := by
  cases k with
  | shiftRight | shiftRightUnsigned =>
      cases h
      decide
  | _ => exact Nat.le_max_left ..

/-- What a pattern of a kind covers has at least as many characters as the kind has brackets. -/
theorem brackets_le_length {k : TokenKind} {p : Pattern} {c : Char} {u : List Char}
    (hp : (k, p) ∈ patterns) (h : p.Matches (c :: u)) : k.brackets ≤ (c :: u).length := by
  rcases List.mem_append.mp hp with hfixed | hvarying
  · obtain ⟨k', _, hfixed⟩ := List.mem_filterMap.mp hfixed
    obtain ⟨text, htext, heq⟩ := Option.map_eq_some_iff.mp hfixed
    cases heq
    have hlexeme := brackets_le_lexeme htext
    rw [← h.eq_of_literal] at hlexeme
    have hlength : 1 ≤ (c :: u).length := Nat.succ_pos _
    rwa [Nat.max_eq_right hlength] at hlexeme
  · rw [varying_brackets _ hvarying]
    exact Nat.succ_pos _

end TokenKind

namespace Text

theorem length_le_byteSize (cs : List Char) : cs.length ≤ byteSize cs := by
  induction cs with
  | nil => exact Nat.le_refl 0
  | cons c cs ih =>
      have hc := c.utf8Size_pos
      simp only [List.length_cons, byteSize]
      omega

theorem byteSize_append (as bs : List Char) : byteSize (as ++ bs) = byteSize as + byteSize bs := by
  induction as with
  | nil => simp [byteSize]
  | cons a as ih => simp [byteSize, ih, Nat.add_assoc]

end Text

/-! ### The order of tokens -/

namespace Token

/-- Tokens stand one after the other from an offset on, up to a limit: each begins no earlier than
the one before it ends, and it has a byte for each bracket that it can be split into. -/
def Queued (limit offset : Nat) : List Token → Prop
  | [] => offset ≤ limit
  | t :: rest => offset ≤ t.span.start ∧ t.span.start + t.kind.brackets ≤ t.span.stop + 1 ∧
    Queued limit t.span.stop rest

variable {limit offset offset' : Nat} {t first second : Token} {rest : List Token}

theorem Queued.mono (h : Queued limit offset rest) (hle : offset' ≤ offset) :
    Queued limit offset' rest := by
  cases rest with
  | nil => exact Nat.le_trans hle h
  | cons t rest => exact ⟨Nat.le_trans hle h.1, h.2⟩

theorem Queued.start_le_stop (h : Queued limit offset (t :: rest)) :
    t.span.start ≤ t.span.stop := by
  have hb := t.kind.brackets_pos
  have hstop := h.2.1
  omega

theorem Queued.tail (h : Queued limit offset (t :: rest)) : Queued limit offset rest :=
  h.2.2.mono (Nat.le_trans h.1 h.start_le_stop)

theorem Queued.le_limit (h : Queued limit offset rest) : offset ≤ limit := by
  induction rest with
  | nil => exact h
  | cons t rest ih => exact ih h.tail

/-- Tokens stand one after the other from an offset on, and lie in front of a limit: each begins so
many bytes after the last one of the token before it, at the least, and it has a byte for each
bracket that it can be split into. -/
def Apart (gap limit offset : Nat) : List Token → Prop
  | [] => True
  | t :: rest => offset ≤ t.span.start ∧ t.span.start + t.kind.brackets ≤ t.span.stop + 1 ∧
    t.span.stop ≤ limit ∧ Apart gap limit (t.span.stop + gap) rest

theorem Apart.mono {gap gap' : Nat} (h : Apart gap limit offset rest) (hgap : gap' ≤ gap)
    (hoffset : offset' ≤ offset) : Apart gap' limit offset' rest := by
  induction rest generalizing offset offset' with
  | nil => trivial
  | cons t rest ih =>
      obtain ⟨hstart, hstop, hlimit, hrest⟩ := h
      exact ⟨Nat.le_trans hoffset hstart, hstop, hlimit, ih hrest (Nat.add_le_add_left hgap _)⟩

theorem Apart.start_le_stop {gap : Nat} (h : Apart gap limit offset (t :: rest)) :
    t.span.start ≤ t.span.stop := by
  have hb := t.kind.brackets_pos
  have hstop := h.2.1
  omega

/-- Tokens that stand apart are a queue. -/
theorem Apart.queued {gap : Nat} (h : Apart gap limit offset rest) (hoffset : offset ≤ limit) :
    Queued limit offset rest := by
  induction rest generalizing offset with
  | nil => exact hoffset
  | cons t rest ih =>
      obtain ⟨hstart, hstop, hlimit, hrest⟩ := h
      exact ⟨hstart, hstop, ih (hrest.mono (Nat.le_refl _) (Nat.le_add_right ..)) hlimit⟩

/-- Tokens of a queue may touch each other. -/
theorem Queued.apart (h : Queued limit offset rest) : Apart 0 limit offset rest := by
  induction rest generalizing offset with
  | nil => trivial
  | cons t rest ih => exact ⟨h.1, h.2.1, h.2.2.le_limit, ih h.2.2⟩

/-- How the halves of a token stand: the first where the token begins, with one bracket, and the
second behind it with the others. -/
theorem span_halves (h : t.split = .halves first second) :
    first.span = .point t.span.start ∧ first.kind = .gt ∧
      second.span = ⟨t.span.start + 1, t.span.stop⟩ ∧
        second.kind.brackets + 1 = t.kind.brackets := by
  obtain ⟨kinds, _, hkinds, _, _, rfl, rfl⟩ := of_split_halves h
  generalize t.kind = kind at hkinds
  cases kind <;> cases hkinds <;> exact ⟨rfl, rfl, rfl, rfl⟩

/-- The halves of a token stand in its place, one behind the other. -/
theorem Apart.halves {gap : Nat} (h : Apart gap limit offset (t :: rest)) (hgap : gap ≤ 1)
    (hsplit : t.split = .halves first second) :
    Apart gap limit offset (first :: second :: rest) := by
  obtain ⟨hpoint, hgt, hspan, hbrackets⟩ := span_halves hsplit
  obtain ⟨hstart, hstop, hlimit, hrest⟩ := h
  have hmore := second.kind.brackets_pos
  have hone : TokenKind.gt.brackets = 1 := rfl
  simp only [Apart, hpoint, hgt, hspan, Span.point, hone]
  refine ⟨hstart, Nat.le_refl _, ?_, Nat.add_le_add_left hgap _, ?_, hlimit, hrest⟩
  · omega
  · omega

theorem Queued.halves (h : Queued limit offset (t :: rest))
    (hsplit : t.split = .halves first second) :
    Queued limit offset (first :: second :: rest) :=
  (h.apart.halves (Nat.zero_le 1) hsplit).queued h.le_limit

/-- Tokens of one byte may be put at the place where the queue begins. -/
theorem Queued.insert {place : Nat} {kinds : List TokenKind} (h : Queued limit place rest)
    (hkinds : ∀ kind ∈ kinds, kind.brackets = 1) (text : TokenKind → String) :
    Queued limit place (kinds.map (fun kind => ⟨kind, .point place, text kind⟩) ++ rest) := by
  induction kinds with
  | nil => exact h
  | cons kind kinds ih =>
      refine ⟨Nat.le_refl _, ?_, ih fun k hk => hkinds k (List.mem_cons_of_mem _ hk)⟩
      rw [hkinds kind List.mem_cons_self]
      exact Nat.le_refl _

end Token

namespace Scanner

/-- The significant tokens among pieces. -/
def significant (pieces : List (Except LexicalError Token)) : List Token :=
  (pieces.filter isSignificant).filterMap fun
    | .ok t => some t
    | .error _ => none

theorem significant_cons (piece : Except LexicalError Token)
    (pieces : List (Except LexicalError Token)) :
    significant (piece :: pieces) = significant pieces ∨
      ∃ t, piece = .ok t ∧ significant (piece :: pieces) = t :: significant pieces := by
  unfold significant
  rw [List.filter_cons]
  split
  · cases piece with
    | ok t => exact .inr ⟨t, rfl, rfl⟩
    | error e => exact .inl rfl
  · exact .inl rfl

/-- A token fills the bytes of its text. -/
theorem place_of_piece {offset : Nat} {c : Char} {cs : List Char} {t : Token}
    (h : piece offset c cs (lead c cs) = .ok t) :
    t.span.start = offset ∧
      t.span.stop + 1 = offset + Text.byteSize (c :: cs.take (lead c cs).extra) ∧
      t.kind.brackets ≤ Text.byteSize (c :: cs.take (lead c cs).extra) := by
  have hsize := Text.length_le_byteSize (c :: cs.take (lead c cs).extra)
  have hpositive : 1 ≤ (c :: cs.take (lead c cs).extra).length := Nat.succ_pos _
  unfold piece at h
  split at h
  · rename_i kind hkind
    cases h
    obtain ⟨p, hp, hmatches⟩ := matches_of_lead hkind
    have hbrackets := TokenKind.brackets_le_length hp hmatches
    refine ⟨rfl, ?_, Nat.le_trans hbrackets hsize⟩
    dsimp only [Span.ofLen]
    omega
  · cases h

/-- The pieces of a text of bounded length, by recursion on the bound. -/
def scanWithin : Nat → Nat → List Char → List (Except LexicalError Token)
  | 0, _, _ | _, _, [] => []
  | n + 1, offset, c :: cs =>
    let l := lead c cs
    piece offset c cs l ::
      scanWithin n (offset + Text.byteSize (c :: cs.take l.extra)) (cs.drop l.extra)

/-- Scanning can be evaluated. -/
theorem scanFrom_eq_within {n offset : Nat} {cs : List Char} (h : cs.length ≤ n) :
    scanFrom offset cs = scanWithin n offset cs := by
  induction n generalizing offset cs with
  | zero =>
      obtain rfl := List.length_eq_zero_iff.mp (Nat.le_zero.mp h)
      rw [scanFrom, scanWithin]
  | succ n ih =>
      cases cs with
      | nil =>
          rw [scanFrom, scanWithin]
          simp
      | cons c cs =>
          rw [scanFrom, scanWithin, ih]
          rw [List.length_drop]
          rw [List.length_cons] at h
          omega

theorem apart_scanFrom (offset : Nat) (cs : List Char) :
    Token.Apart 1 (offset + Text.byteSize cs) offset
      (significant (scanFrom offset cs) ++ [Token.eof (offset + Text.byteSize cs)]) := by
  induction offset, cs using scanFrom.induct with
  | case1 offset =>
      rw [scanFrom]
      exact ⟨Nat.le_add_right .., Nat.le_refl _, Nat.le_refl _, trivial⟩
  | case2 offset c cs l ih =>
      rw [scanFrom]
      have hwhole : Text.byteSize (c :: cs) =
          Text.byteSize (c :: cs.take l.extra) + Text.byteSize (cs.drop l.extra) := by
        rw [← Text.byteSize_append, List.cons_append, List.take_append_drop]
      rw [hwhole, ← Nat.add_assoc]
      rcases significant_cons (piece offset c cs l)
        (scanFrom (offset + Text.byteSize (c :: cs.take l.extra)) (cs.drop l.extra)) with
        hskip | ⟨t, hpiece, hkeep⟩
      · refine (congrArg (Token.Apart 1 _ offset <| · ++ _) hskip).mpr ?_
        exact ih.mono (Nat.le_refl _) (Nat.le_add_right ..)
      · refine (congrArg (Token.Apart 1 _ offset <| · ++ _) hkeep).mpr ?_
        obtain ⟨hstart, hstop, hbrackets⟩ := place_of_piece hpiece
        refine ⟨Nat.le_of_eq hstart.symm, ?_, ?_, ih.mono (Nat.le_refl _) (Nat.le_of_eq hstop)⟩
        · rw [hstart, hstop]
          exact Nat.add_le_add_left hbrackets offset
        · exact Nat.le_trans (Nat.le_of_succ_le (Nat.le_of_eq hstop)) (Nat.le_add_right ..)

/-- The tokens of a text do not touch each other, nor does the end of input. -/
theorem apart_stream (source : String) :
    Token.Apart 1 (stream source).endOffset 0
      ((stream source).tokens ++ [Token.eof (stream source).endOffset]) := by
  have h := apart_scanFrom 0 source.toList
  rw [Nat.zero_add] at h
  exact h

/-- **The tokens of a text stand in order**, and the end of input behind them. -/
theorem queued_stream (source : String) :
    Token.Queued (stream source).endOffset 0
      ((stream source).tokens ++ [Token.eof (stream source).endOffset]) :=
  (apart_stream source).queued (Nat.zero_le _)

end Scanner

end AspectLang

/-! ## The pieces of a text cover it

A piece is cut from the front of what the pieces before it have left (`Scanner.mem_scanFrom`), and
its range is as long as its text (`Scanner.stop_piece`).  The pieces of a source therefore stand
side by side from its first byte to its last (`Scanner.tiles_scanFrom`), each is the text that the
source has at its place, and their texts make up the source again.  A parser is shown all of them
but the trivia (`Scanner.scan_lossless`). -/

namespace AspectLang

/-! ### Cutting a text at the end of a character -/

namespace Text

theorem dropBytes?_byteSize (as bs : List Char) :
    dropBytes? (byteSize as) (as ++ bs) = some bs := by
  induction as with
  | nil => simp [byteSize, dropBytes?]
  | cons a as ih =>
      obtain ⟨n, hn⟩ : ∃ n, a.utf8Size + byteSize as = n + 1 :=
        ⟨_, (Nat.succ_pred_eq_of_pos (Nat.add_pos_left a.utf8Size_pos _)).symm⟩
      have hrest : n + 1 - a.utf8Size = byteSize as := by omega
      have hfits : a.utf8Size ≤ n + 1 := by omega
      rw [byteSize, hn, List.cons_append, dropBytes?, if_pos hfits, hrest, ih]

theorem takeBytes?_byteSize (as bs : List Char) :
    takeBytes? (byteSize as) (as ++ bs) = some as := by
  induction as with
  | nil => simp [byteSize, takeBytes?]
  | cons a as ih =>
      obtain ⟨n, hn⟩ : ∃ n, a.utf8Size + byteSize as = n + 1 :=
        ⟨_, (Nat.succ_pred_eq_of_pos (Nat.add_pos_left a.utf8Size_pos _)).symm⟩
      have hrest : n + 1 - a.utf8Size = byteSize as := by omega
      have hfits : a.utf8Size ≤ n + 1 := by omega
      rw [byteSize, hn, List.cons_append, takeBytes?, if_pos hfits, hrest, ih, Option.map_some]

/-- The bytes between two parts of a text are the part between them. -/
theorem slice?_between (before text after : List Char) :
    slice? (before ++ (text ++ after)) (byteSize before) (byteSize before + byteSize text) =
      some text := by
  rw [slice?, if_pos (Nat.le_add_right ..), dropBytes?_byteSize, Nat.add_sub_cancel_left]
  exact takeBytes?_byteSize text after

end Text

namespace Scanner

/-! ### Ranges and texts of pieces -/

/-- The range of a piece. -/
def spanOf : Except LexicalError Token → Span
  | .ok t => t.span
  | .error e => e.span

/-- The text of a piece. -/
def textOf : Except LexicalError Token → String
  | .ok t => t.text
  | .error e => e.text

variable {offset : Nat} {c : Char} {cs : List Char} {l : Lead} {p : Except LexicalError Token}

theorem spanOf_piece :
    spanOf (piece offset c cs l) = .ofLen offset (Text.byteSize (c :: cs.take l.extra)) := by
  unfold piece
  cases l.kind <;> rfl

theorem textOf_piece : textOf (piece offset c cs l) = String.ofList (c :: cs.take l.extra) := by
  unfold piece
  cases l.kind <;> rfl

theorem start_piece : (spanOf (piece offset c cs l)).start = offset := by
  rw [spanOf_piece, Span.ofLen]

/-- A piece ends where its text ends, and it is at least one byte long. -/
theorem stop_piece :
    (spanOf (piece offset c cs l)).stop + 1 =
      offset + Text.byteSize (c :: cs.take l.extra) := by
  have hsize := Text.length_le_byteSize (c :: cs.take l.extra)
  rw [List.length_cons] at hsize
  rw [spanOf_piece, Span.ofLen]
  dsimp only
  omega

theorem byteSize_lead (n : Nat) :
    Text.byteSize (c :: cs) = Text.byteSize (c :: cs.take n) + Text.byteSize (cs.drop n) := by
  rw [← Text.byteSize_append, List.cons_append, List.take_append_drop]

/-! ### Side by side -/

/-- Pieces stand side by side from an offset up to, and not including, `limit`: the first begins
at the offset, each one begins at the byte after the last byte of the one before it, and the last
ends at the byte before the limit. -/
def Tiles (limit : Nat) : Nat → List (Except LexicalError Token) → Prop
  | offset, [] => offset = limit
  | offset, p :: rest => (spanOf p).start = offset ∧ offset ≤ (spanOf p).stop ∧
    Tiles limit ((spanOf p).stop + 1) rest

theorem tiles_scanFrom (offset : Nat) (cs : List Char) :
    Tiles (offset + Text.byteSize cs) offset (scanFrom offset cs) := by
  induction offset, cs using scanFrom.induct with
  | case1 offset =>
      rw [scanFrom]
      rfl
  | case2 offset c cs l ih =>
      have hstop : (spanOf (piece offset c cs (lead c cs))).stop + 1 = _ := stop_piece
      have hsize := Text.length_le_byteSize (c :: cs.take l.extra)
      rw [List.length_cons] at hsize
      rw [scanFrom, byteSize_lead l.extra, ← Nat.add_assoc]
      refine ⟨start_piece, ?_, ?_⟩
      · dsimp only [l] at hsize ⊢
        omega
      · rw [hstop]
        exact ih

/-! ### Cut from the source -/

/-- A piece is what leads the text after some part of the source. -/
theorem mem_scanFrom (h : p ∈ scanFrom offset cs) :
    ∃ before c after, cs = before ++ c :: after ∧
      p = piece (offset + Text.byteSize before) c after (lead c after) := by
  induction offset, cs using scanFrom.induct with
  | case1 offset =>
      rw [scanFrom] at h
      cases h
  | case2 offset c cs l ih =>
      rw [scanFrom] at h
      rcases List.mem_cons.mp h with rfl | hrest
      · exact ⟨[], c, cs, rfl, rfl⟩
      · obtain ⟨before, c', after, hsplit, hp⟩ := ih hrest
        refine ⟨c :: cs.take l.extra ++ before, c', after, ?_, ?_⟩
        · rw [List.append_assoc, ← hsplit, List.cons_append, List.take_append_drop]
        · rw [Text.byteSize_append, ← Nat.add_assoc]
          exact hp

/-- The text of a piece is the text of the source at its place. -/
theorem slice?_of_mem (h : p ∈ scanFrom 0 cs) :
    Text.slice? cs (spanOf p).start ((spanOf p).stop + 1) = some (textOf p).toList := by
  obtain ⟨before, c, after, rfl, rfl⟩ := mem_scanFrom h
  rw [start_piece, stop_piece, textOf_piece, String.toList_ofList, Nat.zero_add]
  have hcut := Text.slice?_between before (c :: after.take (lead c after).extra)
    (after.drop (lead c after).extra)
  rwa [List.cons_append, List.take_append_drop] at hcut

theorem texts_scanFrom (offset : Nat) (cs : List Char) :
    ((scanFrom offset cs).map fun p => (textOf p).toList).flatten = cs := by
  induction offset, cs using scanFrom.induct with
  | case1 offset => rw [scanFrom, List.map_nil, List.flatten_nil]
  | case2 offset c cs l ih =>
      rw [scanFrom, List.map_cons, List.flatten_cons, ih, textOf_piece, String.toList_ofList,
        List.cons_append, List.take_append_drop]

/-! ### What a parser is shown -/

/-- Whether a piece is a token of one of the kinds that stand between the others. -/
def IsTrivial : Except LexicalError Token → Prop
  | .ok t => t.kind ∈ TokenKind.trivia
  | .error _ => False

instance : DecidablePred IsTrivial
  | .ok t => inferInstanceAs (Decidable (t.kind ∈ TokenKind.trivia))
  | .error _ => inferInstanceAs (Decidable False)

theorem isSignificant_eq (p : Except LexicalError Token) :
    isSignificant p = decide (¬ IsTrivial p) := by
  cases p with
  | error e => rfl
  | ok t =>
      obtain ⟨kind, span, text⟩ := t
      cases kind <;> rfl

/-- **Scanning loses nothing.**  The pieces of a source stand side by side from its first byte to
its last; each has the text that the source has at its place; their texts, one after the other, are
the source; and a parser is shown them in order, all but the trivia. -/
theorem scan_lossless (source : String) :
    Tiles (stream source).endOffset 0 (scan source) ∧
      (∀ p ∈ scan source,
        Text.slice? source.toList (spanOf p).start ((spanOf p).stop + 1) =
          some (textOf p).toList) ∧
      String.join ((scan source).map textOf) = source ∧
      (stream source).pieces = (scan source).filter fun p => ¬ IsTrivial p := by
  refine ⟨?_, fun p hp => slice?_of_mem hp, ?_, ?_⟩
  · have htiles := tiles_scanFrom 0 source.toList
    rwa [Nat.zero_add] at htiles
  · apply String.toList_inj.mp
    rw [String.toList_join, List.flatMap_map]
    exact texts_scanFrom 0 source.toList
  · exact congrArg (List.filter · (scan source)) (funext isSignificant_eq)

end Scanner

end AspectLang
