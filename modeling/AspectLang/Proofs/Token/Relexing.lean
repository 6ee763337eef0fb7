import AspectLang.Proofs.Token.LongestMatch
import Mathlib.Data.Bool.AllAny

/-! # Texts that are put together from tokens

Whether the scanner takes a token from the front of a text is decided by the token and by what
follows it (`Scanner.Takes`, `Scanner.lead_iff_takes`).  Of what follows, only the part up to the
next blank, bracket or semicolon counts: a token that is taken from a text is also taken where
another text follows that agrees with the old one up to such a character or up to its end
(`Scanner.Takes.relocate`).  For a longer match would have to reach over that character, which only
literals in quotes and comments do; literals end at their closing quote, and a comment would have
begun in the old text already.

`Scanner.Piece`s are tokens and blanks.  A list of them is legible if
each token is taken in front of the text of those behind it, and then scanning the text gives the
tokens back (`Scanner.scan_spell`). -/

namespace AspectLang

/-! ### Characters that a pattern avoids -/

namespace Pattern

/-- No text that a pattern covers contains the character. -/
def avoids (c : Char) : Pattern → Bool
  | .none | .empty => true
  | .char k => !k.contains c
  | .seq p q | .alt p q => avoids c p && avoids c q
  | .star p => avoids c p

theorem Matches.not_mem {p : Pattern} {w : List Char} {c : Char} (h : p.Matches w)
    (hc : p.avoids c = true) : c ∉ w := by
  induction h with
  | empty | starNil => exact List.not_mem_nil
  | @char k d hd =>
      rw [avoids, Bool.not_eq_true'] at hc
      rintro hmem
      rw [List.mem_singleton.mp hmem, hd] at hc
      cases hc
  | seq _ _ ihp ihq =>
      rw [avoids, Bool.and_eq_true] at hc
      exact fun hmem => (List.mem_append.mp hmem).elim (ihp hc.1) (ihq hc.2)
  | altLeft _ ih =>
      rw [avoids, Bool.and_eq_true] at hc
      exact ih hc.1
  | altRight _ ih =>
      rw [avoids, Bool.and_eq_true] at hc
      exact ih hc.2
  | starCons _ _ ihp ihs =>
      exact fun hmem => (List.mem_append.mp hmem).elim (ihp hc) (ihs hc)

theorem Matches.exists_of_char {k : CharClass} {w : List Char} (h : (Pattern.char k).Matches w) :
    ∃ c, w = [c] ∧ k.contains c = true := by
  cases h with
  | char hc => exact ⟨_, rfl, hc⟩

theorem Matches.exists_of_seq {p q : Pattern} {w : List Char} (h : (Pattern.seq p q).Matches w) :
    ∃ u v, w = u ++ v ∧ p.Matches u ∧ q.Matches v := by
  cases h with
  | seq hp hq => exact ⟨_, _, rfl, hp, hq⟩

/-- The sets of characters that the texts of a pattern begin with. -/
def heads : Pattern → List CharClass
  | .none | .empty => []
  | .char k => [k]
  | .seq p q => heads p ++ if p.nullable then heads q else []
  | .alt p q => heads p ++ heads q
  | .star p => heads p

theorem Matches.exists_head {p : Pattern} {w : List Char} (h : p.Matches w) :
    ∀ c ∈ w.head?, ∃ k ∈ p.heads, k.contains c = true := by
  induction h with
  | empty | starNil => nofun
  | @char k d hd =>
      rintro c hc
      obtain rfl := Option.some.inj hc
      exact ⟨k, List.mem_cons_self, hd⟩
  | @seq p q u v hp _ ihp ihq =>
      intro c hc
      cases u with
      | nil =>
          obtain ⟨k, hk, hcontains⟩ := ihq c hc
          refine ⟨k, List.mem_append_right _ ?_, hcontains⟩
          rwa [if_pos (matches_nil.mp hp)]
      | cons d u =>
          obtain ⟨k, hk, hcontains⟩ := ihp c hc
          exact ⟨k, List.mem_append_left _ hk, hcontains⟩
  | altLeft _ ih =>
      intro c hc
      obtain ⟨k, hk, hcontains⟩ := ih c hc
      exact ⟨k, List.mem_append_left _ hk, hcontains⟩
  | altRight _ ih =>
      intro c hc
      obtain ⟨k, hk, hcontains⟩ := ih c hc
      exact ⟨k, List.mem_append_right _ hk, hcontains⟩
  | @starCons p u v _ _ ihp ihs =>
      intro c hc
      cases u with
      | nil => exact ihs c hc
      | cons d u => exact ihp c hc

/-- A pattern without a derivative covers nothing that begins with the character. -/
theorem not_matches_of_derive {p : Pattern} {w : List Char} {c : Char} (h : p.derive c = .none) :
    ¬ p.Matches (c :: w) := by
  intro hmatches
  have hrest := hmatches.derive
  rw [h] at hrest
  cases hrest

end Pattern

/-! ### Quoted literals -/

namespace TokenKind

open Pattern hiding none

/-- The pattern of string literals. -/
def stringPattern : Pattern := sequence [among ['"'], .star (quotedItem '"'), among ['"']]

/-- The pattern of character literals. -/
def characterPattern : Pattern := sequence [among ['\''], quotedItem '\'', among ['\'']]

/-- What stands behind the closing quote of a literal, read from behind its opening quote. -/
def behindQuote (quote : Char) : List Char → Option (List Char)
  | [] => none
  | '\\' :: _ :: cs => behindQuote quote cs
  | c :: cs => if c = quote then some cs else behindQuote quote cs

theorem behindQuote_of_ne {quote c : Char} (h : c ≠ '\\') (cs : List Char) :
    behindQuote quote (c :: cs) = if c = quote then some cs else behindQuote quote cs := by
  rw [behindQuote]
  rintro d ds hd
  cases hd
  exact absurd rfl h

theorem exists_of_among {cs w : List Char} (h : (among cs).Matches w) : ∃ c ∈ cs, w = [c] := by
  obtain ⟨c, rfl, hc⟩ := Matches.exists_of_char h
  exact ⟨c, CharClass.contains_oneOf.mp hc, rfl⟩

theorem eq_of_among {c : Char} {w : List Char} (h : (among [c]).Matches w) : w = [c] := by
  obtain ⟨d, hd, rfl⟩ := exists_of_among h
  rw [List.mem_singleton.mp hd]

theorem exists_of_outside {cs w : List Char} (h : (outside cs).Matches w) : ∃ c ∉ cs, w = [c] := by
  obtain ⟨c, rfl, hc⟩ := Matches.exists_of_char h
  exact ⟨c, CharClass.contains_noneOf.mp hc, rfl⟩

section

variable {quote : Char} (hquote : quote = '"' ∨ quote = '\'')

include hquote

theorem behindQuote_hexDigit {w : List Char} (h : hexDigit.Matches w) (rest : List Char) :
    behindQuote quote (w ++ rest) = behindQuote quote rest := by
  obtain ⟨c, rfl, hc⟩ := Matches.exists_of_char h
  have hslash : c ≠ '\\' := by
    rintro rfl
    exact absurd hc (by decide)
  have hother : c ≠ quote := by
    rintro rfl
    rcases hquote with rfl | rfl <;> exact absurd hc (by decide)
  exact (behindQuote_of_ne hslash rest).trans (if_neg hother)

/-- An item of a literal is passed over. -/
theorem behindQuote_item {w : List Char} (h : (quotedItem quote).Matches w) (rest : List Char) :
    behindQuote quote (w ++ rest) = behindQuote quote rest := by
  cases h with
  | altLeft hplain =>
      obtain ⟨c, hc, rfl⟩ := exists_of_outside hplain
      simp only [List.mem_cons, List.not_mem_nil, or_false, not_or] at hc
      exact (behindQuote_of_ne hc.2 rest).trans (if_neg hc.1)
  | altRight h =>
      cases h with
      | altLeft hcode =>
          obtain ⟨_, _, rfl, hslash, hcode⟩ := hcode.exists_of_seq
          obtain ⟨_, _, rfl, hmark, hcode⟩ := hcode.exists_of_seq
          obtain ⟨u₁, _, rfl, h₁, hcode⟩ := hcode.exists_of_seq
          obtain ⟨u₂, _, rfl, h₂, hcode⟩ := hcode.exists_of_seq
          obtain ⟨u₃, u₄, rfl, h₃, h₄⟩ := hcode.exists_of_seq
          obtain rfl := eq_of_among hslash
          obtain rfl := eq_of_among hmark
          simp only [List.append_assoc]
          change behindQuote quote (u₁ ++ (u₂ ++ (u₃ ++ (u₄ ++ rest)))) = _
          rw [behindQuote_hexDigit hquote h₁, behindQuote_hexDigit hquote h₂,
            behindQuote_hexDigit hquote h₃, behindQuote_hexDigit hquote h₄]
      | altRight hescape =>
          obtain ⟨_, _, rfl, hslash, hany⟩ := hescape.exists_of_seq
          obtain ⟨d, _, rfl⟩ := exists_of_outside hany
          obtain rfl := eq_of_among hslash
          rfl

theorem behindQuote_items {w : List Char} (h : (quotedItem quote).star.Matches w)
    (rest : List Char) : behindQuote quote (w ++ rest) = behindQuote quote rest := by
  generalize hp : (quotedItem quote).star = p at h
  induction h with
  | starNil => rfl
  | starCons hitem _ _ ih =>
      cases hp
      rw [List.append_assoc, behindQuote_item hquote hitem]
      exact ih rfl
  | empty | char | seq | altLeft | altRight => cases hp

/-- The closing quote ends a literal. -/
theorem behindQuote_close (rest : List Char) : behindQuote quote (quote :: rest) = some rest := by
  have hslash : quote ≠ '\\' := by
    rcases hquote with rfl | rfl <;> decide
  exact (behindQuote_of_ne hslash rest).trans (if_pos rfl)

end

/-- A pattern is that of the literals in quotes of some kind. -/
def IsQuoted (quote : Char) (p : Pattern) : Prop :=
  quote = '"' ∧ p = stringPattern ∨ quote = '\'' ∧ p = characterPattern

/-- Reading a literal from behind its opening quote comes to what stands behind it. -/
theorem IsQuoted.behindQuote {quote : Char} {p : Pattern} {w : List Char} (hp : IsQuoted quote p)
    (h : p.Matches (quote :: w)) (rest : List Char) :
    behindQuote quote (w ++ rest) = some rest := by
  rcases hp with ⟨rfl, rfl⟩ | ⟨rfl, rfl⟩
  · obtain ⟨_, _, hw, hopen, hbody⟩ := h.exists_of_seq
    obtain ⟨items, _, rfl, hitems, hclose⟩ := hbody.exists_of_seq
    obtain rfl := eq_of_among hopen
    obtain rfl := eq_of_among hclose
    obtain ⟨_, rfl⟩ := List.cons.inj hw
    change TokenKind.behindQuote '"' ((items ++ ['"']) ++ rest) = some rest
    rw [List.append_assoc]
    exact (behindQuote_items (.inl rfl) hitems _).trans (behindQuote_close (.inl rfl) rest)
  · obtain ⟨_, _, hw, hopen, hbody⟩ := h.exists_of_seq
    obtain ⟨item, _, rfl, hitem, hclose⟩ := hbody.exists_of_seq
    obtain rfl := eq_of_among hopen
    obtain rfl := eq_of_among hclose
    obtain ⟨_, rfl⟩ := List.cons.inj hw
    change TokenKind.behindQuote '\'' ((item ++ ['\'']) ++ rest) = some rest
    rw [List.append_assoc]
    exact (behindQuote_item (.inr rfl) hitem _).trans (behindQuote_close (.inr rfl) rest)

/-- **A literal does not go on behind its closing quote.** -/
theorem IsQuoted.ends {quote d : Char} {p : Pattern} {w more : List Char} (hp : IsQuoted quote p)
    (h : p.Matches (quote :: w)) : ¬ p.Matches (quote :: (w ++ d :: more)) := by
  intro hlonger
  have hlong := hp.behindQuote hlonger []
  rw [List.append_nil, hp.behindQuote h (d :: more)] at hlong
  cases hlong

end TokenKind

/-! ### Tokens at the front of a text -/

namespace Scanner

open TokenKind (patterns stringPattern characterPattern IsQuoted)
open Pattern hiding none

variable {k k' : TokenKind} {c : Char} {w rest : List Char} {entries : List (TokenKind × Pattern)}

theorem FirstCover.unique (h : FirstCover entries w k) (h' : FirstCover entries w k') : k = k' := by
  induction entries with
  | nil => cases h
  | cons e entries ih =>
      rcases h with ⟨hmatches, rfl⟩ | ⟨hnot, h⟩
      · rcases h' with ⟨_, rfl⟩ | ⟨hnot, _⟩
        · rfl
        · exact absurd hmatches hnot
      · rcases h' with ⟨hmatches, _⟩ | ⟨_, h'⟩
        · exact absurd hmatches hnot
        · exact ih h h'

theorem FirstCover.covered (h : FirstCover entries w k) : Covered entries w := by
  obtain ⟨p, hp, hmatches⟩ := h.exists_mem
  exact ⟨_, hp, hmatches⟩

/-- The scanner takes a token in front of a text: its kind is the first that covers it, nothing
covers more of the text, and it does not begin a comment. -/
structure Takes (k : TokenKind) (w rest : List Char) : Prop where
  nonempty : w ≠ []
  first : FirstCover patterns w k
  longest : ∀ v, v <+: rest → v ≠ [] → ¬ Covered patterns (w ++ v)
  opens : k = .slash → rest.head? ≠ some '*'

/-- The slash covers no other text. -/
theorem Takes.eq_slash (h : Takes .slash w rest) : w = ['/'] := by
  have hcovers : TokenKind.slash.Covers w := h.first.exists_mem
  exact hcovers.eq_of_lexeme? rfl

/-- **What leads a text is what the scanner takes there.** -/
theorem lead_iff_takes : lead c (w ++ rest) = ⟨some k, w.length⟩ ↔ Takes k (c :: w) rest := by
  have hprefix : c :: w <+: c :: (w ++ rest) := ⟨rest, rfl⟩
  rcases longest_spec patterns 0 none (c :: (w ++ rest)) with
    ⟨hnone, hcovered⟩ | ⟨k', v, hv, hne, hlongest, hfirst, hlonger⟩
  · constructor
    · intro hlead
      unfold lead at hlead
      rw [hnone] at hlead
      dsimp only at hlead
      split at hlead <;> cases hlead
    · exact fun h => absurd h.first.covered (hcovered _ hprefix h.nonempty)
  · obtain ⟨u, rfl, hu⟩ := exists_tail hv hne
    constructor
    · intro hlead
      unfold lead at hlead
      rw [hlongest] at hlead
      dsimp only at hlead
      split at hlead
      · cases hlead
      · rename_i hcomment
        simp only [Lead.mk.injEq, Option.some.injEq, List.length_cons, Nat.zero_add,
          Nat.add_sub_cancel] at hlead
        obtain ⟨rfl, hlength⟩ := hlead
        obtain rfl : u = w := List.IsPrefix.eq_of_length
          (List.prefix_of_prefix_length_le hu ⟨rest, rfl⟩ (Nat.le_of_eq hlength)) hlength
        refine ⟨hne, hfirst, fun v hv hmore => ?_, fun hslash hstar => ?_⟩
        · obtain ⟨after, rfl⟩ := hv
          refine hlonger _ ⟨after, by simp⟩ ?_
          rw [List.length_append]
          exact Nat.lt_add_of_pos_right (List.length_pos_iff.mpr hmore)
        · subst hslash
          have hcovers : TokenKind.slash.Covers (c :: u) := hfirst.exists_mem
          obtain ⟨rfl, rfl⟩ := List.cons.inj (hcovers.eq_of_lexeme? rfl)
          exact hcomment (by simpa using hstar)
    · intro h
      have hle : u.length ≤ w.length := by
        refine Nat.le_of_not_lt fun hlt => ?_
        obtain ⟨more, rfl⟩ := List.prefix_of_prefix_length_le ⟨rest, rfl⟩ hu (Nat.le_of_lt hlt)
        obtain ⟨after, hafter⟩ := hu
        rw [List.append_assoc] at hafter
        refine h.longest more ⟨after, List.append_cancel_left hafter⟩ ?_ hfirst.covered
        rintro rfl
        simp at hlt
      have hge : w.length ≤ u.length := by
        refine Nat.le_of_not_lt fun hlt => ?_
        exact hlonger (c :: w) hprefix (by simpa using hlt) h.first.covered
      obtain rfl : u = w := List.IsPrefix.eq_of_length
        (List.prefix_of_prefix_length_le hu ⟨rest, rfl⟩ hle) (Nat.le_antisymm hle hge)
      obtain rfl := hfirst.unique h.first
      unfold lead
      rw [hlongest]
      dsimp only
      rw [if_neg]
      · simp
      · intro hcomment
        obtain ⟨hslash, hstar⟩ := Bool.and_eq_true_iff.mp hcomment
        obtain rfl := of_decide_eq_true hslash
        obtain ⟨_, rfl⟩ := List.cons.inj h.eq_slash
        exact h.opens rfl (of_decide_eq_true hstar)

/-- A token that the scanner takes in front of a text is the first piece of the whole. -/
theorem scanFrom_of_takes (h : Takes k w rest) (offset : Nat) :
    scanFrom offset (w ++ rest) =
      .ok ⟨k, .ofLen offset (Text.byteSize w), String.ofList w⟩ ::
        scanFrom (offset + Text.byteSize w) rest := by
  obtain ⟨c, w, rfl⟩ := List.exists_cons_of_ne_nil h.nonempty
  rw [List.cons_append, scanFrom, lead_iff_takes.mpr h]
  simp [piece]

theorem extra_le_length {cs : List Char} (h : (lead c cs).kind = some k) :
    (lead c cs).extra ≤ cs.length := by
  unfold lead at h ⊢
  rcases longest_spec patterns 0 none (c :: cs) with ⟨hnone, _⟩ | ⟨k', v, hv, hne, hlongest, _, _⟩
  · rw [hnone] at h
    dsimp only at h
    split at h <;> cases h
  · rw [hlongest] at h ⊢
    dsimp only at h ⊢
    split
    · exact Nat.le_refl _
    · have hle := hv.length_le
      rw [List.length_cons] at hle
      dsimp only
      omega

/-- A token that was scanned is one that the scanner takes in front of what follows it. -/
theorem takes_of_mem_scan {cs : List Char} {t : Token} (h : .ok t ∈ scanFrom 0 cs) :
    ∃ before rest, cs = before ++ (t.text.toList ++ rest) ∧
      t.span = .ofLen (Text.byteSize before) (Text.byteSize t.text.toList) ∧
        Takes t.kind t.text.toList rest := by
  obtain ⟨before, c, after, rfl, hpiece⟩ := mem_scanFrom h
  cases hkind : (lead c after).kind with
  | none =>
      unfold piece at hpiece
      rw [hkind] at hpiece
      cases hpiece
  | some k =>
      unfold piece at hpiece
      rw [hkind, Nat.zero_add] at hpiece
      cases hpiece
      have hwhole : after.take (lead c after).extra ++ after.drop (lead c after).extra = after :=
        List.take_append_drop ..
      refine ⟨before, after.drop (lead c after).extra, ?_, ?_, ?_⟩
      · rw [String.toList_ofList, List.cons_append, hwhole]
      · rw [String.toList_ofList]
      · rw [String.toList_ofList]
        refine lead_iff_takes.mp ?_
        rw [hwhole, ← hkind]
        rw [List.length_take_of_le (extra_le_length hkind)]

/-! ### Characters that no token reaches over -/

/-- Characters that stand in no token but one of their own, in a literal or in a comment. -/
def breakers : List Char := [' ', ';', '(', ')', '[', ']', '\x7b', '\x7d', ',']

/-- A text is empty or begins with a character that no token reaches over. -/
def Breaks (text : List Char) : Prop := ∀ c ∈ text.head?, c ∈ breakers

/-- The characters that blanks consist of. -/
def blanks : List Char := [' ', '\t', '\n', '\r', '\x0c']

/-- What the patterns show one by one; the characters are tried one by one, and only those listed. -/
theorem patterns_shown : ∀ e ∈ patterns,
    ((breakers.all fun c => e.2.avoids c = true ∨ e.2 = .char (.one c)) = true ∨
      e.2 = stringPattern ∨ e.2 = characterPattern ∨
      e.2.heads = [.oneOf blanks] ∨
      e.2.heads = [.oneOf ['/']] ∧ ((e.2.derive '/').heads = [.oneOf ['/']] ∨
        (e.2.derive '/').heads = [.oneOf ['*']])) ∧
    ((e.2.derive '"' = .none ∨ e.2 = stringPattern) ∧
      (e.2.derive '\'' = .none ∨ e.2 = characterPattern)) ∧
    (e.1.isTrivia = false →
      (blanks.all fun c => e.2.derive c = .none) = true ∧
        (['/', '*'].all fun c => (e.2.derive '/').derive c = .none) = true) := by
  decide +kernel

/-- A token reaches over a breaking character only in a literal, in a comment or among blanks. -/
theorem patterns_reach : ∀ e ∈ patterns,
    (∀ c ∈ breakers, e.2.avoids c = true ∨ e.2 = .char (.one c)) ∨
      e.2 = stringPattern ∨ e.2 = characterPattern ∨
      e.2.heads = [.oneOf blanks] ∨
      e.2.heads = [.oneOf ['/']] ∧ ((e.2.derive '/').heads = [.oneOf ['/']] ∨
        (e.2.derive '/').heads = [.oneOf ['*']]) :=
  fun e he => (patterns_shown e he).1.imp_left List.all_iff_forall_prop.mp

/-- What begins with a quote is a literal. -/
theorem patterns_quoted : ∀ e ∈ patterns, (e.2.derive '"' = .none ∨ e.2 = stringPattern) ∧
    (e.2.derive '\'' = .none ∨ e.2 = characterPattern) :=
  fun e he => (patterns_shown e he).2.1

/-- No token but one between others begins with a blank or as a comment. -/
theorem patterns_begin : ∀ e ∈ patterns, e.1.isTrivia = false →
    (∀ c ∈ blanks, e.2.derive c = .none) ∧
      ∀ c ∈ ['/', '*'], (e.2.derive '/').derive c = .none :=
  fun e he htrivia => ((patterns_shown e he).2.2 htrivia).imp List.all_iff_forall_prop.mp
    List.all_iff_forall_prop.mp

/-- The patterns that can still match after some characters. -/
def liveAfter (w : List Char) : List (TokenKind × Pattern) :=
  w.foldl (fun live c => advance c live) patterns

theorem firstCover_foldl {entries : List (TokenKind × Pattern)}
    (h : complete? (w.foldl (fun live c => advance c live) entries) = some k) :
    FirstCover entries w k := by
  induction w generalizing entries with
  | nil => exact firstCover_of_complete? h
  | cons c w ih => exact (ih h).of_advance

/-- The signs that no other token begins with. -/
def soleSigns : List TokenKind := [
  .semicolon, .lParen, .rParen, .lBracket, .rBracket, .lBrace, .rBrace, .comma, .atSign, .andAnd,
  .orOr, .question, .tilde, .colon]

/-- The patterns that are live after a sign, a blank and what comments begin with. -/
theorem liveAfter_shown :
    (∀ k ∈ soleSigns,
      liveAfter k.grammarName.toList = [(k, .empty)] ∧ k.grammarName.toList ≠ []) ∧
    liveAfter [' '] = [(.whitespace, .star (.char (.oneOf blanks)))] ∧
    complete? (liveAfter ['/']) = some .slash ∧
    complete? (liveAfter ['/', '/']) = some .lineComment := by
  decide +kernel

theorem liveAfter_soleSigns :
    ∀ k ∈ soleSigns, liveAfter k.grammarName.toList = [(k, .empty)] ∧ k.grammarName.toList ≠ [] :=
  liveAfter_shown.1

theorem liveAfter_blank : liveAfter [' '] = [(.whitespace, .star (.char (.oneOf blanks)))] :=
  liveAfter_shown.2.1

theorem covered_comment : Covered patterns ['/', '/'] :=
  (firstCover_foldl liveAfter_shown.2.2.2).covered

theorem firstCover_slash : FirstCover patterns ['/'] .slash :=
  firstCover_foldl liveAfter_shown.2.2.1

/-- No token but one between others begins with a blank. -/
theorem Takes.head_not_blank (h : Takes k (c :: w) rest) (hk : k.isTrivia = false) :
    c ∉ blanks := by
  obtain ⟨p, hp, hmatches⟩ := h.first.exists_mem
  exact fun hc => not_matches_of_derive ((patterns_begin _ hp hk).1 c hc) hmatches

/-- A token may stand behind a blank. -/
theorem Takes.behind_blank (h : Takes k w rest) (hk : k.isTrivia = false) (text : List Char) :
    ∀ d ∈ (w ++ text).head?, d ∉ blanks := by
  obtain ⟨c, w, rfl⟩ := List.exists_cons_of_ne_nil h.nonempty
  rintro d hd
  obtain rfl := Option.some.inj hd
  exact h.head_not_blank hk

/-- A literal is not part of a longer one. -/
theorem Takes.not_matches_quoted {quote d : Char} {p : Pattern} {more : List Char}
    (h : Takes k (quote :: w) rest) (hp : IsQuoted quote p) :
    ¬ p.Matches (quote :: (w ++ d :: more)) := by
  obtain ⟨own, hown, hmatches⟩ := h.first.exists_mem
  have hsame : own = p := by
    rcases hp with ⟨rfl, rfl⟩ | ⟨rfl, rfl⟩
    · exact (patterns_quoted _ hown).1.resolve_left fun hnone =>
        not_matches_of_derive hnone hmatches
    · exact (patterns_quoted _ hown).2.resolve_left fun hnone =>
        not_matches_of_derive hnone hmatches
  exact hp.ends (hsame ▸ hmatches)

/-- Where a token is taken, no comment begins. -/
theorem Takes.not_comment {d x : Char} {q more : List Char} (h : Takes k (c :: w) rest)
    (hk : k.isTrivia = false) (hq : q <+: rest) (hd : d ∈ breakers) (hx : x = '/' ∨ x = '*') :
    ∀ v, c :: (w ++ (q ++ d :: more)) ≠ '/' :: x :: v := by
  intro v hwhole
  obtain ⟨rfl, heq⟩ := List.cons.inj hwhole
  clear hwhole
  have hother : x ≠ d := by
    rintro rfl
    rcases hx with rfl | rfl <;> exact absurd hd (by decide)
  cases w with
  | cons y w =>
      obtain ⟨rfl, _⟩ := List.cons.inj heq
      obtain ⟨p, hp, hmatches⟩ := h.first.exists_mem
      refine not_matches_of_derive ((patterns_begin _ hp hk).2 y ?_) hmatches.derive
      rcases hx with rfl | rfl <;> decide
  | nil =>
      cases q with
      | nil => exact hother (List.cons.inj heq).1.symm
      | cons y q =>
          obtain ⟨rfl, _⟩ := List.cons.inj heq
          obtain ⟨after, rfl⟩ := hq
          rcases hx with rfl | rfl
          · exact h.longest ['/'] ⟨q ++ after, rfl⟩ (List.cons_ne_nil _ _) covered_comment
          · exact h.opens (h.first.unique firstCover_slash) rfl

/-- Where nothing more is covered up to a breaking character, nothing is covered over it. -/
theorem Takes.not_covered_over {q more : List Char} {d : Char} (h : Takes k w rest)
    (hk : k.isTrivia = false) (hq : q <+: rest) (hd : d ∈ breakers) :
    ¬ Covered patterns (w ++ (q ++ d :: more)) := by
  rintro ⟨e, he, hmatches⟩
  obtain ⟨c, w, rfl⟩ := List.exists_cons_of_ne_nil h.nonempty
  have hquoted : ∀ quote, IsQuoted quote e.2 → c ≠ quote := by
    rintro quote hp rfl
    refine (?_ : ¬ e.2.Matches (c :: (w ++ (q ++ d :: more)))) hmatches
    cases q with
    | nil => exact h.not_matches_quoted hp
    | cons x q => exact h.not_matches_quoted hp
  rcases patterns_reach e he with havoids | hstring | hcharacter | hblank | ⟨hslash, hsecond⟩
  · rcases havoids d hd with havoids | hone
    · exact hmatches.not_mem havoids (by simp)
    · rw [hone] at hmatches
      obtain ⟨_, hsingle, _⟩ := hmatches.exists_of_char
      have hlength := congrArg List.length hsingle
      simp at hlength
  · obtain ⟨_, _, hw, hopen, _⟩ := (hstring ▸ hmatches).exists_of_seq
    obtain rfl := TokenKind.eq_of_among hopen
    exact hquoted '"' (.inl ⟨rfl, hstring⟩) (List.cons.inj hw).1
  · obtain ⟨_, _, hw, hopen, _⟩ := (hcharacter ▸ hmatches).exists_of_seq
    obtain rfl := TokenKind.eq_of_among hopen
    exact hquoted '\'' (.inr ⟨rfl, hcharacter⟩) (List.cons.inj hw).1
  · obtain ⟨class', hclass, hcontains⟩ := hmatches.exists_head c rfl
    rw [hblank, List.mem_singleton] at hclass
    rw [hclass] at hcontains
    exact h.head_not_blank hk (CharClass.contains_oneOf.mp hcontains)
  · obtain ⟨class', hclass, hcontains⟩ := hmatches.exists_head c rfl
    rw [hslash, List.mem_singleton] at hclass
    rw [hclass] at hcontains
    obtain rfl := List.mem_singleton.mp (CharClass.contains_oneOf.mp hcontains)
    have hrest : (e.2.derive '/').Matches (w ++ (q ++ d :: more)) := hmatches.derive
    obtain ⟨x, v, hx⟩ : ∃ x v, w ++ (q ++ d :: more) = x :: v :=
      List.exists_cons_of_ne_nil (by simp)
    obtain ⟨class', hclass, hcontains⟩ := hrest.exists_head x (by rw [hx]; rfl)
    refine h.not_comment hk hq hd (x := x) ?_ v (congrArg _ hx)
    rcases hsecond with hsecond | hsecond
    · rw [hsecond, List.mem_singleton] at hclass
      rw [hclass] at hcontains
      exact .inl (List.mem_singleton.mp (CharClass.contains_oneOf.mp hcontains))
    · rw [hsecond, List.mem_singleton] at hclass
      rw [hclass] at hcontains
      exact .inr (List.mem_singleton.mp (CharClass.contains_oneOf.mp hcontains))

/-- **What stands behind the next breaking character does not count.**  A token that is taken in
front of a text is taken in front of another one that agrees with it up to such a character or up
to its end. -/
theorem Takes.relocate {q b : List Char} (h : Takes k w rest) (hk : k.isTrivia = false)
    (hq : q <+: rest) (hb : Breaks b) : Takes k w (q ++ b) where
  nonempty := h.nonempty
  first := h.first
  longest v hv hne := by
    obtain ⟨after, hafter⟩ := hv
    rcases List.append_eq_append_iff.mp hafter with ⟨u, rfl, hu⟩ | ⟨u, rfl, hu⟩
    · exact h.longest v ((List.prefix_append v u).trans hq) hne
    · cases u with
      | nil =>
          rw [List.append_nil] at hne ⊢
          exact h.longest q hq hne
      | cons d more =>
          exact h.not_covered_over hk hq (hb d (by rw [hu]; rfl))
  opens hslash hstar := by
    cases q with
    | nil => exact absurd (hb '*' hstar) (by decide)
    | cons x q =>
        obtain ⟨after, rfl⟩ := hq
        exact h.opens hslash hstar

/-! ### Signs and blanks -/

theorem covered_foldl {u v : List Char}
    (h : Covered entries (u ++ v)) :
    Covered (u.foldl (fun live c => advance c live) entries) v := by
  induction u generalizing entries with
  | nil => exact h
  | cons c u ih => exact ih h.advance

/-- A text that a pattern covers is taken in front of a character with which no pattern goes on. -/
theorem takes_of_liveAfter (hw : w ≠ []) (hk : complete? (liveAfter w) = some k) (hslash : k ≠ .slash)
    (hdead : ∀ d ∈ rest.head?, advance d (liveAfter w) = []) : Takes k w rest where
  nonempty := hw
  first := firstCover_foldl hk
  longest v hv hne hcovered := by
    obtain ⟨d, v, rfl⟩ := List.exists_cons_of_ne_nil hne
    obtain ⟨after, rfl⟩ := hv
    have hnext := (covered_foldl hcovered).advance
    have hnone : advance d (liveAfter w) = [] := hdead d rfl
    unfold liveAfter at hnone
    rw [hnone] at hnext
    obtain ⟨_, hmem, _⟩ := hnext
    cases hmem
  opens h := absurd h hslash

/-- A sign that no other token begins with is taken in front of any text. -/
theorem takes_soleSign (hk : k ∈ soleSigns) (rest : List Char) :
    Takes k k.grammarName.toList rest := by
  obtain ⟨hlive, hne⟩ := liveAfter_soleSigns k hk
  refine takes_of_liveAfter hne ?_ ?_ fun d _ => ?_
  · rw [hlive]
    rfl
  · rintro rfl
    exact absurd hk (by decide)
  · rw [hlive]
    rfl

/-- A blank is taken in front of what is none. -/
theorem takes_blank (hrest : ∀ d ∈ rest.head?, d ∉ blanks) : Takes .whitespace [' '] rest := by
  refine takes_of_liveAfter (List.cons_ne_nil _ _) ?_ (by decide) fun d hd => ?_
  · rw [liveAfter_blank]
    rfl
  · have hnot : (CharClass.oneOf blanks).contains d = false :=
      Bool.eq_false_iff.mpr fun hcontains => hrest d hd (CharClass.contains_oneOf.mp hcontains)
    rw [liveAfter_blank]
    simp [advance, Pattern.derive, hnot, Pattern.seq']

/-! ### Texts that are put together -/

/-- A part of a text that is put together: a blank or a token. -/
inductive Piece where
  | blank
  | token (kind : TokenKind) (text : List Char)

/-- The characters of a piece. -/
def Piece.chars : Piece → List Char
  | .blank => [' ']
  | .token _ text => text

/-- The text that pieces make up. -/
def spell : List Piece → List Char := List.flatMap Piece.chars

/-- Each token is taken in front of the pieces behind it and of the text after them, and no blank
stands in front of another. -/
def Legible : List Piece → List Char → Prop
  | [], _ => True
  | .blank :: ps, rest => (∀ d ∈ (spell ps ++ rest).head?, d ∉ blanks) ∧ Legible ps rest
  | .token k w :: ps, rest => k.isTrivia = false ∧ Takes k w (spell ps ++ rest) ∧ Legible ps rest

/-- The tokens among the pieces of a text that begins at an offset. -/
def placed (offset : Nat) : List Piece → List Token
  | [] => []
  | .blank :: ps => placed (offset + 1) ps
  | .token k w :: ps =>
    ⟨k, .ofLen offset (Text.byteSize w), String.ofList w⟩ :: placed (offset + Text.byteSize w) ps

theorem spell_append (ps qs : List Piece) : spell (ps ++ qs) = spell ps ++ spell qs :=
  List.flatMap_append

theorem legible_append {ps qs : List Piece} :
    Legible (ps ++ qs) rest ↔ Legible ps (spell qs ++ rest) ∧ Legible qs rest := by
  induction ps with
  | nil => simp [Legible]
  | cons p ps ih =>
      cases p <;> simp only [List.cons_append, Legible, ih, spell_append, List.append_assoc,
        and_assoc]

/-- **A legible text is read as it was put together.** -/
theorem scan_spell {ps : List Piece} (h : Legible ps []) (offset : Nat) :
    (scanFrom offset (spell ps)).filter isSignificant = (placed offset ps).map .ok := by
  induction ps generalizing offset with
  | nil => rw [spell, List.flatMap_nil, scanFrom]; rfl
  | cons p ps ih =>
      cases p with
      | blank =>
          obtain ⟨hblank, hrest⟩ := h
          rw [List.append_nil] at hblank
          have hscan := scanFrom_of_takes (takes_blank hblank) offset
          change (scanFrom offset ([' '] ++ spell ps)).filter isSignificant = _
          rw [hscan]
          exact ih hrest _
      | token k w =>
          obtain ⟨hk, htakes, hrest⟩ := h
          rw [List.append_nil] at htakes
          change (scanFrom offset (w ++ spell ps)).filter isSignificant = _
          rw [scanFrom_of_takes htakes offset, List.filter_cons_of_pos (by simp [isSignificant, hk]),
            ih hrest]
          rfl

theorem tokenize_spell {ps : List Piece} (h : Legible ps []) :
    tokenize (String.ofList (spell ps)) = .ok (placed 0 ps) := by
  unfold tokenize stream scan
  dsimp only
  rw [String.toList_ofList, scan_spell h]
  induction placed 0 ps with
  | nil => rfl
  | cons t ts ih =>
      rw [List.map_cons, List.mapM_cons, ih]
      rfl

end Scanner

end AspectLang
