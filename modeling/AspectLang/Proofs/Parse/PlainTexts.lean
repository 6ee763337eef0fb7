import AspectLang.Parse.AspectConstructs
import AspectLang.Proofs.Parse.Steps
import AspectLang.Proofs.Token.Excerpts

/-! # Tokens that cannot crash the parser

Two places of the front end cut the text of a token by bytes: a shift operator is split, and the
message of a declare statement loses its quotes.  `Token.Plain` says that a text can be cut there.
A split also takes the offset behind the start of an operator, and `Token.SplitsBelow` says that
such offsets stay below a limit.  A `Promise` is what is known of this for all tokens that a parser
is given.  Tokens stay as promised when they are split, inserted tokens are as promised, and what
factories build from plain texts can be read without a fault (`newDeclare_ne_error`).  Of the tokens
of a text everything can be promised (`Scanner.plain_of_mem`, `Scanner.inWord_stream`). -/

namespace AspectLang

/-- A text of two bytes or more can lose its first and its last byte. -/
def Strippable (text : String) : Prop :=
  2 ≤ text.utf8ByteSize → (PseudoToken.stripBytes? text).isSome = true

/-- The text of a token can be cut where its kind may ask for it. -/
structure Token.Plain (t : Token) : Prop where
  operator : t.kind.halves?.isSome = true → ∀ c ∈ t.text.toList, c.utf8Size = 1
  literal : t.kind = .stringLiteral → Strippable t.text

/-- Where the brackets of a shift operator begin that is split comes before a limit. -/
def Token.SplitsBelow (limit : Nat) (t : Token) : Prop :=
  t.kind.halves?.isSome = true → t.span.start + t.kind.brackets ≤ limit

/-- The byte after a range comes before a limit. -/
def Span.EndsBelow (limit : Nat) (s : Span) : Prop := s.stop + 1 < limit

/-- A token ends below a limit, and so do the brackets that it is split into. -/
structure Token.EndsBelow (limit : Nat) (t : Token) : Prop where
  span : t.span.EndsBelow limit
  start : t.span.start + t.kind.brackets < limit

/-- A stream lies within a machine word, and so do the offsets behind its tokens and their pieces. -/
structure TokenStream.InWord (stream : TokenStream) : Prop where
  tokens : ∀ t ∈ stream.tokens, t.EndsBelow UInt64.size
  endOffset : stream.endOffset + 1 < UInt64.size

instance (t : Token) : Decidable t.Plain :=
  decidable_of_iff ((t.kind.halves?.isSome = true →
        (t.text.toList.all fun c => c.utf8Size = 1) = true) ∧
      (t.kind = .stringLiteral →
        2 ≤ t.text.utf8ByteSize → (PseudoToken.stripBytes? t.text).isSome = true))
    ⟨fun h => ⟨fun hhalves => by simpa using h.1 hhalves, h.2⟩,
      fun h => ⟨fun hhalves => by simpa using h.operator hhalves, h.literal⟩⟩

instance (limit : Nat) (t : Token) : Decidable (t.EndsBelow limit) :=
  decidable_of_iff (t.span.stop + 1 < limit ∧ t.span.start + t.kind.brackets < limit)
    ⟨fun h => ⟨h.1, h.2⟩, fun h => ⟨h.span, h.start⟩⟩

instance (stream : TokenStream) : Decidable stream.InWord :=
  decidable_of_iff ((∀ t ∈ stream.tokens, t.EndsBelow UInt64.size) ∧
      stream.endOffset + 1 < UInt64.size)
    ⟨fun h => ⟨h.1, h.2⟩, fun h => ⟨h.tokens, h.endOffset⟩⟩

/-- What is promised of the tokens that a parser is given. -/
structure Promise where
  /-- Their texts can be cut. -/
  plain : Prop
  /-- Their shift operators can be split within a machine word. -/
  low : Prop

namespace Promise

/-- Nothing is promised. -/
abbrev nothing : Promise := ⟨False, False⟩

/-- A crash that a promise does not exclude. -/
def Admits (promise : Promise) : Crash → Prop
  | .brokenText _ => ¬ promise.plain
  | .offsetOverflow _ => ¬ promise.low

/-- Where everything is promised, every crash is excluded. -/
theorem not_admits {promise : Promise} (hplain : promise.plain) (hlow : promise.low)
    (reason : Crash) : ¬ promise.Admits reason := by
  cases reason with
  | brokenText => exact not_not_intro hplain
  | offsetOverflow => exact not_not_intro hlow

end Promise

/-- A token is as promised. -/
structure Token.Meets (promise : Promise) (t : Token) : Prop where
  plain : promise.plain → t.Plain
  low : promise.low → t.SplitsBelow UInt64.size

/-! ### Tokens -/

namespace Token

variable {promise : Promise} {limit : Nat} {t first second : Token}

theorem dropByte?_of_forall {text : String} (h : ∀ c ∈ text.toList, c.utf8Size = 1) :
    ∃ rest, dropByte? text = some rest ∧ ∀ c ∈ rest.toList, c.utf8Size = 1 := by
  unfold dropByte?
  cases htext : text.toList with
  | nil => exact ⟨"", rfl, by simp⟩
  | cons c cs =>
      rw [htext] at h
      refine ⟨String.ofList cs, ?_, ?_⟩
      · simp [h c (by simp)]
      · intro d hd
        exact h d (List.mem_cons_of_mem c (by simpa using hd))

theorem Plain.halves (h : t.Plain) (hsplit : t.split = .halves first second) :
    first.Plain ∧ second.Plain := by
  obtain ⟨kinds, text, hkinds, htext, _, rfl, rfl⟩ := of_split_halves hsplit
  obtain ⟨rest, hrest, hbytes⟩ := dropByte?_of_forall (h.operator (by rw [hkinds]; rfl))
  obtain rfl : rest = text := Option.some.inj (hrest.symm.trans htext)
  have hothers : kinds.1 = .gt ∧ kinds.2 ≠ .stringLiteral := by
    generalize t.kind = kind at hkinds
    cases kind <;> cases hkinds <;> simp
  refine ⟨⟨by simp [hothers.1, TokenKind.halves?], by simp [hothers.1]⟩, ⟨fun _ => hbytes, ?_⟩⟩
  exact fun hkind => absurd hkind hothers.2

theorem SplitsBelow.start_lt (h : t.SplitsBelow limit) (hkind : t.kind.halves?.isSome = true) :
    t.span.start + 1 < limit := by
  have htwo : 2 ≤ t.kind.brackets := by
    generalize t.kind = kind at hkind
    cases kind <;> first | exact Nat.le_refl _ | exact Nat.le_succ _ | cases hkind
  have hsum := h hkind
  omega

theorem SplitsBelow.halves (h : t.SplitsBelow limit) (hsplit : t.split = .halves first second) :
    first.SplitsBelow limit ∧ second.SplitsBelow limit := by
  obtain ⟨_, hgt, hspan, hbrackets⟩ := span_halves hsplit
  obtain ⟨kinds, _, hkinds, _⟩ := of_split_halves hsplit
  have hsum := h (by rw [hkinds]; rfl)
  refine ⟨fun hfirst => ?_, fun _ => ?_⟩
  · rw [hgt] at hfirst
    cases hfirst
  · rw [hspan]
    dsimp only
    omega

theorem EndsBelow.splitsBelow (h : t.EndsBelow limit) : t.SplitsBelow limit := fun _ => h.start.le

theorem EndsBelow.start_lt (h : t.EndsBelow limit) : t.span.start + 1 < limit := by
  have hone := t.kind.brackets_pos
  have hsum := h.start
  omega

theorem EndsBelow.halves (h : t.EndsBelow limit) (hsplit : t.split = .halves first second) :
    first.EndsBelow limit ∧ second.EndsBelow limit := by
  obtain ⟨hpoint, hgt, hspan, hbrackets⟩ := span_halves hsplit
  have hstart := h.start_lt
  have hsum := h.start
  refine ⟨⟨?_, ?_⟩, ?_, ?_⟩
  · rw [hpoint]
    exact hstart
  · rw [hpoint, hgt]
    exact hstart
  · rw [hspan]
    exact h.span
  · rw [hspan]
    dsimp only
    omega

theorem Meets.halves (h : t.Meets promise) (hsplit : t.split = .halves first second) :
    first.Meets promise ∧ second.Meets promise :=
  ⟨⟨fun hplain => ((h.plain hplain).halves hsplit).1, fun hlow => ((h.low hlow).halves hsplit).1⟩,
    ⟨fun hplain => ((h.plain hplain).halves hsplit).2, fun hlow => ((h.low hlow).halves hsplit).2⟩⟩

/-- A token that is as promised crashes the parser only as admitted. -/
theorem Meets.admits {reason : Crash} (h : t.Meets promise) (hsplit : t.split = .crashes reason) :
    promise.Admits reason := by
  obtain ⟨hkind, ⟨rfl, htext⟩ | ⟨rfl, hfits⟩⟩ := of_split_crashes hsplit
  · intro hplain
    obtain ⟨rest, hrest, _⟩ := dropByte?_of_forall ((h.plain hplain).operator hkind)
    rw [htext] at hrest
    cases hrest
  · exact fun hlow => hfits ((h.low hlow).start_lt hkind)

theorem meets_eof (offset : Nat) : (eof offset).Meets promise :=
  ⟨fun _ => ⟨nofun, nofun⟩, fun _ => nofun⟩

/-- Inserted tokens are no shift operators, and have the text of their kind. -/
theorem meets_inserted {kind : TokenKind} (hkind : kind.halves? = none) (place : Span) :
    Meets promise ⟨kind, place, kind.lexeme?.getD ""⟩ := by
  refine ⟨fun _ => ⟨fun hsome => ?_, fun hliteral => ?_⟩, fun _ hsome => ?_⟩
  · rw [hkind] at hsome
    cases hsome
  · dsimp only at hliteral
    subst hliteral
    intro htwo
    have hempty : 2 ≤ "".utf8ByteSize := htwo
    simp at hempty
  · rw [hkind] at hsome
    cases hsome

end Token

/-! ### Tokens of a text -/

open TokenKind Scanner in
/-- A string literal that is scanned begins and ends with a quote. -/
theorem TokenKind.Covers.exists_quoted {w : List Char} (h : TokenKind.stringLiteral.Covers w) :
    ∃ inner, w = '"' :: (inner ++ ['"']) := by
  obtain ⟨p, hp, hmatches⟩ := h
  have hpattern : p = .sequence [among ['"'], .star (quotedItem '"'), among ['"']] := by
    rcases List.mem_append.mp hp with hfixed | hvarying
    · obtain ⟨k, _, hpattern⟩ := List.mem_filterMap.mp hfixed
      obtain ⟨text, htext, heq⟩ := Option.map_eq_some_iff.mp hpattern
      cases heq
      cases htext
    · simpa [varyingPatterns] using hvarying
  subst hpattern
  obtain ⟨_, _, rfl, hopen, hmore⟩ := hmatches.exists_of_seq
  obtain ⟨inner, _, rfl, _, hclose⟩ := hmore.exists_of_seq
  rw [eq_of_among hopen, eq_of_among hclose]
  exact ⟨inner, rfl⟩

theorem strippable_of_quoted {text : String} {inner : List Char}
    (h : text.toList = '"' :: (inner ++ ['"'])) : Strippable text := by
  intro _
  have hquote : Text.byteSize ['"'] = 1 := rfl
  have hsize : Text.byteSize ('"' :: (inner ++ ['"'])) - 1 =
      Text.byteSize ['"'] + Text.byteSize inner := by
    rw [← List.singleton_append, Text.byteSize_append, Text.byteSize_append, hquote, ← Nat.add_assoc,
      Nat.add_sub_cancel]
  have hslice := Text.slice?_between ['"'] inner ['"']
  unfold PseudoToken.stripBytes?
  dsimp only
  rw [h, hsize, ← hquote, ← List.singleton_append, hslice]
  rfl

theorem Token.endsBelow_of_apart {gap limit offset : Nat} {ts : List Token}
    (h : Token.Apart gap limit offset ts) : ∀ t ∈ ts, t.EndsBelow (limit + 2) := by
  induction ts generalizing offset with
  | nil => exact nofun
  | cons t ts ih =>
      obtain ⟨_, hbrackets, hstop, hrest⟩ := h
      refine List.forall_mem_cons.mpr ⟨⟨?_, ?_⟩, ih hrest⟩
      · unfold Span.EndsBelow
        omega
      · omega

namespace Scanner

variable {source : String} {t : Token}

/-- **The texts of the tokens of a text can be cut.** -/
theorem plain_of_mem (ht : t ∈ (stream source).tokens) : t.Plain := by
  obtain ⟨behind, hstands⟩ := exists_standsIn ht
  have hcovers : t.kind.Covers t.text.toList := hstands.takes.first.exists_mem
  refine ⟨fun hsome => ?_, fun hstring => ?_⟩
  · have hlexeme : ∃ text, t.kind.lexeme? = some text ∧ ∀ c ∈ text.toList, c.utf8Size = 1 := by
      have hbracket : ∀ c : Char, c = '>' → c.utf8Size = 1 := fun _ h => h ▸ rfl
      generalize t.kind = kind at hsome
      cases kind with
      | shiftRight => exact ⟨">>", rfl, fun c hc => hbracket c (by simpa using hc)⟩
      | shiftRightUnsigned => exact ⟨">>>", rfl, fun c hc => hbracket c (by simpa using hc)⟩
      | _ => cases hsome
    obtain ⟨text, htext, hbytes⟩ := hlexeme
    rwa [hcovers.eq_of_lexeme? htext]
  · rw [hstring] at hcovers
    obtain ⟨inner, hinner⟩ := hcovers.exists_quoted
    exact strippable_of_quoted hinner

/-- **The tokens of a text lie within a machine word**, if the text is not as long as that. -/
theorem inWord_stream (hsize : Text.byteSize source.toList + 2 ≤ UInt64.size) :
    (stream source).InWord := by
  have hlimit : (stream source).endOffset + 2 ≤ UInt64.size := hsize
  refine ⟨fun t ht => ?_, hlimit⟩
  have hends := Token.endsBelow_of_apart (apart_stream source) t (List.mem_append_left _ ht)
  exact ⟨hends.span.trans_le hlimit, hends.start.trans_le hlimit⟩

end Scanner

/-! ### Fragments -/

/-- Every literal in a fragment can be unquoted. -/
def Fragment.Plain (f : Fragment) : Prop :=
  ∀ t ∈ Factory.tokensIn f, t.unquoted?.isSome = true

namespace Factory

variable {f : Factory}

theorem plain_pseudoToken (value : String) (isIdentifier : Bool) (span : Span) :
    (f.pseudoToken value isIdentifier span).Plain := by
  cases f <;> simp [Fragment.Plain, pseudoToken, tokensIn, PseudoToken.unquoted?]

theorem plain_guardToken (condition : Expr) (span : Span) : (f.guardToken condition span).Plain := by
  cases f <;> simp [Fragment.Plain, guardToken, tokensIn, PseudoToken.unquoted?]

theorem plain_literalToken {kind : LiteralKind} {text : String} (span : Span)
    (htext : kind = .string → Strippable text) :
    (f.setLiteralKind (Work.literalKindWord kind) (f.pseudoToken text false span)).Plain := by
  cases f with
  | placeholder => simp [Fragment.Plain, setLiteralKind, pseudoToken, tokensIn]
  | aspects =>
      simp only [Fragment.Plain, setLiteralKind, pseudoToken, tokensIn, List.mem_singleton,
        forall_eq, PseudoToken.unquoted?]
      split
      · rename_i hstring
        simp only [Bool.and_eq_true, beq_iff_eq, Option.some.injEq, decide_eq_true_eq] at hstring
        refine htext ?_ hstring.2
        cases kind <;> simp [Work.literalKindWord] at hstring ⊢
      · rfl

theorem plain_joinTokens {fragments : List Fragment} (h : ∀ x ∈ fragments, x.Plain) :
    (f.joinTokens fragments).Plain := by
  cases f with
  | placeholder => simp [Fragment.Plain, joinTokens, tokensIn]
  | aspects =>
      intro t ht
      obtain ⟨x, hx, htx⟩ := List.mem_flatMap.mp ht
      exact h x hx t htx

end Factory

/-! ### Declare statements -/

namespace Declare

variable {ts : List PseudoToken} {text : String}

theorem mem_body {header : Nat} {t : PseudoToken} (h : t ∈ body ts header) : t ∈ ts := by
  have hmem := List.mem_of_mem_drop h
  split at hmem
  · split at hmem
    · exact List.dropLast_subset _ hmem
    · exact hmem
  · exact hmem

theorem parseMessage_ne_broken {isError : Bool} {stop : Span}
    (h : ∀ t ∈ ts, t.unquoted?.isSome = true) :
    parseMessage isError ts stop ≠ .error (.brokenText text) := by
  intro hparse
  unfold parseMessage at hparse
  split at hparse
  · cases hparse
  · rename_i pointcut rest hsplit
    have hrest : ∀ t ∈ rest, t ∈ ts := by
      unfold PseudoToken.splitOnce? at hsplit
      split at hsplit
      · obtain ⟨_, rfl⟩ := Prod.mk.inj (Option.some.inj hsplit)
        exact fun t ht => List.mem_of_mem_drop ht
      · cases hsplit
    dsimp only at hparse
    split at hparse
    · rename_i literal
      split at hparse
      · split at hparse
        · cases hparse
        · split at hparse
          · cases hparse
          · rename_i hnone
            have hsome := h literal (hrest literal (by simp))
            rw [hnone] at hsome
            cases hsome
      · cases hparse
    · cases hparse

theorem parseParents_ne_broken {stop : Span} :
    parseParents ts stop ≠ .error (.brokenText text) := by
  unfold parseParents
  dsimp only
  split
  · simp [reject]
  · split <;> simp [reject]

theorem parseSoft_ne_broken {kindSpan stop : Span} :
    parseSoft kindSpan ts stop ≠ .error (.brokenText text) := by
  unfold parseSoft
  split
  · simp [reject]
  · split
    · simp [reject]
    · split <;> simp

theorem parsePrecedence_ne_broken {stop : Span} :
    parsePrecedence ts stop ≠ .error (.brokenText text) := by
  unfold parsePrecedence
  dsimp only
  split <;> simp [reject]

/-- Reading a declare statement cuts a text only where a literal cannot be unquoted. -/
theorem parse_ne_broken (h : ∀ t ∈ ts, t.unquoted?.isSome = true) :
    parse ts ≠ .error (.brokenText text) := by
  unfold parse
  dsimp only
  split
  · simp [reject]
  · split
    · simp [reject]
    · have hbody : ∀ t ∈ body ts 3, t.unquoted?.isSome = true := fun t ht => h t (mem_body ht)
      split
      · exact parseParents_ne_broken
      · exact parseMessage_ne_broken hbody
      · exact parseMessage_ne_broken hbody
      · exact parseSoft_ne_broken
      · exact parsePrecedence_ne_broken
      · simp [reject]

end Declare

theorem Factory.newDeclare_ne_error {f : Factory} {run : Fragment} {r : Reporter} {text : String}
    (h : run.Plain) : f.newDeclare run r ≠ .error text := by
  cases f with
  | placeholder => simp [newDeclare]
  | aspects =>
      have htokens : ∀ t ∈ run.tokens, t.unquoted?.isSome = true := by
        unfold Fragment.tokens
        unfold Fragment.Plain tokensIn at h
        cases hcontent : run.content with
        | tokens ts => simpa [hcontent] using h
        | token t => simp
        | designator d => simp
        | placeholder construct => simp
      unfold newDeclare
      dsimp only
      split
      · simp
      · rename_i broken hparse
        exact absurd hparse (Declare.parse_ne_broken htokens)
      · simp

end AspectLang
