import AspectLang.Dialect
import AspectLang.Proofs.Tree.Nesting

/-! # Where problems of aspect constructs are reported

Pointcuts, per-clauses and declare statements are read from runs of pseudo tokens.  A problem is
reported at one of these tokens, or where the run ends, so it lies in the text if they do
(`reads_parse`, `reads_parse?`, `rejects_parse`).  A factory reports problems of runs only, which
end with a semicolon or a brace; what is missing at the end of one is reported there. -/

namespace AspectLang

/-- Pseudo tokens lie in a text that ends at `limit`. -/
def PseudoToken.AllEndBy (limit : Nat) (ts : List PseudoToken) : Prop :=
  ∀ t ∈ ts, t.span.EndsBy limit

/-- What was reported lies in the text. -/
def Reporter.EndsBy (limit : Nat) (r : Reporter) : Prop :=
  ∀ d ∈ r.diagnostics, d.span.EndsBy limit

theorem Reporter.EndsBy.report {limit : Nat} {r : Reporter} (h : r.EndsBy limit) {d : Diagnostic}
    (hd : d.span.EndsBy limit) : (r.report d).EndsBy limit := by
  intro d' hd'
  rcases Array.mem_push.mp hd' with hold | rfl
  · exact h d' hold
  · exact hd

/-- A reader's problem lies in the text, and its result is as told. -/
def Reads {β : Type} (limit : Nat) (P : β → Prop) : Except ReadProblem β → Prop
  | .ok b => P b
  | .error e => e.span.EndsBy limit

theorem Reads.cases {β : Type} {limit : Nat} {P : β → Prop} {x : Except ReadProblem β}
    (h : Reads limit P x) :
    (∃ e, x = .error e ∧ e.span.EndsBy limit) ∨ ∃ b, x = .ok b ∧ P b := by
  cases x with
  | error e => exact .inl ⟨e, rfl, h⟩
  | ok b => exact .inr ⟨b, rfl, h⟩

namespace PseudoToken

variable {limit : Nat} {t : PseudoToken} {ts inner rest part : List PseudoToken}

theorem AllEndBy.of_subset (h : AllEndBy limit ts) (hsubset : inner ⊆ ts) :
    AllEndBy limit inner := fun t ht => h t (hsubset ht)

theorem AllEndBy.head (h : AllEndBy limit (t :: ts)) : t.span.EndsBy limit :=
  h t List.mem_cons_self

theorem AllEndBy.tail (h : AllEndBy limit (t :: ts)) : AllEndBy limit ts :=
  h.of_subset (List.subset_cons_self t ts)

theorem AllEndBy.spanOf {fallback : Span} (h : AllEndBy limit ts)
    (hfallback : fallback.EndsBy limit) : (spanOf ts fallback).EndsBy limit := by
  unfold PseudoToken.spanOf
  cases hhull : Span.hull (ts.map (·.span)) with
  | none => exact hfallback
  | some s =>
      refine Span.endsBy_hull (fun s hs => ?_) hhull
      obtain ⟨t, ht, rfl⟩ := List.mem_map.mp hs
      exact h t ht

/-- What stands in parentheses, the closing one and what is behind it are tokens of the run. -/
theorem subset_of_balanced? {depth : Nat} {close : PseudoToken}
    (h : balanced? depth ts = some (inner, close, rest)) :
    inner ⊆ ts ∧ close ∈ ts ∧ rest ⊆ ts := by
  fun_induction balanced? depth ts generalizing inner with
  | case1 => cases h
  | case3 t ts _ _ =>
      cases h
      exact ⟨List.nil_subset _, List.mem_cons_self, List.subset_cons_self ..⟩
  | case2 depth t ts _ ih | case4 t ts _ _ depth ih | case5 depth t ts _ _ ih =>
      obtain ⟨⟨i, c, r⟩, hr, he⟩ := Option.map_eq_some_iff.mp h
      cases he
      obtain ⟨hinner, hclose, hrest⟩ := ih hr
      exact ⟨List.cons_subset_cons t hinner, List.mem_cons_of_mem t hclose,
        List.subset_cons_of_subset t hrest⟩

theorem subset_splitFrom (separator : String) (depth : Nat) (ts : List PseudoToken) :
    (splitFrom separator depth ts).1 ⊆ ts := by
  fun_induction splitFrom separator depth ts with
  | case1 => exact List.nil_subset _
  | case2 _ _ _ _ _ _ hpart ih | case3 _ _ _ _ _ _ _ hpart ih | case5 _ _ _ _ _ _ _ _ hpart ih =>
      rw [hpart] at ih
      exact List.cons_subset_cons _ ih
  | case4 => exact List.nil_subset _

theorem subset_of_splitOnce? {separator : String} (h : splitOnce? ts separator = some (part, rest)) :
    part ⊆ ts ∧ rest ⊆ ts := by
  unfold splitOnce? at h
  split at h
  · rename_i found next more hparts
    cases h
    refine ⟨?_, List.drop_subset ..⟩
    unfold splitOutsideBrackets at hparts
    split at hparts
    · cases hparts
    · rw [← (List.cons.inj hparts).1]
      exact subset_splitFrom ..
  · cases h

end PseudoToken

open PseudoToken

/-! ### Pointcuts -/

namespace Pointcut

variable {limit : Nat} {ts : List PseudoToken} {stop : Span}

theorem reads_expect (value : String) (hts : AllEndBy limit ts) (hstop : stop.EndsBy limit) :
    Reads limit (fun r => AllEndBy limit r.2.1) (expect value stop ts) := by
  cases ts with
  | nil => exact hstop
  | cons t ts =>
      rw [expect]
      split
      · exact hts.tail
      · exact hts.head

theorem reads_admitName {t : PseudoToken} {name : String} {span : Span} {n : Nat} {rest : Tail n}
    (ht : t.span.EndsBy limit) (hspan : span.EndsBy limit) (hrest : AllEndBy limit rest.1) :
    Reads limit (fun r => r.2.1.EndsBy limit ∧ AllEndBy limit r.2.2.1)
      (admitName t name span rest) := by
  unfold admitName
  split
  · exact ht
  · exact ⟨hspan, hrest⟩

theorem reads_readName {t : PseudoToken} (h : AllEndBy limit (t :: ts)) :
    Reads limit (fun r => r.2.1.EndsBy limit ∧ AllEndBy limit r.2.2.1) (readName t ts) := by
  unfold readName
  split
  · split
    · split
      · exact reads_admitName h.head (h.head.merge h.tail.head) h.tail.tail
      · exact h.head
    · exact h.head
  · exact reads_admitName h.head h.head h.tail

theorem reads_readParens {start : Span} (hts : AllEndBy limit ts) (hstart : start.EndsBy limit)
    (hstop : stop.EndsBy limit) :
    Reads limit (fun r => AllEndBy limit r.1.1 ∧ r.2.1.EndsBy limit ∧ AllEndBy limit r.2.2.1)
      (readParens start stop ts) := by
  unfold readParens
  obtain ⟨e, he, hspan⟩ | ⟨⟨_, body, _⟩, hok, hbody⟩ :=
    (reads_expect "(" hts hstop).cases
  · rw [he]
    exact hspan
  · rw [hok]
    dsimp only
    split
    · exact hstop
    · rename_i inner close rest hbalanced
      obtain ⟨hinner, hclose, hrest⟩ := subset_of_balanced? hbalanced
      exact ⟨hbody.of_subset hinner, hstart.merge (hbody close hclose), hbody.of_subset hrest⟩

-- The recursion is that of the readers; each theorem follows the branches of its reader.
mutual

theorem reads_parse (ts : List PseudoToken) (stop : Span) (hts : AllEndBy limit ts)
    (hstop : stop.EndsBy limit) : Reads limit (fun _ => True) (parse ts stop) := by
  have hor := reads_parseOr ts stop hts hstop
  unfold parse
  split
  · exact hstop
  · obtain ⟨e, he, hspan⟩ | ⟨⟨p, rest, _⟩, hok, hrest⟩ := hor.cases
    · rw [he]
      exact hspan
    · rw [hok]
      cases rest with
      | nil => trivial
      | cons next rest => exact AllEndBy.head hrest
termination_by (ts.length, 3)

theorem reads_parseOr (ts : List PseudoToken) (stop : Span) (hts : AllEndBy limit ts)
    (hstop : stop.EndsBy limit) :
    Reads limit (fun r => AllEndBy limit r.2.1) (parseOr ts stop) := by
  unfold parseOr
  obtain ⟨e, he, hspan⟩ | ⟨⟨left, rest, _⟩, hok, hrest⟩ :=
    (reads_parseAnd ts stop hts hstop).cases
  · rw [he]
    exact hspan
  · rw [hok]
    dsimp only
    obtain ⟨e, he, hspan⟩ | ⟨⟨p, left', _⟩, hok, hleft⟩ :=
      (reads_parseOrs left rest stop hrest hstop).cases
    · rw [he]
      exact hspan
    · rw [hok]
      exact hleft
termination_by (ts.length, 2)

theorem reads_parseOrs (left : Pointcut) (ts : List PseudoToken) (stop : Span)
    (hts : AllEndBy limit ts) (hstop : stop.EndsBy limit) :
    Reads limit (fun r => AllEndBy limit r.2.1) (parseOrs left ts stop) := by
  rcases hlist : ts with _ | ⟨t, more⟩
  · rw [parseOrs]
    exact fun _ h => absurd h List.not_mem_nil
  · have hlength : more.length < ts.length := by
      rw [hlist]
      exact Nat.lt_succ_self _
    rw [hlist] at hts
    rw [parseOrs]
    split
    · obtain ⟨e, he, hspan⟩ | ⟨⟨right, rest, _⟩, hok, hrest⟩ :=
        (reads_parseAnd more stop hts.tail hstop).cases
      · rw [he]
        exact hspan
      · rw [hok]
        dsimp only
        obtain ⟨e, he, hspan⟩ | ⟨⟨p, left', _⟩, hok, hleft⟩ :=
          (reads_parseOrs (.or left right) rest stop hrest hstop).cases
        · rw [he]
          exact hspan
        · rw [hok]
          exact hleft
    · exact hts
termination_by (ts.length, 2)

theorem reads_parseAnd (ts : List PseudoToken) (stop : Span) (hts : AllEndBy limit ts)
    (hstop : stop.EndsBy limit) :
    Reads limit (fun r => AllEndBy limit r.2.1) (parseAnd ts stop) := by
  unfold parseAnd
  obtain ⟨e, he, hspan⟩ | ⟨⟨left, rest, _⟩, hok, hrest⟩ :=
    (reads_parseUnary ts stop hts hstop).cases
  · rw [he]
    exact hspan
  · rw [hok]
    dsimp only
    obtain ⟨e, he, hspan⟩ | ⟨⟨p, left', _⟩, hok, hleft⟩ :=
      (reads_parseAnds left rest stop hrest hstop).cases
    · rw [he]
      exact hspan
    · rw [hok]
      exact hleft
termination_by (ts.length, 1)

theorem reads_parseAnds (left : Pointcut) (ts : List PseudoToken) (stop : Span)
    (hts : AllEndBy limit ts) (hstop : stop.EndsBy limit) :
    Reads limit (fun r => AllEndBy limit r.2.1) (parseAnds left ts stop) := by
  rcases hlist : ts with _ | ⟨t, more⟩
  · rw [parseAnds]
    exact fun _ h => absurd h List.not_mem_nil
  · have hlength : more.length < ts.length := by
      rw [hlist]
      exact Nat.lt_succ_self _
    rw [hlist] at hts
    rw [parseAnds]
    split
    · obtain ⟨e, he, hspan⟩ | ⟨⟨right, rest, _⟩, hok, hrest⟩ :=
        (reads_parseUnary more stop hts.tail hstop).cases
      · rw [he]
        exact hspan
      · rw [hok]
        dsimp only
        obtain ⟨e, he, hspan⟩ | ⟨⟨p, left', _⟩, hok, hleft⟩ :=
          (reads_parseAnds (.and left right) rest stop hrest hstop).cases
        · rw [he]
          exact hspan
        · rw [hok]
          exact hleft
    · exact hts
termination_by (ts.length, 1)

theorem reads_parseUnary (ts : List PseudoToken) (stop : Span) (hts : AllEndBy limit ts)
    (hstop : stop.EndsBy limit) :
    Reads limit (fun r => AllEndBy limit r.2.1) (parseUnary ts stop) := by
  rcases hlist : ts with _ | ⟨t, more⟩
  · rw [parseUnary]
    exact hstop
  · have hlength : more.length < ts.length := by
      rw [hlist]
      exact Nat.lt_succ_self _
    rw [hlist] at hts
    rw [parseUnary]
    split
    · obtain ⟨e, he, hspan⟩ | ⟨⟨inner, rest, _⟩, hok, hrest⟩ :=
        (reads_parseUnary more stop hts.tail hstop).cases
      · rw [he]
        exact hspan
      · rw [hok]
        exact hrest
    · split
      · exact hts.tail
      · split
        · obtain ⟨e, he, hspan⟩ | ⟨⟨inner, rest, _⟩, hok, hrest⟩ :=
            (reads_parseOr more stop hts.tail hstop).cases
          · rw [he]
            exact hspan
          · rw [hok]
            dsimp only
            obtain ⟨e, he, hspan⟩ | ⟨⟨_, left', _⟩, hok, hleft⟩ :=
              (reads_expect ")" hrest hstop).cases
            · rw [he]
              exact hspan
            · rw [hok]
              exact hleft
        · obtain ⟨e, he, hspan⟩ | ⟨⟨name, nameSpan, rest, hfew⟩, hok, hname, hrest⟩ :=
            (reads_readName hts).cases
          · rw [he]
            exact hspan
          · rw [hok]
            dsimp only
            obtain ⟨e, he, hspan⟩ | ⟨⟨⟨inner, hfewer⟩, span, left', _⟩, hok, hinner, hspan, hleft⟩ :=
              (reads_readParens hrest hname hstop).cases
            · rw [he]
              exact hspan
            · have hshorter : inner.length < ts.length :=
                Nat.lt_of_lt_of_le hfewer (Nat.le_trans hfew (Nat.le_of_lt hlength))
              rw [hok]
              dsimp only
              split
              · obtain ⟨e, he, hspan⟩ | ⟨p, hok, _⟩ := (reads_parse inner span hinner hspan).cases
                · rw [he]
                  exact hspan
                · rw [hok]
                  exact hleft
              · split <;> exact hleft
termination_by (ts.length, 0)

end

end Pointcut

/-! ### Per-clauses -/

namespace PerClause

variable {limit : Nat} {ts : List PseudoToken} {stop : Span}

theorem reads_parse? (hts : AllEndBy limit ts) (hstop : stop.EndsBy limit) :
    Reads limit (fun _ => True) (parse? ts stop) := by
  unfold parse?
  split
  · trivial
  · split
    · trivial
    · split
      · exact hts.head
      · obtain ⟨e, he, hspan⟩ | ⟨⟨⟨inner, _⟩, span, rest, _⟩, hok, hinner, hspan, hrest⟩ :=
          (Pointcut.reads_readParens hts.tail hts.head hstop).cases
        · rw [he]
          exact hspan
        · rw [hok]
          cases rest with
          | cons next rest => exact AllEndBy.head hrest
          | nil =>
              dsimp only
              split
              · split
                · trivial
                · exact AllEndBy.spanOf hinner hspan
              · split
                · exact hspan
                · trivial
              · obtain ⟨e, he, hspan⟩ | ⟨p, hok, _⟩ :=
                  (Pointcut.reads_parse inner span hinner hspan).cases
                · rw [he]
                  exact hspan
                · rw [hok]
                  trivial

theorem reads_parseDominates? (hts : AllEndBy limit ts) :
    Reads limit (fun _ => True) (parseDominates? ts) := by
  unfold parseDominates?
  split
  · trivial
  · split
    · split
      · exact hts.head
      · trivial
    · trivial

end PerClause

/-! ### Declare statements -/

namespace Declare

variable {limit : Nat} {ts : List PseudoToken} {stop : Span}

/-- A statement is not rejected with a problem outside of the text. -/
def Rejects (limit : Nat) : Except Rejection Declare → Prop
  | .error (.problem e) => e.span.EndsBy limit
  | _ => True

theorem subset_body (ts : List PseudoToken) (header : Nat) : body ts header ⊆ ts := by
  refine List.Subset.trans (List.drop_subset ..) ?_
  split
  · split
    · exact List.dropLast_subset _
    · exact List.Subset.refl _
  · exact List.Subset.refl _

theorem rejects_parseParents (hts : AllEndBy limit ts) (hstop : stop.EndsBy limit) :
    Rejects limit (parseParents ts stop) := by
  unfold parseParents
  dsimp only
  split
  · exact hts.spanOf hstop
  · split
    · exact hts.spanOf hstop
    · trivial

theorem rejects_parseMessage {isError : Bool} (hts : AllEndBy limit ts)
    (hstop : stop.EndsBy limit) : Rejects limit (parseMessage isError ts stop) := by
  unfold parseMessage
  split
  · exact hstop
  · rename_i pointcut rest hsplit
    obtain ⟨hpointcut, hrest⟩ := subset_of_splitOnce? hsplit
    have hmissing := (hts.of_subset hrest).spanOf hstop
    dsimp only
    split
    · rename_i literal
      split
      · obtain ⟨e, he, hspan⟩ | ⟨p, hok, _⟩ := (Pointcut.reads_parse pointcut literal.span
          (hts.of_subset hpointcut) (hts.of_subset hrest).head).cases
        · rw [he]
          exact hspan
        · rw [hok]
          dsimp only
          split <;> trivial
      · exact hmissing
    · exact hmissing

theorem rejects_parseSoft {kindSpan : Span} (hkind : kindSpan.EndsBy limit)
    (hts : AllEndBy limit ts) (hstop : stop.EndsBy limit) :
    Rejects limit (parseSoft kindSpan ts stop) := by
  unfold parseSoft
  split
  · exact hstop
  · rename_i exception pointcut hsplit
    split
    · exact hkind
    · obtain ⟨e, he, hspan⟩ | ⟨p, hok, _⟩ := (Pointcut.reads_parse pointcut stop
        (hts.of_subset (subset_of_splitOnce? hsplit).2) hstop).cases
      · rw [he]
        exact hspan
      · rw [hok]
        trivial

theorem rejects_parsePrecedence (hts : AllEndBy limit ts) (hstop : stop.EndsBy limit) :
    Rejects limit (parsePrecedence ts stop) := by
  unfold parsePrecedence
  dsimp only
  split
  · exact hts.spanOf hstop
  · trivial

theorem endsBy_start (limit : Nat) : Span.EndsBy limit {} := Span.endsBy_point (Nat.zero_le limit)

theorem rejects_parse (hts : AllEndBy limit ts) : Rejects limit (parse ts) := by
  have hspan := hts.spanOf (endsBy_start limit)
  unfold parse
  dsimp only
  split
  · exact hspan
  · rename_i kind hkind
    have hkind := hts kind (List.mem_of_getElem? hkind)
    have hbody := hts.of_subset (subset_body ts 3)
    have hends : (ts.getLast?.elim (PseudoToken.spanOf ts {}) PseudoToken.span).EndsBy limit := by
      cases hlast : ts.getLast? with
      | none => exact hspan
      | some last => exact hts last (List.mem_of_getLast? hlast)
    have hstop : ∀ stop, ts.getLast?.elim (PseudoToken.spanOf ts {}) PseudoToken.span = stop →
        stop.EndsBy limit := fun _ heq => heq ▸ hends
    split
    · exact hkind
    · split
      · exact rejects_parseParents hbody (hstop _ (by cases ts.getLast? <;> rfl))
      · exact rejects_parseMessage hbody (hstop _ (by cases ts.getLast? <;> rfl))
      · exact rejects_parseMessage hbody (hstop _ (by cases ts.getLast? <;> rfl))
      · exact rejects_parseSoft hkind hbody (hstop _ (by cases ts.getLast? <;> rfl))
      · exact rejects_parsePrecedence hbody (hstop _ (by cases ts.getLast? <;> rfl))
      · exact hkind

theorem reads_parseAnnotationForm {annotationUse : AnnotationUse} {sign : Char}
    (hts : AllEndBy limit ts) :
    Reads limit (fun _ => True) (parseAnnotationForm ts annotationUse sign) := by
  unfold parseAnnotationForm
  split
  · exact hts.spanOf (endsBy_start limit)
  · rename_i kind hkind
    have hkind := hts kind (List.mem_of_getElem? hkind)
    split
    · exact hkind
    · dsimp only
      split
      · exact hkind
      · trivial

end Declare

/-! ### Factories -/

/-- A fragment and its tokens lie in the text. -/
structure Fragment.EndsBy (limit : Nat) (f : Fragment) : Prop where
  span : f.span.EndsBy limit
  tokens : AllEndBy limit (Factory.tokensIn f)

/-- A run of tokens lies in the text, and a semicolon or a brace ends it. -/
structure Fragment.IsRun (limit : Nat) (f : Fragment) : Prop where
  ends : f.EndsBy limit
  last : ∀ t ∈ f.tokens.getLast?, (t.is ";" || t.is "\x7b") = true

namespace Factory

variable {limit : Nat} {f : Factory} {run : Fragment} {r : Reporter}

theorem endsBy_pseudoToken {value : String} {isIdentifier : Bool} {span : Span}
    (h : span.EndsBy limit) : (f.pseudoToken value isIdentifier span).EndsBy limit := by
  cases f with
  | aspects => exact ⟨h, List.forall_mem_singleton.mpr h⟩
  | placeholder => exact ⟨h, nofun⟩

theorem endsBy_guardToken {condition : Expr} {span : Span} (h : span.EndsBy limit) :
    (f.guardToken condition span).EndsBy limit := by
  cases f with
  | aspects => exact ⟨h, List.forall_mem_singleton.mpr h⟩
  | placeholder => exact ⟨h, nofun⟩

theorem endsBy_setLiteralKind {kind value : String} {span : Span} (h : span.EndsBy limit) :
    (f.setLiteralKind kind (f.pseudoToken value false span)).EndsBy limit := by
  cases f with
  | aspects => exact ⟨h, List.forall_mem_singleton.mpr h⟩
  | placeholder => exact ⟨h, nofun⟩

/-- Fragments are joined with the token that ends them. -/
theorem isRun_joinTokens {fragments : List Fragment} {value : String} {span : Span}
    (h : ∀ x ∈ fragments, x.EndsBy limit) (hspan : span.EndsBy limit)
    (hvalue : value = ";" ∨ value = "\x7b") :
    (f.joinTokens (fragments ++ [f.pseudoToken value false span])).IsRun limit := by
  have hall : ∀ x ∈ fragments ++ [f.pseudoToken value false span], x.EndsBy limit :=
    List.forall_mem_append.mpr ⟨h, List.forall_mem_singleton.mpr (endsBy_pseudoToken hspan)⟩
  cases f with
  | placeholder =>
      refine ⟨⟨?_, nofun⟩, nofun⟩
      change Span.EndsBy limit ((Span.hull _).getD {})
      cases hhull : Span.hull (List.map (·.span)
          (fragments ++ [Factory.placeholder.pseudoToken value false span])) with
      | none => exact Declare.endsBy_start limit
      | some s =>
          refine Span.endsBy_hull (fun s hs => ?_) hhull
          obtain ⟨x, hx, rfl⟩ := List.mem_map.mp hs
          exact (hall x hx).span
  | aspects =>
      have htokens : AllEndBy limit ((fragments ++
          [Factory.aspects.pseudoToken value false span]).flatMap tokensIn) := by
        intro t ht
        obtain ⟨x, hx, ht⟩ := List.mem_flatMap.mp ht
        exact (hall x hx).tokens t ht
      refine ⟨⟨htokens.spanOf (Declare.endsBy_start limit), htokens⟩, fun t ht => ?_⟩
      change t ∈ ((fragments ++ [Factory.aspects.pseudoToken value false span]).flatMap
        tokensIn).getLast? at ht
      rw [List.flatMap_append, List.flatMap_singleton, List.getLast?_append] at ht
      obtain rfl := Option.some.inj ht
      rcases hvalue with rfl | rfl <;> rfl

theorem endsBy_tokens (h : run.EndsBy limit) : AllEndBy limit run.tokens := by
  have hin := h.tokens
  unfold tokensIn at hin
  unfold Fragment.tokens
  split
  · rename_i ts hcontent
    rw [hcontent] at hin
    exact hin
  · exact nofun

theorem endsBy_dropTerminator (h : run.IsRun limit) :
    AllEndBy limit (dropTerminator run.tokens).1 ∧
      (dropTerminator run.tokens).2.EndsBy limit := by
  have htokens := endsBy_tokens h.ends
  unfold dropTerminator
  split
  · rename_i last hsome
    rw [if_pos (h.last last hsome)]
    exact ⟨htokens.of_subset (List.dropLast_subset _), htokens last (List.mem_of_getLast? hsome)⟩
  · exact ⟨htokens, Declare.endsBy_start limit⟩

section

variable (h : run.IsRun limit) (hr : r.EndsBy limit)

include h hr

theorem endsBy_setDominates {t : TypeDecl} : (f.setDominates run t r).2.EndsBy limit := by
  cases f with
  | placeholder => exact hr
  | aspects =>
      unfold setDominates
      dsimp only
      obtain ⟨e, he, hspan⟩ | ⟨p, hok, _⟩ :=
        (PerClause.reads_parseDominates? (endsBy_dropTerminator h).1).cases
      · rw [he]
        exact hr.report hspan
      · rw [hok]
        cases p with
        | none => exact hr
        | some pattern =>
            dsimp only
            split <;> exact hr

theorem endsBy_setPerClause {t : TypeDecl} : (f.setPerClause run t r).2.EndsBy limit := by
  cases f with
  | placeholder => exact hr
  | aspects =>
      unfold setPerClause
      dsimp only
      obtain ⟨e, he, hspan⟩ | ⟨p, hok, _⟩ :=
        (PerClause.reads_parse? (endsBy_dropTerminator h).1 (endsBy_dropTerminator h).2).cases
      · rw [he]
        exact hr.report hspan
      · rw [hok]
        dsimp only
        split <;> exact hr

theorem endsBy_designator : (f.designator run r).2.EndsBy limit := by
  cases f with
  | placeholder => exact hr
  | aspects =>
      unfold designator
      dsimp only
      obtain ⟨e, he, hspan⟩ | ⟨p, hok, _⟩ := (Pointcut.reads_parse _ _
        (endsBy_dropTerminator h).1 (endsBy_dropTerminator h).2).cases
      · rw [he]
        exact hr.report hspan
      · rw [hok]
        exact hr

theorem endsBy_newDeclare {m : MethodDecl} {r' : Reporter}
    (hnew : f.newDeclare run r = .ok (m, r')) : r'.EndsBy limit := by
  cases f with
  | placeholder =>
      cases hnew
      exact hr
  | aspects =>
      have hrejects := Declare.rejects_parse (endsBy_tokens h.ends)
      unfold newDeclare at hnew
      dsimp only at hnew
      split at hnew
      · cases hnew
        exact hr
      · cases hnew
      · rename_i problem hproblem
        rw [hproblem] at hrejects
        cases hnew
        exact hr.report hrejects

theorem endsBy_newAnnotationDeclare {annotationUse : AnnotationUse} {sign : Char} :
    (f.newAnnotationDeclare run annotationUse sign r).2.EndsBy limit := by
  cases f with
  | placeholder => exact hr
  | aspects =>
      unfold newAnnotationDeclare
      dsimp only
      have hreads : Reads limit (fun _ => True)
          (Declare.parseAnnotationForm run.tokens annotationUse sign) :=
        Declare.reads_parseAnnotationForm (endsBy_tokens h.ends)
      obtain ⟨e, he, hspan⟩ | ⟨p, hok, _⟩ := hreads.cases
      · rw [he]
        exact hr.report hspan
      · rw [hok]
        exact hr

end

end Factory

end AspectLang
