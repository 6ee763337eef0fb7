import Mathlib.Data.List.TakeWhile
import AspectLang.Aspect.Declare
import AspectLang.Proofs.Aspect.TopLevelSplitting

/-! # What `declare parents` declares

The body of `declare parents` says what types get new parents, `extends` or `implements` outside
brackets, and the parents with commas between.  The reading takes the first of the two words for the
keyword wherever it stands, divides what is behind it as `splitOutsideBrackets` does, and takes empty
parts for parents.  Where the first of the words stands outside brackets, no shift operator closes a
bracket before a comma behind it and no part is empty (`ReadsAsWritten`), it reads what the body
says (`parents_read`). -/

namespace AspectLang

namespace PseudoToken

/-- Whether a token is `extends` or `implements`. -/
def isParentsKeyword (t : PseudoToken) : Bool := t.is "extends" || t.is "implements"

/-- At position `i` of a body stands `extends` or `implements` outside brackets. -/
def KeywordAt (body : List PseudoToken) (i : Nat) : Prop :=
  TopLevel "extends" body i ∨ TopLevel "implements" body i

variable {body : List PseudoToken}

instance {i : Nat} : Decidable (KeywordAt body i) :=
  inferInstanceAs (Decidable (TopLevel "extends" body i ∨ TopLevel "implements" body i))

theorem keywordAt_iff {i : Nat} : KeywordAt body i ↔
    body[i]?.any isParentsKeyword = true ∧ depthAfter 0 (body.take i) = 0 := by
  unfold KeywordAt TopLevel TopLevelFrom isParentsKeyword
  cases body[i]? with
  | none => simp
  | some t => simp [or_and_right]

end PseudoToken

namespace Declare

open PseudoToken

/-- What the body of `declare parents` says: the first of the keywords outside brackets, and the parts
before and behind it. -/
structure SaysParents (body child : List PseudoToken) (isExtends : Bool)
    (parents : List (List PseudoToken)) : Prop where
  keywordAt : KeywordAt body child.length
  first : ∀ i < child.length, ¬ KeywordAt body i
  child_ne_nil : child ≠ []
  parents_ne_nil : parents ≠ []
  forall_ne_nil : ∀ part ∈ parents, part ≠ []
  divides : ∃ keyword types, body = child ++ keyword :: types ∧ keyword.is "extends" = isExtends ∧
    Divides (TopLevel "," types) "," types parents

/-- A body that is read as what it says: the first `extends` or `implements` stands outside brackets,
no shift operator closes a bracket before a comma outside brackets behind it, and no part between
these commas is empty.  Of a body with nothing in front of the first keyword nothing is asked. -/
def ReadsAsWritten (body : List PseudoToken) : Prop :=
  match body.takeWhile (!·.isParentsKeyword), body.dropWhile (!·.isParentsKeyword) with
  | t :: child, _ :: types => depthAfter 0 (t :: child) = 0 ∧
      (∀ i < types.length, TopLevel "," types i → ∀ j < i, ¬ ShiftInside types j) ∧
      (splitOutsideBrackets types ",").all (!·.isEmpty) = true
  | _, _ => True

section

variable {body child types : List PseudoToken} {keyword : PseudoToken}
  (hchild : ∀ t ∈ child, t.isParentsKeyword = false) (hkeyword : keyword.isParentsKeyword = true)

include hchild hkeyword

theorem takeWhile_keyword :
    (child ++ keyword :: types).takeWhile (!·.isParentsKeyword) = child := by
  rw [List.takeWhile_append_of_pos fun t ht => by rw [hchild t ht]; rfl,
    List.takeWhile_cons_of_neg (by simp [hkeyword]), List.append_nil]

theorem dropWhile_keyword :
    (child ++ keyword :: types).dropWhile (!·.isParentsKeyword) = keyword :: types := by
  rw [List.dropWhile_append_of_pos fun t ht => by rw [hchild t ht]; rfl,
    List.dropWhile_cons_of_neg (by simp [hkeyword])]

theorem parseParents_append (stop : Span) : parseParents (child ++ keyword :: types) stop =
    if child.isEmpty || types.isEmpty then
      .error (reject "incomplete declare parents" (spanOf (child ++ keyword :: types) stop))
    else
      .ok (.parents (renderAll child) (keyword.is "extends")
        ((splitOutsideBrackets types ",").map renderAll)) := by
  have htake : (child ++ keyword :: types).takeWhile (!·.isParentsKeyword) = child :=
    takeWhile_keyword hchild hkeyword
  have hdrop : (child ++ keyword :: types).dropWhile (!·.isParentsKeyword) = keyword :: types :=
    dropWhile_keyword hchild hkeyword
  unfold isParentsKeyword at htake hdrop
  unfold parseParents
  simp only [htake, hdrop]

theorem readsAsWritten_append : ReadsAsWritten (child ++ keyword :: types) ↔
    (child ≠ [] → depthAfter 0 child = 0 ∧
      (∀ i < types.length, TopLevel "," types i → ∀ j < i, ¬ ShiftInside types j) ∧
      (splitOutsideBrackets types ",").all (!·.isEmpty) = true) := by
  unfold ReadsAsWritten
  rw [takeWhile_keyword hchild hkeyword, dropWhile_keyword hchild hkeyword]
  cases child with
  | nil => simp
  | cons t child => simp

/-- The keyword of a body that says something is the first one, if the first one stands outside
brackets. -/
theorem SaysParents.child_eq {isExtends : Bool} {child' : List PseudoToken}
    {parents : List (List PseudoToken)}
    (h : SaysParents (child ++ keyword :: types) child' isExtends parents)
    (hdepth : depthAfter 0 child = 0) : child' = child := by
  obtain ⟨keyword', types', hbody, -, -⟩ := h.divides
  have hlength : child'.length = child.length := by
    apply Nat.le_antisymm
    · refine Nat.le_of_not_lt fun hlt => h.first _ hlt (keywordAt_iff.mpr ?_)
      simp [hkeyword, hdepth]
    · refine Nat.le_of_not_lt fun hlt => ?_
      have hat := (keywordAt_iff.mp h.keywordAt).1
      rw [List.getElem?_append_left hlt, List.getElem?_eq_getElem hlt, Option.any_some,
        hchild _ (List.getElem_mem hlt)] at hat
      cases hat
  exact (List.append_inj hbody.symm hlength).1

end

theorem parseParents_of_forall {body : List PseudoToken}
    (h : ∀ t ∈ body, t.isParentsKeyword = false) (stop : Span) : parseParents body stop =
      .error (reject "expected \"extends\" or \"implements\"" (spanOf body stop)) := by
  have hdrop : body.dropWhile (!·.isParentsKeyword) = [] :=
    List.dropWhile_eq_nil_iff.mpr fun t ht => by rw [h t ht]; rfl
  unfold isParentsKeyword at hdrop
  unfold parseParents
  simp only [hdrop]

/-- A body without the keywords says nothing. -/
theorem not_saysParents {body child : List PseudoToken} {isExtends : Bool}
    {parents : List (List PseudoToken)} (h : ∀ t ∈ body, t.isParentsKeyword = false) :
    ¬ SaysParents body child isExtends parents := by
  intro hsays
  have hat := (keywordAt_iff.mp hsays.keywordAt).1
  rw [Option.any_eq_true] at hat
  obtain ⟨t, ht, hkeyword⟩ := hat
  rw [h t (List.mem_of_getElem? ht)] at hkeyword
  cases hkeyword

theorem exists_keyword (body : List PseudoToken) : (∀ t ∈ body, t.isParentsKeyword = false) ∨
    ∃ child keyword types, body = child ++ keyword :: types ∧
      (∀ t ∈ child, t.isParentsKeyword = false) ∧ keyword.isParentsKeyword = true := by
  induction body with
  | nil => exact .inl fun t ht => absurd ht List.not_mem_nil
  | cons t body ih =>
      cases ht : t.isParentsKeyword with
      | true => exact .inr ⟨[], t, body, rfl, fun t ht => absurd ht List.not_mem_nil, ht⟩
      | false =>
          rcases ih with hnone | ⟨child, keyword, types, rfl, hchild, hkeyword⟩
          · exact .inl (List.forall_mem_cons.mpr ⟨ht, hnone⟩)
          · exact .inr ⟨t :: child, keyword, types, rfl, List.forall_mem_cons.mpr ⟨ht, hchild⟩,
              hkeyword⟩

/-- **A body that is read as written is read as what it says.** -/
theorem parseParents_eq_ok_iff {body : List PseudoToken} (h : ReadsAsWritten body) (stop : Span)
    (d : Declare) : parseParents body stop = .ok d ↔ ∃ child isExtends parents,
      SaysParents body child isExtends parents ∧
        d = .parents (renderAll child) isExtends (parents.map renderAll) := by
  rcases exists_keyword body with hnone | ⟨child, keyword, types, rfl, hchild, hkeyword⟩
  · rw [parseParents_of_forall hnone]
    constructor
    · intro hok
      cases hok
    · rintro ⟨_, _, _, hsays, -⟩
      exact absurd hsays (not_saysParents hnone)
  rw [readsAsWritten_append hchild hkeyword] at h
  rw [parseParents_append hchild hkeyword]
  by_cases hempty : child = [] ∨ types = []
  · rw [if_pos (by simpa using hempty)]
    constructor
    · intro hok
      cases hok
    · rintro ⟨child', isExtends, parents, hsays, -⟩
      have hdepth : depthAfter 0 child = 0 := by
        cases child with
        | nil => rfl
        | cons t child => exact (h (List.cons_ne_nil _ _)).1
      obtain rfl := hsays.child_eq hchild hkeyword hdepth
      obtain ⟨keyword', types', hbody, -, hdivides⟩ := hsays.divides
      obtain ⟨rfl, rfl⟩ := List.cons.inj (List.append_cancel_left hbody)
      exact absurd (hempty.resolve_left hsays.child_ne_nil)
        (hdivides.joins.ne_nil_of_forall hsays.parents_ne_nil hsays.forall_ne_nil)
  · obtain ⟨hne, htypes⟩ := not_or.mp hempty
    obtain ⟨hdepth, hreached, hfilled⟩ := h hne
    have hdivides : Divides (TopLevel "," types) "," types (splitOutsideBrackets types ",") :=
      divides_of_reached (by decide) hreached
    rw [if_neg (by simpa using hempty)]
    constructor
    · intro hok
      cases hok
      refine ⟨child, _, _, ⟨?_, ?_, hne, hdivides.joins.ne_nil htypes, ?_, keyword, types, rfl, rfl,
        hdivides⟩, rfl⟩
      · rw [keywordAt_iff]
        simp [hkeyword, hdepth]
      · intro i hi hat
        have hat := (keywordAt_iff.mp hat).1
        rw [List.getElem?_append_left hi, List.getElem?_eq_getElem hi, Option.any_some,
          hchild _ (List.getElem_mem hi)] at hat
        cases hat
      · simpa using hfilled
    · rintro ⟨child', isExtends, parents, hsays, rfl⟩
      obtain rfl := hsays.child_eq hchild hkeyword hdepth
      obtain ⟨keyword', types', hbody, rfl, hdivides'⟩ := hsays.divides
      obtain ⟨rfl, rfl⟩ := List.cons.inj (List.append_cancel_left hbody)
      rw [hdivides.joins.unique hdivides'.joins (hdivides.joins.ne_nil htypes) hsays.parents_ne_nil
        fun i => (hdivides.mem_cuts_iff i).trans (hdivides'.mem_cuts_iff i).symm]

section

variable {word kind colon semicolon : PseudoToken} (hend : semicolon.is ";" = true)
  (ts : List PseudoToken)

include hend

theorem body_of_statement : body (word :: kind :: colon :: (ts ++ [semicolon])) 3 = ts := by
  have hrun : word :: kind :: colon :: (ts ++ [semicolon]) =
      (word :: kind :: colon :: ts) ++ [semicolon] := rfl
  unfold body
  rw [hrun, List.getLast?_concat]
  dsimp only
  rw [if_pos hend, List.dropLast_concat]
  rfl

theorem parse_eq_ok_iff (hkind : kind.value = "parents") (d : Declare) :
    parse (word :: kind :: colon :: (ts ++ [semicolon])) = .ok d ↔
      parseParents ts semicolon.span = .ok d := by
  have hlast : (word :: kind :: colon :: (ts ++ [semicolon])).getLast? = some semicolon :=
    List.getLast?_concat (l := word :: kind :: colon :: ts)
  unfold parse
  rw [body_of_statement hend, hlast]
  cases ts with
  | nil =>
      constructor
      · intro hok
        cases hok
      · intro hok
        cases hok
  | cons t ts =>
      simp only [List.getElem?_cons_succ, List.getElem?_cons_zero, hkind]
      rfl

end

/-- **What `declare parents` declares.**  If its body is read as written, a statement
`declare parents : body ;` is read just if the body says something, and as what it says. -/
theorem parents_read {word kind colon semicolon : PseudoToken} {body : List PseudoToken}
    (hkind : kind.value = "parents") (hend : semicolon.is ";" = true) (h : ReadsAsWritten body)
    (child : String) (isExtends : Bool) (parents : List String) :
    parse (word :: kind :: colon :: (body ++ [semicolon])) = .ok (.parents child isExtends parents) ↔
      ∃ types parts, SaysParents body types isExtends parts ∧ child = renderAll types ∧
        parents = parts.map renderAll := by
  rw [parse_eq_ok_iff hend body hkind, parseParents_eq_ok_iff h]
  constructor
  · rintro ⟨types, _, parts, hsays, hd⟩
    cases hd
    exact ⟨types, parts, hsays, rfl, rfl⟩
  · rintro ⟨types, parts, hsays, rfl, rfl⟩
    exact ⟨types, isExtends, parts, hsays, rfl⟩

/-- The run `declare parents : body ;` with a body behind byte 17 and a semicolon at byte `stop`. -/
def parentsRun (body : List PseudoToken) (stop : Nat) : List PseudoToken :=
  ⟨"declare", false, ⟨0, 6⟩, none, none⟩ :: ⟨"parents", true, ⟨8, 14⟩, none, none⟩ ::
    ⟨":", false, ⟨16, 16⟩, none, none⟩ :: (body ++ [⟨";", false, ⟨stop, stop⟩, none, none⟩])

/-- The body `Foo < A , B > implements Bar , Baz < C < D >>`. -/
def genericParents : List PseudoToken :=
  [⟨"Foo", true, ⟨18, 20⟩, none, none⟩, ⟨"<", false, ⟨22, 22⟩, none, none⟩,
    ⟨"A", true, ⟨24, 24⟩, none, none⟩, ⟨",", false, ⟨26, 26⟩, none, none⟩,
    ⟨"B", true, ⟨28, 28⟩, none, none⟩, ⟨">", false, ⟨30, 30⟩, none, none⟩,
    ⟨"implements", false, ⟨32, 41⟩, none, none⟩, ⟨"Bar", true, ⟨43, 45⟩, none, none⟩,
    ⟨",", false, ⟨47, 47⟩, none, none⟩, ⟨"Baz", true, ⟨49, 51⟩, none, none⟩,
    ⟨"<", false, ⟨53, 53⟩, none, none⟩, ⟨"C", true, ⟨55, 55⟩, none, none⟩,
    ⟨"<", false, ⟨57, 57⟩, none, none⟩, ⟨"D", true, ⟨59, 59⟩, none, none⟩,
    ⟨">>", false, ⟨61, 62⟩, none, none⟩]

/-- Type arguments on both sides of the keyword are read. -/
theorem parents_read_of_genericParents :
    ReadsAsWritten genericParents ∧
      parse (parentsRun genericParents 64) =
        .ok (.parents "Foo < A , B >" false ["Bar", "Baz < C < D >>"]) ∧
      ∃ types parts, SaysParents genericParents types false parts ∧
        "Foo < A , B >" = renderAll types ∧ ["Bar", "Baz < C < D >>"] = parts.map renderAll := by
  have hbody : genericParents =
      genericParents.take 6 ++ ⟨"implements", false, ⟨32, 41⟩, none, none⟩ :: genericParents.drop 7 :=
    rfl
  have hwritten : ReadsAsWritten genericParents := by
    rw [hbody, readsAsWritten_append (by decide) (by decide)]
    exact fun _ => by decide
  have hread : parse (parentsRun genericParents 64) =
      .ok (.parents "Foo < A , B >" false ["Bar", "Baz < C < D >>"]) := rfl
  exact ⟨hwritten, hread, (parents_read rfl rfl hwritten _ _ _).mp hread⟩

/-- The body `Foo < ? extends T > implements Bar`. -/
def boundedParents : List PseudoToken :=
  [⟨"Foo", true, ⟨18, 20⟩, none, none⟩, ⟨"<", false, ⟨22, 22⟩, none, none⟩,
    ⟨"?", false, ⟨24, 24⟩, none, none⟩, ⟨"extends", false, ⟨26, 32⟩, none, none⟩,
    ⟨"T", true, ⟨34, 34⟩, none, none⟩, ⟨">", false, ⟨36, 36⟩, none, none⟩,
    ⟨"implements", false, ⟨38, 47⟩, none, none⟩, ⟨"Bar", true, ⟨49, 51⟩, none, none⟩]

/-- The word in front of the bound of a wildcard is taken for the keyword. -/
theorem bound_taken_for_parents :
    ¬ ∀ (word kind colon semicolon : PseudoToken) (body : List PseudoToken), kind.value = "parents" →
      semicolon.is ";" = true → ∀ (child : String) (isExtends : Bool) (parents : List String),
        parse (word :: kind :: colon :: (body ++ [semicolon])) =
            .ok (.parents child isExtends parents) ↔
          ∃ types parts, SaysParents body types isExtends parts ∧ child = renderAll types ∧
            parents = parts.map renderAll := by
  intro hall
  have hsays : SaysParents boundedParents (boundedParents.take 6) false [boundedParents.drop 7] :=
    ⟨by decide, by decide, by decide, by decide, by decide, _, _, rfl, rfl,
      divides_of_reached (by decide) (by decide)⟩
  have hread := (hall ⟨"declare", false, ⟨0, 6⟩, none, none⟩ ⟨"parents", true, ⟨8, 14⟩, none, none⟩
    ⟨":", false, ⟨16, 16⟩, none, none⟩ ⟨";", false, ⟨53, 53⟩, none, none⟩ boundedParents rfl rfl
    _ _ _).mpr ⟨_, _, hsays, rfl, rfl⟩
  have hactual : parse (parentsRun boundedParents 53) =
      .ok (.parents "Foo < ?" true ["T > implements Bar"]) := rfl
  obtain ⟨-, hextends, -⟩ := Declare.parents.inj (Except.ok.inj (hactual.symm.trans hread))
  cases hextends

end Declare

end AspectLang
