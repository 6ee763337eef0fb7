import AspectLang.Proofs.Aspect.PointcutGrammar

/-! # Splitting outside brackets

A separator splits a slice of pseudo tokens where it stands outside parentheses and angle brackets.
`depthAfter` counts brackets with the operators `>>` and `>>>` as the two and three closing brackets
that they are; `splitFrom` takes them for other tokens, and so for it what such an operator closes
stays open.  It splits only outside brackets (`topLevel_of_mem_cuts`), and everywhere outside brackets
up to the first operator (`mem_cuts_of_topLevel`); behind an operator in a slice with balanced
brackets it never splits (`not_shift_of_mem_cuts`). -/

namespace AspectLang

namespace PseudoToken

variable {separator : String} {depth d c i : Nat} {t : PseudoToken}
  {ts part rest : List PseudoToken} {parts : List (List PseudoToken)}

/-! ### Depth -/

/-- The brackets that a token opens. -/
def opens (t : PseudoToken) : Nat := if t.is "(" || t.is "<" then 1 else 0

/-- The bracket that a token closes, if it is no more than a bracket. -/
def closesAlone (t : PseudoToken) : Nat := if t.is ")" || t.is ">" then 1 else 0

/-- Whether a token is a shift operator. -/
def isShift (t : PseudoToken) : Bool := t.is ">>" || t.is ">>>"

/-- The brackets that a token closes. -/
def closes (t : PseudoToken) : Nat :=
  if t.is ">>" then 2 else if t.is ">>>" then 3 else t.closesAlone

/-- The depth behind a token; a bracket that is closed outside all brackets does not count. -/
def depthBeside (depth : Nat) (t : PseudoToken) : Nat := depth + t.opens - t.closes

/-- What the splitting takes for the depth behind a token. -/
def depthTaken (depth : Nat) (t : PseudoToken) : Nat := depth + t.opens - t.closesAlone

section

variable (t : PseudoToken)

theorem closes_of_shift (h : t.isShift = true) :
    t.opens = 0 ∧ t.closesAlone = 0 ∧ 2 ≤ t.closes := by
  unfold opens closes closesAlone
  unfold isShift at h
  grind [not_is_of_is]

theorem closes_of_not_shift (h : t.isShift = false) : t.closes = t.closesAlone := by
  unfold closes
  unfold isShift at h
  grind

theorem closesAlone_le_closes : t.closesAlone ≤ t.closes := by
  cases h : t.isShift with
  | true => exact (closes_of_shift t h).2.1 ▸ Nat.zero_le _
  | false => exact Nat.le_of_eq (closes_of_not_shift t h).symm

/-- The depth is never taken for less than it is. -/
theorem depthBeside_le_depthTaken (h : d ≤ c) : depthBeside d t ≤ depthTaken c t := by
  have := closesAlone_le_closes t
  unfold depthBeside depthTaken
  omega

/-- Shift operators inside brackets are all that the depth is mistaken for. -/
theorem depthTaken_eq (h : t.isShift = true → d = 0) : depthTaken d t = depthBeside d t := by
  unfold depthBeside depthTaken
  cases hshift : t.isShift with
  | true =>
      obtain ⟨hopens, halone, -⟩ := closes_of_shift t hshift
      rw [h hshift, hopens, halone, Nat.zero_sub, Nat.zero_sub]
  | false => rw [closes_of_not_shift t hshift]

/-- Where a token closes no more than is open, the depth is taken for more than it is behind a shift
operator, and behind any token before which it was. -/
theorem depthTaken_of_eq (hcloses : t.closes ≤ d) (hle : d ≤ c)
    (h : depthTaken c t = depthBeside d t) : c = d ∧ t.isShift = false := by
  have hle' := closesAlone_le_closes t
  unfold depthBeside depthTaken at h
  cases hshift : t.isShift with
  | true =>
      obtain ⟨-, halone, htwo⟩ := closes_of_shift t hshift
      omega
  | false =>
      refine ⟨?_, rfl⟩
      omega

end

/-- The depth behind a run of tokens; brackets that are closed outside all brackets do not count. -/
def depthAfter (depth : Nat) (ts : List PseudoToken) : Nat := ts.foldl depthBeside depth

/-- Whether the brackets of a slice fit, and all of them are closed, when so many are open before
it. -/
def nests : (depth : Nat) → List PseudoToken → Bool
  | depth, [] => depth == 0
  | depth, t :: ts => decide (t.closes ≤ depth) && nests (depthBeside depth t) ts

/-- The parentheses and angle brackets of a slice are balanced. -/
def BracketsBalanced (ts : List PseudoToken) : Prop := nests 0 ts = true

instance : Decidable (BracketsBalanced ts) := inferInstanceAs (Decidable (nests 0 ts = true))

/-- At position `i` stands a separator outside brackets, when so many are open before the slice. -/
def TopLevelFrom (separator : String) (depth : Nat) (ts : List PseudoToken) (i : Nat) : Prop :=
  ts[i]?.any (·.is separator) = true ∧ depthAfter depth (ts.take i) = 0

/-- At position `i` of a slice stands a separator outside brackets. -/
def TopLevel (separator : String) (ts : List PseudoToken) (i : Nat) : Prop :=
  TopLevelFrom separator 0 ts i

instance : Decidable (TopLevel separator ts i) :=
  inferInstanceAs (Decidable (ts[i]?.any (·.is separator) = true ∧ depthAfter 0 (ts.take i) = 0))

theorem topLevelFrom_cons_zero :
    TopLevelFrom separator depth (t :: ts) 0 ↔ t.is separator = true ∧ depth = 0 := by
  simp [TopLevelFrom, depthAfter]

theorem topLevelFrom_cons_succ :
    TopLevelFrom separator depth (t :: ts) (i + 1) ↔
      TopLevelFrom separator (depthBeside depth t) ts i := by
  simp [TopLevelFrom, depthAfter]

theorem lt_of_topLevel (h : TopLevel separator ts i) : i < ts.length := by
  obtain ⟨t, ht, -⟩ := Option.any_eq_true _ _ |>.mp h.1
  exact (List.getElem?_eq_some_iff.mp ht).1

/-- At position `i` stands a shift operator inside brackets, when so many are open before the
slice. -/
def ShiftInsideFrom (depth : Nat) (ts : List PseudoToken) (i : Nat) : Prop :=
  ts[i]?.any isShift = true ∧ depthAfter depth (ts.take i) ≠ 0

/-- At position `i` of a slice stands a shift operator inside brackets, and closes some of them. -/
def ShiftInside (ts : List PseudoToken) (i : Nat) : Prop := ShiftInsideFrom 0 ts i

instance : Decidable (ShiftInside ts i) :=
  inferInstanceAs (Decidable (ts[i]?.any isShift = true ∧ depthAfter 0 (ts.take i) ≠ 0))

theorem shiftInsideFrom_cons_zero :
    ShiftInsideFrom depth (t :: ts) 0 ↔ t.isShift = true ∧ depth ≠ 0 := by
  simp [ShiftInsideFrom, depthAfter]

theorem shiftInsideFrom_cons_succ :
    ShiftInsideFrom depth (t :: ts) (i + 1) ↔ ShiftInsideFrom (depthBeside depth t) ts i := by
  simp [ShiftInsideFrom, depthAfter]

/-! ### Parts and the points between them -/

/-- A slice is its parts in their order, with a separator between each two. -/
inductive Joins (separator : String) : List (List PseudoToken) → List PseudoToken → Prop
  | none : Joins separator [] []
  | one (part : List PseudoToken) : Joins separator [part] part
  | more {part next : List PseudoToken} {parts : List (List PseudoToken)} {t : PseudoToken}
      {ts : List PseudoToken} : t.is separator = true → Joins separator (next :: parts) ts →
        Joins separator (part :: next :: parts) (part ++ t :: ts)

/-- The positions of what stands between the parts. -/
def cuts : List (List PseudoToken) → List Nat
  | part :: next :: parts => part.length :: (cuts (next :: parts)).map (part.length + 1 + ·)
  | _ => []

theorem Joins.cons (t : PseudoToken) (h : Joins separator (part :: parts) ts) :
    Joins separator ((t :: part) :: parts) (t :: ts) := by
  cases h with
  | one => exact .one _
  | more ht h => exact .more ht h

theorem mem_cuts_cons :
    i ∈ cuts ((t :: part) :: parts) ↔ ∃ j ∈ cuts (part :: parts), i = j + 1 := by
  cases parts with
  | nil => simp [cuts]
  | cons next parts =>
      simp only [cuts, List.length_cons, List.mem_cons, List.mem_map]
      constructor
      · rintro (rfl | ⟨j, hj, rfl⟩)
        · exact ⟨_, .inl rfl, rfl⟩
        · exact ⟨_, .inr ⟨j, hj, rfl⟩, by omega⟩
      · rintro ⟨_, rfl | ⟨j, hj, rfl⟩, rfl⟩
        · exact .inl rfl
        · exact .inr ⟨j, hj, by omega⟩

theorem mem_cuts_separator :
    i ∈ cuts ([] :: part :: parts) ↔ i = 0 ∨ ∃ j ∈ cuts (part :: parts), i = j + 1 := by
  simp only [cuts, List.length_nil, List.mem_cons, List.mem_map]
  refine or_congr_right (exists_congr fun j => and_congr_right fun _ => ?_)
  omega

/-- The first point is behind the first part. -/
theorem le_of_mem_cuts (h : i ∈ cuts (part :: parts)) : part.length ≤ i := by
  cases parts with
  | nil => cases h
  | cons next parts =>
      rcases List.mem_cons.mp h with rfl | h
      · exact Nat.le_refl _
      · obtain ⟨j, -, rfl⟩ := List.mem_map.mp h
        omega

/-! ### Where a slice is split -/

/-- The first part and the others. -/
def partsFrom (separator : String) (depth : Nat) (ts : List PseudoToken) :
    List (List PseudoToken) :=
  (splitFrom separator depth ts).1 :: (splitFrom separator depth ts).2

theorem partsFrom_of_other (h : ¬ (t.is separator = true ∧ c = 0)) :
    partsFrom separator c (t :: ts) = (t :: (splitFrom separator (depthTaken c t) ts).1) ::
      (splitFrom separator (depthTaken c t) ts).2 := by
  unfold partsFrom
  rw [splitFrom]
  split
  · rename_i hopen
    have hclose : (t.is ")" || t.is ">") = false := by
      grind [not_is_of_is]
    have hdepth : depthTaken c t = c + 1 := by
      simp [depthTaken, opens, closesAlone, hopen, hclose]
    rw [hdepth]
  · rename_i hopen
    have hopens : t.opens = 0 := if_neg hopen
    split
    · rename_i hclose
      have hdepth : depthTaken c t = c - 1 := by
        simp [depthTaken, hopens, closesAlone, (Bool.and_eq_true_iff.mp hclose).1]
      rw [hdepth]
    · rename_i hclose
      have hdepth : depthTaken c t = c := by
        unfold depthTaken closesAlone
        grind
      rw [hdepth, if_neg (by simpa [and_comm] using h)]

section

variable (hopens : separator ≠ "(" ∧ separator ≠ "<")

include hopens

theorem partsFrom_of_separator (ht : t.is separator = true) :
    partsFrom separator 0 (t :: ts) = [] :: partsFrom separator (depthTaken 0 t) ts := by
  have hopen : (t.is "(" || t.is "<") = false := by
    grind [not_is_of_is]
  unfold partsFrom depthTaken opens
  rw [splitFrom, hopen, ht]
  simp

/-- The parts, joined by separators, are the slice. -/
theorem joins_partsFrom (c : Nat) (ts : List PseudoToken) :
    Joins separator (partsFrom separator c ts) ts := by
  induction ts generalizing c with
  | nil => exact .one []
  | cons t ts ih =>
      by_cases h : t.is separator = true ∧ c = 0
      · obtain ⟨ht, rfl⟩ := h
        rw [partsFrom_of_separator hopens ht]
        have hjoins := ih (depthTaken 0 t)
        rw [partsFrom] at hjoins ⊢
        exact Joins.more ht hjoins
      · rw [partsFrom_of_other h]
        exact (ih _).cons t

theorem mem_cuts_partsFrom_cons : i ∈ cuts (partsFrom separator c (t :: ts)) ↔
    (i = 0 ∧ t.is separator = true ∧ c = 0) ∨
      ∃ j ∈ cuts (partsFrom separator (depthTaken c t) ts), i = j + 1 := by
  by_cases h : t.is separator = true ∧ c = 0
  · obtain ⟨ht, rfl⟩ := h
    rw [partsFrom_of_separator hopens ht, partsFrom, mem_cuts_separator]
    simp [ht]
  · rw [partsFrom_of_other h, mem_cuts_cons]
    simp [h, partsFrom]

/-- A slice is split only outside brackets, where the splitting takes itself to be at least as deep as
it is. -/
theorem topLevel_of_mem_cuts (hdepth : d ≤ c) (h : i ∈ cuts (partsFrom separator c ts)) :
    TopLevelFrom separator d ts i := by
  induction ts generalizing d c i with
  | nil => cases h
  | cons t ts ih =>
      rcases (mem_cuts_partsFrom_cons hopens).mp h with ⟨rfl, ht, rfl⟩ | ⟨j, hj, rfl⟩
      · exact topLevelFrom_cons_zero.mpr ⟨ht, Nat.le_zero.mp hdepth⟩
      · exact topLevelFrom_cons_succ.mpr (ih (depthBeside_le_depthTaken t hdepth) hj)

/-- A slice is split wherever a separator stands outside brackets and no shift operator inside brackets
before it. -/
theorem mem_cuts_of_topLevel (h : TopLevelFrom separator d ts i)
    (hshift : ∀ j < i, ¬ ShiftInsideFrom d ts j) : i ∈ cuts (partsFrom separator d ts) := by
  induction ts generalizing d i with
  | nil => cases h.1
  | cons t ts ih =>
      rw [mem_cuts_partsFrom_cons hopens]
      cases i with
      | zero => exact .inl ⟨rfl, topLevelFrom_cons_zero.mp h⟩
      | succ i =>
          have hdepth : depthTaken d t = depthBeside d t := depthTaken_eq t fun ht => by
            have hfirst := hshift 0 (Nat.zero_lt_succ i)
            rw [shiftInsideFrom_cons_zero] at hfirst
            exact Decidable.not_not.mp fun hne => hfirst ⟨ht, hne⟩
          rw [topLevelFrom_cons_succ] at h
          rw [hdepth]
          refine .inr ⟨i, ih h fun j hj hinside => ?_, rfl⟩
          exact hshift (j + 1) (Nat.succ_lt_succ hj) (shiftInsideFrom_cons_succ.mpr hinside)

/-- A slice whose brackets fit is not split any more behind a shift operator, the brackets that it
closes being taken for open. -/
theorem not_shift_of_mem_cuts (hnests : nests d ts = true) (hdepth : d ≤ c)
    (h : i ∈ cuts (partsFrom separator c ts)) :
    c = d ∧ ∀ j < i, ¬ ShiftInsideFrom d ts j := by
  induction ts generalizing d c i with
  | nil => cases h
  | cons t ts ih =>
      rcases (mem_cuts_partsFrom_cons hopens).mp h with ⟨rfl, -, rfl⟩ | ⟨i, hi, rfl⟩
      · exact ⟨(Nat.le_zero.mp hdepth).symm, fun j hj => absurd hj (Nat.not_lt_zero j)⟩
      · obtain ⟨hcloses, hnests⟩ := Bool.and_eq_true_iff.mp hnests
        obtain ⟨heq, hrest⟩ := ih hnests (depthBeside_le_depthTaken t hdepth) hi
        obtain ⟨rfl, ht⟩ := depthTaken_of_eq t (of_decide_eq_true hcloses) hdepth heq
        refine ⟨rfl, fun j hj hinside => ?_⟩
        cases j with
        | zero =>
            rw [shiftInsideFrom_cons_zero, ht] at hinside
            cases hinside.1
        | succ j =>
            exact hrest j (Nat.lt_of_succ_lt_succ hj) (shiftInsideFrom_cons_succ.mp hinside)

end

/-! ### The parts of a slice -/

theorem mem_cuts_splitOutsideBrackets :
    i ∈ cuts (splitOutsideBrackets ts separator) ↔ i ∈ cuts (partsFrom separator 0 ts) := by
  cases ts with
  | nil => exact Iff.rfl
  | cons t ts => exact Iff.rfl

/-- The parts of a slice are those between the separators at some positions. -/
structure Divides (cut : Nat → Prop) (separator : String) (ts : List PseudoToken)
    (parts : List (List PseudoToken)) : Prop where
  joins : Joins separator parts ts
  mem_cuts_iff : ∀ i, i ∈ cuts parts ↔ cut i

theorem Joins.ne_nil (h : Joins separator parts ts) (hts : ts ≠ []) : parts ≠ [] := by
  rintro rfl
  cases h
  exact hts rfl

theorem Joins.ne_nil_of_forall (h : Joins separator parts ts) (hne : parts ≠ [])
    (hparts : ∀ part ∈ parts, part ≠ []) : ts ≠ [] := by
  cases h with
  | none => exact absurd rfl hne
  | one => exact hparts _ List.mem_cons_self
  | more _ _ => simp

/-- Parts of a slice that are divided at the same points are the same. -/
theorem Joins.unique {parts' : List (List PseudoToken)} (h : Joins separator parts ts)
    (h' : Joins separator parts' ts) (hne : parts ≠ []) (hne' : parts' ≠ [])
    (hcuts : ∀ i, i ∈ cuts parts ↔ i ∈ cuts parts') : parts = parts' := by
  induction h generalizing parts' with
  | none => exact absurd rfl hne
  | one part =>
      cases h' with
      | none => exact absurd rfl hne'
      | one => rfl
      | more => exact absurd ((hcuts _).mpr List.mem_cons_self) List.not_mem_nil
  | @more part next parts t ts _ _ ih =>
      generalize hslice : part ++ t :: ts = slice at h'
      cases h' with
      | none => exact absurd rfl hne'
      | one => exact absurd ((hcuts _).mp List.mem_cons_self) List.not_mem_nil
      | @more part' next' parts' t' ts' _ hjoins =>
          have hlength : part.length = part'.length :=
            Nat.le_antisymm (le_of_mem_cuts ((hcuts _).mpr List.mem_cons_self))
              (le_of_mem_cuts ((hcuts _).mp List.mem_cons_self))
          obtain ⟨rfl, hrest⟩ := List.append_inj hslice hlength
          obtain ⟨rfl, rfl⟩ := List.cons.inj hrest
          rw [ih hjoins (List.cons_ne_nil _ _) (List.cons_ne_nil _ _) fun i => ?_]
          have hbehind : part.length + 1 + i ≠ part.length := by omega
          simpa [cuts, hbehind] using hcuts (part.length + 1 + i)

/-- A slice is split in two at the first separator of those at some positions, if there is one. -/
def SplitsFirst (cut : Nat → Prop) (separator : String) (ts : List PseudoToken) :
    Option (List PseudoToken × List PseudoToken) → Prop
  | some (first, rest) => (∃ t, t.is separator = true ∧ ts = first ++ t :: rest) ∧
      cut first.length ∧ ∀ i < first.length, ¬ cut i
  | none => ∀ i, ¬ cut i

/-- The first of the parts is what stands before the first separator. -/
theorem splitsFirst_splitOnce? {cut : Nat → Prop}
    (h : Divides cut separator ts (splitOutsideBrackets ts separator)) :
    SplitsFirst cut separator ts (splitOnce? ts separator) := by
  obtain ⟨hjoins, hcuts⟩ := h
  unfold splitOnce?
  cases hparts : splitOutsideBrackets ts separator with
  | nil =>
      rw [hparts] at hcuts
      exact fun i hi => List.not_mem_nil ((hcuts i).mpr hi)
  | cons first parts =>
      rw [hparts] at hjoins hcuts
      cases parts with
      | nil => exact fun i hi => List.not_mem_nil ((hcuts i).mpr hi)
      | cons next parts =>
          refine ⟨?_, (hcuts _).mp List.mem_cons_self, fun i hlt hi => ?_⟩
          · cases hjoins with
            | more ht _ =>
                rw [List.drop_append]
                simp [ht]
          · exact absurd (le_of_mem_cuts ((hcuts i).mpr hi)) (Nat.not_le.mpr hlt)

/-- A separator outside brackets, before which no shift operator closes a bracket. -/
def Reached (separator : String) (ts : List PseudoToken) (i : Nat) : Prop :=
  TopLevel separator ts i ∧ ∀ j < i, ¬ ShiftInside ts j

section

variable (hopens : separator ≠ "(" ∧ separator ≠ "<")

include hopens

theorem joins_splitOutsideBrackets (ts : List PseudoToken) :
    Joins separator (splitOutsideBrackets ts separator) ts := by
  cases ts with
  | nil => exact .none
  | cons t ts => exact joins_partsFrom hopens 0 (t :: ts)

/-- **Any slice is split outside brackets**, if no shift operator closes a bracket before a separator
there. -/
theorem divides_of_reached
    (hreached : ∀ i < ts.length, TopLevel separator ts i → ∀ j < i, ¬ ShiftInside ts j) :
    Divides (TopLevel separator ts) separator ts (splitOutsideBrackets ts separator) := by
  refine ⟨joins_splitOutsideBrackets hopens ts, fun i => ?_⟩
  rw [mem_cuts_splitOutsideBrackets]
  exact ⟨fun h => topLevel_of_mem_cuts hopens (Nat.le_refl 0) h,
    fun h => mem_cuts_of_topLevel hopens h (hreached i (lt_of_topLevel h) h)⟩

/-- **A slice with balanced brackets is split outside brackets, up to the first shift operator.**  The
parts, joined by separators, are the slice; it is split at just those separators outside brackets
before which no shift operator closes a bracket; and what splits a slice in two takes the first of
these. -/
theorem splits_outside_brackets (hbalanced : BracketsBalanced ts) :
    Divides (Reached separator ts) separator ts (splitOutsideBrackets ts separator) ∧
      SplitsFirst (Reached separator ts) separator ts (splitOnce? ts separator) := by
  have hdivides : Divides (Reached separator ts) separator ts
      (splitOutsideBrackets ts separator) := by
    refine ⟨joins_splitOutsideBrackets hopens ts, fun i => ?_⟩
    rw [mem_cuts_splitOutsideBrackets]
    exact ⟨fun h => ⟨topLevel_of_mem_cuts hopens (Nat.le_refl 0) h,
        (not_shift_of_mem_cuts hopens hbalanced (Nat.le_refl 0) h).2⟩,
      fun h => mem_cuts_of_topLevel hopens h.1 h.2⟩
  exact ⟨hdivides, splitsFirst_splitOnce? hdivides⟩

end

/-- The patterns of `declare precedence : A , B < C < D >> , E ;`. -/
def nestedPatterns : List PseudoToken :=
  [⟨"A", true, ⟨21, 21⟩, none, none⟩, ⟨",", false, ⟨23, 23⟩, none, none⟩,
    ⟨"B", true, ⟨25, 25⟩, none, none⟩, ⟨"<", false, ⟨27, 27⟩, none, none⟩,
    ⟨"C", true, ⟨29, 29⟩, none, none⟩, ⟨"<", false, ⟨31, 31⟩, none, none⟩,
    ⟨"D", true, ⟨33, 33⟩, none, none⟩, ⟨">>", false, ⟨35, 36⟩, none, none⟩,
    ⟨",", false, ⟨38, 38⟩, none, none⟩, ⟨"E", true, ⟨40, 40⟩, none, none⟩]

/-- The patterns are split at the first comma. -/
theorem splits_nestedPatterns :
    (("," : String) ≠ "(" ∧ ("," : String) ≠ "<") ∧ BracketsBalanced nestedPatterns ∧
      Divides (Reached "," nestedPatterns) "," nestedPatterns
        (splitOutsideBrackets nestedPatterns ",") ∧
      SplitsFirst (Reached "," nestedPatterns) "," nestedPatterns (splitOnce? nestedPatterns ",") :=
  ⟨by decide, by decide, splits_outside_brackets (by decide) (by decide)⟩

/-- The patterns are not split at the second comma, which stands outside brackets too: `>>` is not
counted. -/
theorem comma_behind_shift_missed :
    ¬ ∀ ts : List PseudoToken, BracketsBalanced ts →
      Divides (TopLevel "," ts) "," ts (splitOutsideBrackets ts ",") := by
  intro hall
  have hcut := ((hall nestedPatterns (by decide)).mem_cuts_iff 8).mpr (by decide)
  exact absurd hcut (by decide)

end PseudoToken

end AspectLang

/-! ## Runs with the same texts

Brackets and separators are found by the texts of pseudo tokens, and guards count as no text at all.
So nothing else of them counts (`PseudoToken.bare`): parentheses match in a run if they match in one
with the same texts, and two such runs are split at the same separators.  A slice that is joined from
parts is split into these parts, if parts with the same texts are those of some slice
(`PseudoToken.splitOutsideBrackets_of_joins`). -/

namespace AspectLang

namespace PseudoToken

/-- A pseudo token as those see it who look for brackets and separators. -/
def bare (t : PseudoToken) : PseudoToken := ⟨t.value, false, ⟨0, 0⟩, none, t.condition⟩

variable {ts us : List PseudoToken} {separator : String}

theorem is_bare (t : PseudoToken) (value : String) : (bare t).is value = t.is value := rfl

theorem Balanced.of_bare (h : Balanced ts) (hsame : us.map bare = ts.map bare) : Balanced us := by
  induction h generalizing us with
  | nil =>
      obtain rfl := List.map_eq_nil_iff.mp hsame
      exact .nil
  | @plain t ts hopen hclose _ ih =>
      obtain ⟨u, us, rfl, hu, hus⟩ := List.map_eq_cons_iff.mp hsame
      rw [← is_bare, ← hu, is_bare] at hopen hclose
      exact .plain hopen hclose (ih hus)
  | @parens opening closing inner ts hopen _ hclose _ ihinner ih =>
      rw [List.map_append, List.map_cons, List.map_cons] at hsame
      obtain ⟨u, us, rfl, hu, hus⟩ := List.map_eq_cons_iff.mp hsame
      obtain ⟨inner', us', rfl, hinner, hrest⟩ := List.map_eq_append_iff.mp hus
      obtain ⟨v, vs, rfl, hv, hvs⟩ := List.map_eq_cons_iff.mp hrest
      rw [← is_bare, ← hu, is_bare] at hopen
      rw [← is_bare, ← hv, is_bare] at hclose
      exact .parens hopen (ihinner hinner) hclose (ih hvs)

theorem splitFrom_bare (depth : Nat) (ts : List PseudoToken) :
    splitFrom separator depth (ts.map bare) = ((splitFrom separator depth ts).1.map bare,
      (splitFrom separator depth ts).2.map (List.map bare)) := by
  fun_induction splitFrom separator depth ts with
  | case1 => rfl
  | case2 depth t ts hopen part parts hrest ih =>
      have hopen' : ((bare t).is "(" || (bare t).is "<") = true := hopen
      rw [hrest] at ih
      rw [List.map_cons, splitFrom, if_pos hopen', ih]
      rfl
  | case3 depth t ts hopen hclose part parts hrest ih =>
      have hopen' : ¬ ((bare t).is "(" || (bare t).is "<") = true := hopen
      have hclose' : (((bare t).is ")" || (bare t).is ">") && 0 < depth) = true := hclose
      rw [hrest] at ih
      rw [List.map_cons, splitFrom, if_neg hopen', if_pos hclose', ih]
      rfl
  | case4 depth t ts hopen hclose hseparator part parts hrest ih =>
      have hopen' : ¬ ((bare t).is "(" || (bare t).is "<") = true := hopen
      have hclose' : ¬ (((bare t).is ")" || (bare t).is ">") && 0 < depth) = true := hclose
      have hseparator' : (depth == 0 && (bare t).is separator) = true := hseparator
      rw [hrest] at ih
      rw [List.map_cons, splitFrom, if_neg hopen', if_neg hclose', if_pos hseparator', ih]
      rfl
  | case5 depth t ts hopen hclose hseparator part parts hrest ih =>
      have hopen' : ¬ ((bare t).is "(" || (bare t).is "<") = true := hopen
      have hclose' : ¬ (((bare t).is ")" || (bare t).is ">") && 0 < depth) = true := hclose
      have hseparator' : ¬ (depth == 0 && (bare t).is separator) = true := hseparator
      rw [hrest] at ih
      rw [List.map_cons, splitFrom, if_neg hopen', if_neg hclose', if_neg hseparator', ih]
      rfl

theorem splitOutsideBrackets_bare (ts : List PseudoToken) (separator : String) :
    splitOutsideBrackets (ts.map bare) separator =
      (splitOutsideBrackets ts separator).map (List.map bare) := by
  cases ts with
  | nil => rfl
  | cons t ts =>
      change (splitFrom separator 0 ((t :: ts).map bare)).1 ::
        (splitFrom separator 0 ((t :: ts).map bare)).2 = _
      rw [splitFrom_bare]
      rfl

/-- The points between parts only depend on their lengths. -/
theorem cuts_of_lengths {parts parts' : List (List PseudoToken)}
    (h : parts.map List.length = parts'.map List.length) : cuts parts = cuts parts' := by
  induction parts generalizing parts' with
  | nil =>
      obtain rfl := List.map_eq_nil_iff.mp h.symm
      rfl
  | cons part parts ih =>
      obtain ⟨part', parts', rfl, hpart, hparts⟩ := List.map_eq_cons_iff.mp h.symm
      have hcuts := ih hparts.symm
      cases parts with
      | nil =>
          obtain rfl := List.map_eq_nil_iff.mp hparts
          rfl
      | cons next parts =>
          obtain ⟨next', parts', rfl, _, _⟩ := List.map_eq_cons_iff.mp hparts
          rw [cuts, cuts, hpart, hcuts]

/-- Slices that are joined from parts with the same texts have the same texts. -/
theorem Joins.bare_eq {parts parts' : List (List PseudoToken)} (h : Joins separator parts ts)
    (h' : Joins separator parts' us) (hparts : parts.map (List.map bare) = parts'.map (List.map bare)) :
    ts.map bare = us.map bare := by
  induction h generalizing parts' us with
  | none =>
      obtain rfl := List.map_eq_nil_iff.mp hparts.symm
      cases h'
      rfl
  | one part =>
      obtain ⟨part', parts', rfl, hpart, hrest⟩ := List.map_eq_cons_iff.mp hparts.symm
      obtain rfl := List.map_eq_nil_iff.mp hrest
      cases h'
      exact hpart.symm
  | @more part next parts t ts ht _ ih =>
      obtain ⟨part', rest, rfl, hpart, hrest⟩ := List.map_eq_cons_iff.mp hparts.symm
      obtain ⟨next', parts', rfl, _, _⟩ := List.map_eq_cons_iff.mp hrest
      cases h' with
      | @more _ _ _ u us hu hjoins =>
          have hsign : bare t = bare u := by
            obtain ⟨htcondition, htvalue⟩ := is_eq_true_iff.mp ht
            obtain ⟨hucondition, huvalue⟩ := is_eq_true_iff.mp hu
            unfold bare
            rw [htcondition, htvalue, hucondition, huvalue]
          rw [List.map_append, List.map_append, List.map_cons, List.map_cons, hpart, hsign,
            ih hjoins hrest.symm]

/-- **A slice that is joined from parts with the same texts is split into them.** -/
theorem splitOutsideBrackets_of_joins {parts : List (List PseudoToken)}
    (hopens : separator ≠ "(" ∧ separator ≠ "<") (hus : Joins separator parts us)
    (hparts : (splitOutsideBrackets ts separator).map (List.map bare) = parts.map (List.map bare)) :
    splitOutsideBrackets us separator = parts := by
  have hts := joins_splitOutsideBrackets hopens ts
  have hbare := hts.bare_eq hus hparts
  by_cases hempty : us = []
  · subst hempty
    obtain rfl := List.map_eq_nil_iff.mp hbare
    exact (List.map_eq_nil_iff.mp hparts.symm).symm
  · have hsplit : (splitOutsideBrackets us separator).map (List.map bare) =
        parts.map (List.map bare) := by
      rw [← splitOutsideBrackets_bare, ← hbare, splitOutsideBrackets_bare, hparts]
    have hlengths := congrArg (List.map List.length) hsplit
    simp only [List.map_map, Function.comp_def, List.length_map] at hlengths
    have hjoins := joins_splitOutsideBrackets hopens us
    refine hjoins.unique hus (hjoins.ne_nil hempty) (hus.ne_nil hempty) fun i => ?_
    rw [cuts_of_lengths hlengths]

end PseudoToken

end AspectLang
