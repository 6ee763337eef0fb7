import AspectLang.Aspect.Pointcut

/-! # The grammar of pointcuts

A run of pseudo tokens derives a pointcut (`Pointcut.Derives`) by the grammar

* `or` is `and` with `||` between, and `and` is `unary` with `&&` between, both grouped to the left;
* `unary` is `!` in front of a `unary`, or a `primary`;
* `primary` is an `or` in parentheses, a guard, or a name with tokens in parentheses that match,
  which derive an `or` themselves behind the words for control flow.

The readers go through such a run from left to right and decide by the next token.  Each of them has
one lemma that says when it succeeds (`gives_parseOr` and so on); from these a run that is read is
derived (`derives_of_parse`), and one that is derived is read whatever follows it
(`Derives.readable`), so that the grammar gives every run one pointcut at the most. -/

namespace AspectLang

namespace PseudoToken

/-- A run whose parentheses match. -/
inductive Balanced : List PseudoToken → Prop
  | nil : Balanced []
  | plain {t : PseudoToken} {ts : List PseudoToken} :
      t.is "(" = false → t.is ")" = false → Balanced ts → Balanced (t :: ts)
  | parens {opening closing : PseudoToken} {inner ts : List PseudoToken} :
      opening.is "(" = true → Balanced inner → closing.is ")" = true → Balanced ts →
        Balanced (opening :: inner ++ closing :: ts)

/-- A run that closes so many parentheses more than it opens, with matching ones between. -/
inductive Descends : Nat → List PseudoToken → Prop
  | balanced {ts : List PseudoToken} : Balanced ts → Descends 0 ts
  | close {depth : Nat} {closing : PseudoToken} {ts us : List PseudoToken} :
      Balanced ts → closing.is ")" = true → Descends depth us →
        Descends (depth + 1) (ts ++ closing :: us)

variable {t : PseudoToken} {ts inner rest : List PseudoToken} {depth : Nat}

/-- A token is one text at the most. -/
theorem not_is_of_is {value other : String} (h : t.is value = true) (hne : value ≠ other) :
    t.is other = false := by
  unfold is at *
  simp only [Bool.and_eq_true, beq_iff_eq] at h
  simp [h.2, hne]

theorem is_eq_true_iff {value : String} : t.is value = true ↔ t.condition = none ∧ t.value = value := by
  simp [is]

theorem Descends.plain (h : Descends depth ts) (hopen : t.is "(" = false) (hclose : t.is ")" = false) :
    Descends depth (t :: ts) := by
  cases h with
  | balanced h => exact .balanced (.plain hopen hclose h)
  | close h hc hrest => exact .close (.plain hopen hclose h) hc hrest

/-- An opening parenthesis takes the first closing one. -/
theorem Descends.opening (h : Descends (depth + 1) ts) (hopen : t.is "(" = true) :
    Descends depth (t :: ts) := by
  cases h with
  | close hinner hc hrest =>
      cases hrest with
      | balanced hrest => exact .balanced (.parens hopen hinner hc hrest)
      | @close _ closing us vs hus hclosing hrest =>
          have hbalanced := Balanced.parens hopen hinner hc hus
          have hdescends := Descends.close hbalanced hclosing hrest
          simpa using hdescends

theorem descends_of_balanced? {close : PseudoToken}
    (h : balanced? depth ts = some (inner, close, rest)) :
    ts = inner ++ close :: rest ∧ close.is ")" = true ∧ Descends depth inner := by
  fun_induction balanced? depth ts generalizing inner with
  | case1 => cases h
  | case2 depth t ts hopen ih =>
      obtain ⟨⟨i, c, r⟩, hr, he⟩ := Option.map_eq_some_iff.mp h
      cases he
      obtain ⟨rfl, hclose, hdescends⟩ := ih hr
      exact ⟨rfl, hclose, hdescends.opening hopen⟩
  | case3 t ts hopen hclose =>
      cases h
      exact ⟨rfl, hclose, .balanced .nil⟩
  | case4 t ts hopen hclose depth ih =>
      obtain ⟨⟨i, c, r⟩, hr, he⟩ := Option.map_eq_some_iff.mp h
      cases he
      obtain ⟨rfl, hlast, hdescends⟩ := ih hr
      exact ⟨rfl, hlast, .close .nil hclose hdescends⟩
  | case5 depth t ts hopen hclose ih =>
      obtain ⟨⟨i, c, r⟩, hr, he⟩ := Option.map_eq_some_iff.mp h
      cases he
      obtain ⟨rfl, hlast, hdescends⟩ := ih hr
      exact ⟨rfl, hlast, hdescends.plain (by simpa using hopen) (by simpa using hclose)⟩

/-- Matching parentheses are passed over at any depth. -/
theorem Balanced.balanced?_append (h : Balanced ts) (depth : Nat) (more : List PseudoToken) :
    balanced? depth (ts ++ more) =
      (balanced? depth more).map fun (inner, rest) => (ts ++ inner, rest) := by
  induction h generalizing depth more with
  | nil => simp
  | plain hopen hclose _ ih => simp [balanced?, hopen, hclose, ih, Function.comp_def]
  | @parens opening closing inner ts hopen _ hclose _ ihinner ihts =>
      have hclosing : closing.is "(" = false := not_is_of_is hclose (by decide)
      simp [balanced?, hopen, hclose, hclosing, ihinner, ihts, Function.comp_def]

/-- **What stands in parentheses is what matches.** -/
theorem balanced?_eq_some_iff {close : PseudoToken} :
    balanced? 0 ts = some (inner, close, rest) ↔
      ts = inner ++ close :: rest ∧ close.is ")" = true ∧ Balanced inner := by
  constructor
  · intro h
    obtain ⟨hts, hclose, hdescends⟩ := descends_of_balanced? h
    cases hdescends with
    | balanced hinner => exact ⟨hts, hclose, hinner⟩
  · rintro ⟨rfl, hclose, hinner⟩
    have hopen : close.is "(" = false := not_is_of_is hclose (by decide)
    simp [hinner.balanced?_append, balanced?, hopen, hclose]

end PseudoToken

namespace Pointcut

open PseudoToken

/-! ### The grammar -/

/-- What may stand for the name of a designator: tokens, the name that they read, and its range. -/
abbrev Naming := List PseudoToken → String → Span → Prop

/-- The nonterminals of the grammar. -/
inductive Level where
  | or | and | unary | primary

/-- The word for the control flow of a pointcut, with or without the join points themselves. -/
def controlFlowWord (below : Bool) : String := if below then "cflowbelow" else "cflow"

/-- The pointcut of a name that is not a word for control flow, and of the tokens in its
parentheses. -/
def ofName (name : String) (inner : List PseudoToken) (span : Span) : Pointcut :=
  if name ∈ kindedDesignators then .kinded name (renderAll inner) span
  else .reference name ((splitOutsideBrackets inner ",").map renderAll) span

/-- The runs that a nonterminal derives, with the pointcut that they stand for. -/
inductive Derives (named : Naming) : Level → List PseudoToken → Pointcut → Prop
  | conjunction {ts : List PseudoToken} {p : Pointcut} : Derives named .and ts p →
      Derives named .or ts p
  | alternative {ts us : List PseudoToken} {t : PseudoToken} {p q : Pointcut} :
      Derives named .or ts p → t.is "||" = true → Derives named .and us q →
        Derives named .or (ts ++ t :: us) (.or p q)
  | conjunct {ts : List PseudoToken} {p : Pointcut} : Derives named .unary ts p →
      Derives named .and ts p
  | both {ts us : List PseudoToken} {t : PseudoToken} {p q : Pointcut} :
      Derives named .and ts p → t.is "&&" = true → Derives named .unary us q →
        Derives named .and (ts ++ t :: us) (.and p q)
  | negation {t : PseudoToken} {ts : List PseudoToken} {p : Pointcut} : t.is "!" = true →
      Derives named .unary ts p → Derives named .unary (t :: ts) (.not p)
  | primary {ts : List PseudoToken} {p : Pointcut} : Derives named .primary ts p →
      Derives named .unary ts p
  | parens {opening closing : PseudoToken} {ts : List PseudoToken} {p : Pointcut} :
      opening.is "(" = true → Derives named .or ts p → closing.is ")" = true →
        Derives named .primary (opening :: ts ++ [closing]) p
  | guard {t : PseudoToken} {condition : Expr} : t.condition = some condition →
      Derives named .primary [t] (.guard condition t.span)
  | controlFlow {names inner : List PseudoToken} {opening closing : PseudoToken} {span : Span}
      {p : Pointcut} (below : Bool) : named names (controlFlowWord below) span →
        opening.is "(" = true → Balanced inner → Derives named .or inner p →
          closing.is ")" = true → Derives named .primary (names ++ opening :: inner ++ [closing])
            (.cflow below p (span.merge closing.span))
  | designator {names inner : List PseudoToken} {opening closing : PseudoToken} {name : String}
      {span : Span} : named names name span → (∀ below, name ≠ controlFlowWord below) →
        opening.is "(" = true → Balanced inner → closing.is ")" = true →
          Derives named .primary (names ++ opening :: inner ++ [closing])
            (ofName name inner (span.merge closing.span))

/-- A name as it is written down: an identifier, the word of a designator with a pattern, or `@` and
an identifier that make such a word. -/
inductive Named : Naming
  | identifier {t : PseudoToken} : t.isIdentifier = true → Named [t] t.value t.span
  | designator {t : PseudoToken} : t.condition = none → t.value ∈ kindedDesignators →
      Named [t] t.value t.span
  | atWord {sign next : PseudoToken} : sign.is "@" = true → next.isIdentifier = true →
      "@" ++ next.value ∈ kindedDesignators →
        Named [sign, next] ("@" ++ next.value) (sign.span.merge next.span)

/-- Whether a token cannot be a name by itself: a guard, or a sign that begins something else. -/
def isReserved (t : PseudoToken) : Bool := t.condition.isSome || ["!", "(", "@"].contains t.value

/-- A name as it is read.  Signs and guards go before names; and the identifier behind an `@` that is
itself marked as an identifier may be any. -/
inductive ReadsName : Naming
  | word {t : PseudoToken} : isReserved t = false →
      t.isIdentifier = true ∨ t.value ∈ kindedDesignators → ReadsName [t] t.value t.span
  | atWord {sign next : PseudoToken} : sign.is "@" = true → next.isIdentifier = true →
      sign.isIdentifier = true ∨ "@" ++ next.value ∈ kindedDesignators →
        ReadsName [sign, next] ("@" ++ next.value) (sign.span.merge next.span)

/-! ### The readers -/

section Readers

variable {α : Type} {t : PseudoToken} {ts rest inner : List PseudoToken} {stop span : Span}
  {p q left : Pointcut}

/-- A reader succeeds with `a` and leaves `rest`. -/
def Gives {P : List PseudoToken → Prop}
    (x : Except ReadProblem (α × { ts : List PseudoToken // P ts })) (a : α)
    (rest : List PseudoToken) : Prop :=
  ∃ h, x = .ok (a, ⟨rest, h⟩)

theorem not_gives_error {P : List PseudoToken → Prop} {e : ReadProblem} {a : α} :
    ¬ Gives (P := P) (.error e) a rest := fun ⟨_, h⟩ => nomatch h

theorem gives_ok {P : List PseudoToken → Prop} {a b : α} {us : { ts : List PseudoToken // P ts }} :
    Gives (.ok (b, us)) a rest ↔ a = b ∧ rest = us.1 := by
  constructor
  · rintro ⟨h, heq⟩
    cases heq
    exact ⟨rfl, rfl⟩
  · rintro ⟨rfl, rfl⟩
    exact ⟨us.2, rfl⟩

theorem gives_expect {value : String} :
    Gives (expect value stop ts) t rest ↔ ts = t :: rest ∧ t.is value = true := by
  cases ts with
  | nil => simp [expect, not_gives_error]
  | cons u us =>
      rw [expect]
      split
      · rename_i hu
        rw [gives_ok]
        constructor
        · rintro ⟨rfl, rfl⟩
          exact ⟨rfl, hu⟩
        · rintro ⟨heq, _⟩
          cases heq
          exact ⟨rfl, rfl⟩
      · rename_i hu
        constructor
        · exact fun h => absurd h not_gives_error
        · rintro ⟨heq, ht⟩
          cases heq
          exact absurd ht hu

/-- The first reader's result goes to the second one. -/
theorem gives_parseOr : Gives (parseOr ts stop) p rest ↔
    ∃ left mid, Gives (parseAnd ts stop) left mid ∧ Gives (parseOrs left mid stop) p rest := by
  rw [parseOr]
  constructor
  · intro h
    split at h
    · exact absurd h not_gives_error
    · rename_i left mid hmid hand
      split at h
      · exact absurd h not_gives_error
      · rename_i q us hus hors
        obtain ⟨rfl, rfl⟩ := gives_ok.mp h
        exact ⟨left, mid, ⟨hmid, hand⟩, ⟨hus, hors⟩⟩
  · rintro ⟨left, mid, ⟨hmid, hand⟩, ⟨hrest, hors⟩⟩
    simp only [hand, hors]
    exact gives_ok.mpr ⟨rfl, rfl⟩

theorem gives_parseAnd : Gives (parseAnd ts stop) p rest ↔
    ∃ left mid, Gives (parseUnary ts stop) left mid ∧ Gives (parseAnds left mid stop) p rest := by
  rw [parseAnd]
  constructor
  · intro h
    split at h
    · exact absurd h not_gives_error
    · rename_i left mid hmid hunary
      split at h
      · exact absurd h not_gives_error
      · rename_i q us hus hands
        obtain ⟨rfl, rfl⟩ := gives_ok.mp h
        exact ⟨left, mid, ⟨hmid, hunary⟩, ⟨hus, hands⟩⟩
  · rintro ⟨left, mid, ⟨hmid, hunary⟩, ⟨hrest, hands⟩⟩
    simp only [hunary, hands]
    exact gives_ok.mpr ⟨rfl, rfl⟩

theorem gives_parseOrs_nil : Gives (parseOrs left [] stop) p rest ↔ p = left ∧ rest = [] := by
  rw [parseOrs, gives_ok]

theorem gives_parseOrs_stop (ht : t.is "||" = false) :
    Gives (parseOrs left (t :: ts) stop) p rest ↔ p = left ∧ rest = t :: ts := by
  simp only [parseOrs, ht, Bool.false_eq_true, if_false, gives_ok]

theorem gives_parseOrs_more (ht : t.is "||" = true) :
    Gives (parseOrs left (t :: ts) stop) p rest ↔
      ∃ right mid, Gives (parseAnd ts stop) right mid ∧
        Gives (parseOrs (.or left right) mid stop) p rest := by
  rw [parseOrs, if_pos ht]
  constructor
  · intro h
    split at h
    · exact absurd h not_gives_error
    · rename_i right mid hmid hand
      split at h
      · exact absurd h not_gives_error
      · rename_i q us hus hors
        obtain ⟨rfl, rfl⟩ := gives_ok.mp h
        exact ⟨right, mid, ⟨hmid, hand⟩, ⟨hus, hors⟩⟩
  · rintro ⟨right, mid, ⟨hmid, hand⟩, ⟨hrest, hors⟩⟩
    simp only [hand, hors]
    exact gives_ok.mpr ⟨rfl, rfl⟩

theorem gives_parseAnds_nil : Gives (parseAnds left [] stop) p rest ↔ p = left ∧ rest = [] := by
  rw [parseAnds, gives_ok]

theorem gives_parseAnds_stop (ht : t.is "&&" = false) :
    Gives (parseAnds left (t :: ts) stop) p rest ↔ p = left ∧ rest = t :: ts := by
  simp only [parseAnds, ht, Bool.false_eq_true, if_false, gives_ok]

theorem gives_parseAnds_more (ht : t.is "&&" = true) :
    Gives (parseAnds left (t :: ts) stop) p rest ↔
      ∃ right mid, Gives (parseUnary ts stop) right mid ∧
        Gives (parseAnds (.and left right) mid stop) p rest := by
  rw [parseAnds, if_pos ht]
  constructor
  · intro h
    split at h
    · exact absurd h not_gives_error
    · rename_i right mid hmid hunary
      split at h
      · exact absurd h not_gives_error
      · rename_i q us hus hands
        obtain ⟨rfl, rfl⟩ := gives_ok.mp h
        exact ⟨right, mid, ⟨hmid, hunary⟩, ⟨hus, hands⟩⟩
  · rintro ⟨right, mid, ⟨hmid, hunary⟩, ⟨hrest, hands⟩⟩
    simp only [hunary, hands]
    exact gives_ok.mpr ⟨rfl, rfl⟩

theorem not_gives_parseUnary_nil : ¬ Gives (parseUnary [] stop) p rest := by
  rw [parseUnary]
  exact not_gives_error

theorem gives_parseUnary_not (ht : t.is "!" = true) :
    Gives (parseUnary (t :: ts) stop) p rest ↔
      ∃ inner, Gives (parseUnary ts stop) inner rest ∧ p = .not inner := by
  rw [parseUnary, if_pos ht]
  constructor
  · intro h
    split at h
    · exact absurd h not_gives_error
    · rename_i inner us hus hunary
      obtain ⟨rfl, rfl⟩ := gives_ok.mp h
      exact ⟨inner, ⟨hus, hunary⟩, rfl⟩
  · rintro ⟨inner, ⟨hrest, hunary⟩, rfl⟩
    simp only [hunary]
    exact gives_ok.mpr ⟨rfl, rfl⟩

theorem is_eq_false_of_condition {condition : Expr} (ht : t.condition = some condition)
    (value : String) : t.is value = false := by
  simp [is, ht]

theorem gives_parseUnary_guard {condition : Expr} (ht : t.condition = some condition) :
    Gives (parseUnary (t :: ts) stop) p rest ↔ p = .guard condition t.span ∧ rest = ts := by
  rw [parseUnary, if_neg (by simp [is_eq_false_of_condition ht])]
  simp only [ht, gives_ok]

theorem gives_parseUnary_parens (ht : t.is "(" = true) :
    Gives (parseUnary (t :: ts) stop) p rest ↔
      ∃ closing, Gives (parseOr ts stop) p (closing :: rest) ∧ closing.is ")" = true := by
  have hcondition : t.condition = none := (is_eq_true_iff.mp ht).1
  have hnot : t.is "!" = false := not_is_of_is ht (by decide)
  rw [parseUnary, if_neg (by simp [hnot])]
  simp only [hcondition, if_pos ht]
  constructor
  · intro h
    split at h
    · exact absurd h not_gives_error
    · rename_i inner mid hmid hor
      split at h
      · exact absurd h not_gives_error
      · rename_i closing us hus hexpect
        obtain ⟨rfl, rfl⟩ := gives_ok.mp h
        obtain ⟨rfl, hclosing⟩ := gives_expect.mp ⟨hus, hexpect⟩
        exact ⟨closing, ⟨hmid, hor⟩, hclosing⟩
  · rintro ⟨closing, ⟨hmid, hor⟩, hclosing⟩
    obtain ⟨hrest, hexpect⟩ : Gives (expect ")" stop (closing :: rest)) closing rest :=
      gives_expect.mpr ⟨rfl, hclosing⟩
    simp only [hor, hexpect]
    exact gives_ok.mpr ⟨rfl, rfl⟩

theorem admitName_eq_ok_iff {name found : String} {foundSpan : Span} {n : Nat} {us : Tail n}
    {h : rest.length ≤ n} :
    admitName t name span us = .ok (found, foundSpan, ⟨rest, h⟩) ↔
      (t.isIdentifier = true ∨ name ∈ kindedDesignators) ∧ found = name ∧ foundSpan = span ∧
        rest = us.1 := by
  have hrejects : (!t.isIdentifier && !kindedDesignators.contains name) = true ↔
      ¬ (t.isIdentifier = true ∨ name ∈ kindedDesignators) := by simp
  unfold admitName
  split
  · rename_i hrejected
    exact iff_of_false nofun fun h => hrejects.mp hrejected h.1
  · rename_i hadmitted
    have hadmits := Decidable.not_not.mp (mt hrejects.mpr hadmitted)
    constructor
    · intro heq
      cases heq
      exact ⟨hadmits, rfl, rfl, rfl⟩
    · rintro ⟨-, rfl, rfl, rfl⟩
      rfl

/-- The reader of names reads a name at the front. -/
theorem readName_eq_ok_iff {name : String} (hcondition : t.condition = none)
    (hnot : t.is "!" = false) (hopen : t.is "(" = false) :
    (∃ h, readName t ts = .ok (name, span, ⟨rest, h⟩)) ↔
      ∃ names, t :: ts = names ++ rest ∧ ReadsName names name span := by
  have hsign : isReserved t = t.is "@" := by
    have hne : t.value ≠ "!" := by simpa [is, hcondition] using hnot
    have hne' : t.value ≠ "(" := by simpa [is, hcondition] using hopen
    simp [isReserved, is, hcondition, hne, hne']
    rfl
  unfold readName
  constructor
  · rintro ⟨h, heq⟩
    split at heq
    · rename_i hat
      split at heq
      · split at heq
        · rename_i next us hnext
          obtain ⟨hadmits, rfl, rfl, rfl⟩ := admitName_eq_ok_iff.mp heq
          exact ⟨[t, next], rfl, .atWord hat hnext hadmits⟩
        · cases heq
      · cases heq
    · rename_i hword
      obtain ⟨hadmits, rfl, rfl, rfl⟩ := admitName_eq_ok_iff.mp heq
      exact ⟨[t], rfl, .word (by simpa [hsign] using hword) hadmits⟩
  · rintro ⟨names, hnames, hread⟩
    cases hread with
    | word hreserved hadmits =>
        cases hnames
        refine ⟨Nat.le_refl _, ?_⟩
        rw [← hsign, hreserved]
        exact admitName_eq_ok_iff.mpr ⟨hadmits, rfl, rfl, rfl⟩
    | @atWord sign next hat hnext hadmits =>
        obtain ⟨rfl, rfl⟩ : t = sign ∧ ts = next :: rest := by simpa using hnames
        refine ⟨Nat.le_succ _, ?_⟩
        simp only [hat, hnext, if_true]
        exact admitName_eq_ok_iff.mpr ⟨hadmits, rfl, rfl, rfl⟩

/-- The reader of parentheses takes what matches. -/
theorem readParens_eq_ok_iff {start : Span} :
    (∃ h h', readParens start stop ts = .ok (⟨inner, h⟩, span, ⟨rest, h'⟩)) ↔
      ∃ opening closing, ts = opening :: inner ++ closing :: rest ∧ opening.is "(" = true ∧
        Balanced inner ∧ closing.is ")" = true ∧ span = start.merge closing.span := by
  unfold readParens
  constructor
  · rintro ⟨h, h', heq⟩
    split at heq
    · cases heq
    · rename_i opening body hbody hexpect
      obtain ⟨rfl, hopening⟩ := gives_expect.mp ⟨hbody, hexpect⟩
      split at heq
      · cases heq
      · rename_i found closing left hbalanced
        cases heq
        obtain ⟨rfl, hclosing, hinner⟩ := balanced?_eq_some_iff.mp hbalanced
        exact ⟨opening, closing, rfl, hopening, hinner, hclosing, rfl⟩
  · rintro ⟨opening, closing, rfl, hopening, hinner, hclosing, rfl⟩
    have hbalanced : balanced? 0 (inner ++ closing :: rest) = some (inner, closing, rest) :=
      balanced?_eq_some_iff.mpr ⟨rfl, hclosing, hinner⟩
    have hlength := length_of_balanced? hbalanced
    obtain ⟨hbody, hexpect⟩ : Gives (expect "(" stop (opening :: inner ++ closing :: rest)) opening
        (inner ++ closing :: rest) := gives_expect.mpr ⟨rfl, hopening⟩
    refine ⟨by simp only [List.length_append, List.length_cons]; omega,
      by simp only [List.length_append, List.length_cons]; omega, ?_⟩
    simp only [hexpect]
    split
    · rename_i hnone
      rw [hbalanced] at hnone
      cases hnone
    · rename_i hsome
      rw [hbalanced] at hsome
      cases hsome
      rfl

/-- What a designator with tokens in its parentheses stands for. -/
def Means (name : String) (inner : List PseudoToken) (span : Span) (p : Pointcut) : Prop :=
  (∃ below q, name = controlFlowWord below ∧ parse inner span = .ok q ∧ p = .cflow below q span) ∨
    (∀ below, name ≠ controlFlowWord below) ∧ p = ofName name inner span

theorem controlFlowWord_iff {name : String} :
    (name == "cflow" || name == "cflowbelow") = true ↔ ∃ below, name = controlFlowWord below := by
  simp [controlFlowWord]

theorem below_of_controlFlowWord (below : Bool) :
    (controlFlowWord below == "cflowbelow") = below := by
  cases below <;> decide

theorem gives_parseUnary_name (hcondition : t.condition = none) (hnot : t.is "!" = false)
    (hopen : t.is "(" = false) :
    Gives (parseUnary (t :: ts) stop) p rest ↔
      ∃ name nameSpan mid inner span, (∃ h, readName t ts = .ok (name, nameSpan, ⟨mid, h⟩)) ∧
        (∃ h h', readParens nameSpan stop mid = .ok (⟨inner, h⟩, span, ⟨rest, h'⟩)) ∧
          Means name inner span p := by
  rw [parseUnary, if_neg (by simp [hnot])]
  simp only [hcondition, if_neg (show ¬ t.is "(" = true by simp [hopen])]
  constructor
  · intro h
    split at h
    · exact absurd h not_gives_error
    · rename_i name nameSpan mid hmid hname
      split at h
      · exact absurd h not_gives_error
      · rename_i inner hinner span us hus hparens
        split at h
        · rename_i hword
          obtain ⟨below, rfl⟩ := controlFlowWord_iff.mp hword
          split at h
          · exact absurd h not_gives_error
          · rename_i q hq
            obtain ⟨rfl, rfl⟩ := gives_ok.mp h
            refine ⟨_, nameSpan, mid, inner, span, ⟨hmid, hname⟩, ⟨hinner, hus, hparens⟩,
              .inl ⟨below, q, rfl, hq, ?_⟩⟩
            rw [below_of_controlFlowWord]
        · rename_i hword
          have hother : ∀ below, name ≠ controlFlowWord below :=
            fun below heq => hword (controlFlowWord_iff.mpr ⟨below, heq⟩)
          have hp : p = ofName name inner span ∧ rest = us := by
            unfold ofName
            split at h <;> rename_i hkinded <;> obtain ⟨rfl, rfl⟩ := gives_ok.mp h <;>
              simp_all
          obtain ⟨rfl, rfl⟩ := hp
          exact ⟨name, nameSpan, mid, inner, span, ⟨hmid, hname⟩, ⟨hinner, hus, hparens⟩,
            .inr ⟨hother, rfl⟩⟩
  · rintro ⟨name, nameSpan, mid, inner, span, ⟨hmid, hname⟩, ⟨hinner, hrest, hparens⟩, hmeans⟩
    simp only [hname, hparens]
    rcases hmeans with ⟨below, q, rfl, hq, rfl⟩ | ⟨hother, rfl⟩
    · rw [if_pos (controlFlowWord_iff.mpr ⟨below, rfl⟩), hq, below_of_controlFlowWord]
      exact gives_ok.mpr ⟨rfl, rfl⟩
    · rw [if_neg fun hword => (controlFlowWord_iff.mp hword).elim hother]
      unfold ofName
      split <;> rename_i hkinded <;> simp only [List.contains_eq_mem, decide_eq_true_eq] at hkinded
        <;> simp only [hkinded, if_true, if_false] <;> exact gives_ok.mpr ⟨rfl, rfl⟩

theorem parse_eq_ok_iff : parse ts stop = .ok p ↔ Gives (parseOr ts stop) p [] := by
  rw [parse.eq_def]
  cases ts with
  | nil =>
      refine iff_of_false nofun fun h => ?_
      obtain ⟨left, mid, hand, -⟩ := gives_parseOr.mp h
      obtain ⟨left, mid, hunary, -⟩ := gives_parseAnd.mp hand
      exact not_gives_parseUnary_nil hunary
  | cons t ts =>
      dsimp only
      constructor
      · intro h
        split at h
        · cases h
        · rename_i q hq hor
          cases h
          exact ⟨hq, hor⟩
        · cases h
      · rintro ⟨h, hor⟩
        simp only [hor]

end Readers

/-! ### What is read is derived -/

-- The recursion is that of the readers.  A loop gets what was derived in front of it.
mutual

theorem derives_of_parse (ts : List PseudoToken) (stop : Span) {p : Pointcut}
    (h : parse ts stop = .ok p) : Derives ReadsName .or ts p := by
  obtain ⟨read, rfl, hp⟩ := derives_of_parseOr ts stop (parse_eq_ok_iff.mp h)
  rwa [List.append_nil]
termination_by (ts.length, 3)

theorem derives_of_parseOr (ts : List PseudoToken) (stop : Span) {p : Pointcut}
    {rest : List PseudoToken} (h : Gives (parseOr ts stop) p rest) :
    ∃ read, ts = read ++ rest ∧ Derives ReadsName .or read p := by
  obtain ⟨left, mid, hand, hors⟩ := gives_parseOr.mp h
  have hmid : mid.length < ts.length := hand.1
  obtain ⟨read, hread, hleft⟩ := derives_of_parseAnd ts stop hand
  obtain ⟨more, rfl, hp⟩ := derives_of_parseOrs left mid stop hors (.conjunction hleft)
  exact ⟨read ++ more, by rw [hread, List.append_assoc], hp⟩
termination_by (ts.length, 2)

theorem derives_of_parseOrs (left : Pointcut) (ts : List PseudoToken) (stop : Span) {p : Pointcut}
    {before rest : List PseudoToken} (h : Gives (parseOrs left ts stop) p rest)
    (hleft : Derives ReadsName .or before left) :
    ∃ read, ts = read ++ rest ∧ Derives ReadsName .or (before ++ read) p := by
  rcases hlist : ts with _ | ⟨t, us⟩
  · rw [hlist] at h
    obtain ⟨rfl, rfl⟩ := gives_parseOrs_nil.mp h
    exact ⟨[], rfl, by rwa [List.append_nil]⟩
  · rw [hlist] at h
    have hus : us.length < ts.length := by
      rw [hlist]
      exact Nat.lt_succ_self _
    cases ht : t.is "||" with
    | false =>
        obtain ⟨rfl, rfl⟩ := (gives_parseOrs_stop ht).mp h
        exact ⟨[], rfl, by rwa [List.append_nil]⟩
    | true =>
        obtain ⟨right, mid, hand, hors⟩ := (gives_parseOrs_more ht).mp h
        have hmid : mid.length < us.length := hand.1
        obtain ⟨read, hread, hright⟩ := derives_of_parseAnd us stop hand
        obtain ⟨more, rfl, hp⟩ :=
          derives_of_parseOrs (.or left right) mid stop hors (.alternative hleft ht hright)
        exact ⟨t :: read ++ more, by simp [hread], by simpa using hp⟩
termination_by (ts.length, 2)

theorem derives_of_parseAnd (ts : List PseudoToken) (stop : Span) {p : Pointcut}
    {rest : List PseudoToken} (h : Gives (parseAnd ts stop) p rest) :
    ∃ read, ts = read ++ rest ∧ Derives ReadsName .and read p := by
  obtain ⟨left, mid, hunary, hands⟩ := gives_parseAnd.mp h
  have hmid : mid.length < ts.length := hunary.1
  obtain ⟨read, hread, hleft⟩ := derives_of_parseUnary ts stop hunary
  obtain ⟨more, rfl, hp⟩ := derives_of_parseAnds left mid stop hands (.conjunct hleft)
  exact ⟨read ++ more, by rw [hread, List.append_assoc], hp⟩
termination_by (ts.length, 1)

theorem derives_of_parseAnds (left : Pointcut) (ts : List PseudoToken) (stop : Span) {p : Pointcut}
    {before rest : List PseudoToken} (h : Gives (parseAnds left ts stop) p rest)
    (hleft : Derives ReadsName .and before left) :
    ∃ read, ts = read ++ rest ∧ Derives ReadsName .and (before ++ read) p := by
  rcases hlist : ts with _ | ⟨t, us⟩
  · rw [hlist] at h
    obtain ⟨rfl, rfl⟩ := gives_parseAnds_nil.mp h
    exact ⟨[], rfl, by rwa [List.append_nil]⟩
  · rw [hlist] at h
    have hus : us.length < ts.length := by
      rw [hlist]
      exact Nat.lt_succ_self _
    cases ht : t.is "&&" with
    | false =>
        obtain ⟨rfl, rfl⟩ := (gives_parseAnds_stop ht).mp h
        exact ⟨[], rfl, by rwa [List.append_nil]⟩
    | true =>
        obtain ⟨right, mid, hunary, hands⟩ := (gives_parseAnds_more ht).mp h
        have hmid : mid.length < us.length := hunary.1
        obtain ⟨read, hread, hright⟩ := derives_of_parseUnary us stop hunary
        obtain ⟨more, rfl, hp⟩ :=
          derives_of_parseAnds (.and left right) mid stop hands (.both hleft ht hright)
        exact ⟨t :: read ++ more, by simp [hread], by simpa using hp⟩
termination_by (ts.length, 1)

theorem derives_of_parseUnary (ts : List PseudoToken) (stop : Span) {p : Pointcut}
    {rest : List PseudoToken} (h : Gives (parseUnary ts stop) p rest) :
    ∃ read, ts = read ++ rest ∧ Derives ReadsName .unary read p := by
  rcases hlist : ts with _ | ⟨t, us⟩
  · rw [hlist] at h
    exact absurd h not_gives_parseUnary_nil
  · rw [hlist] at h
    have hus : us.length < ts.length := by
      rw [hlist]
      exact Nat.lt_succ_self _
    by_cases hnot : t.is "!" = true
    · obtain ⟨inner, hunary, rfl⟩ := (gives_parseUnary_not hnot).mp h
      obtain ⟨read, rfl, hinner⟩ := derives_of_parseUnary us stop hunary
      exact ⟨t :: read, rfl, .negation hnot hinner⟩
    cases hcondition : t.condition with
    | some condition =>
        obtain ⟨rfl, rfl⟩ := (gives_parseUnary_guard hcondition).mp h
        exact ⟨[t], rfl, .primary (.guard hcondition)⟩
    | none =>
        by_cases hopen : t.is "(" = true
        · obtain ⟨closing, hor, hclosing⟩ := (gives_parseUnary_parens hopen).mp h
          obtain ⟨read, rfl, hp⟩ := derives_of_parseOr us stop hor
          exact ⟨t :: read ++ [closing], by simp, .primary (.parens hopen hp hclosing)⟩
        · obtain ⟨name, nameSpan, mid, inner, span, hname, hparens, hmeans⟩ :=
            (gives_parseUnary_name hcondition (by simpa using hnot) (by simpa using hopen)).mp h
          obtain ⟨names, hnames, hreads⟩ :=
            (readName_eq_ok_iff hcondition (by simpa using hnot) (by simpa using hopen)).mp hname
          obtain ⟨opening, closing, rfl, hopening, hinner, hclosing, rfl⟩ :=
            readParens_eq_ok_iff.mp hparens
          refine ⟨names ++ opening :: inner ++ [closing], by simp [hnames], ?_⟩
          rcases hmeans with ⟨below, q, rfl, hq, rfl⟩ | ⟨hother, rfl⟩
          · have hshorter : inner.length < ts.length := by
              have := congrArg List.length (hlist.trans hnames)
              simp at this
              omega
            exact .primary (.controlFlow below hreads hopening hinner (derives_of_parse inner _ hq) hclosing)
          · exact .primary (.designator hreads hother hopening hinner hclosing)
termination_by (ts.length, 0)

end

/-! ### What is derived is read -/

section Complete

/-- How the readers take a run that a nonterminal derives, whatever follows it.  The loops go on
behind it with its pointcut on their left. -/
def Readable (p : Pointcut) (ts : List PseudoToken) : Level → Prop
  | .or => ∀ stop rest q after, (∀ t ∈ rest.head?, t.is "&&" = false) →
      Gives (parseOrs p rest stop) q after → Gives (parseOr (ts ++ rest) stop) q after
  | .and => ∀ stop rest q after,
      Gives (parseAnds p rest stop) q after → Gives (parseAnd (ts ++ rest) stop) q after
  | .unary | .primary => ∀ stop rest, Gives (parseUnary (ts ++ rest) stop) p rest

variable {p q : Pointcut} {t : PseudoToken} {ts rest : List PseudoToken} {stop : Span}

theorem gives_parseAnds_self (hrest : ∀ t ∈ rest.head?, t.is "&&" = false) :
    Gives (parseAnds p rest stop) p rest := by
  cases rest with
  | nil => exact gives_parseAnds_nil.mpr ⟨rfl, rfl⟩
  | cons t rest => exact (gives_parseAnds_stop (hrest t rfl)).mpr ⟨rfl, rfl⟩

/-- Up to the end, or to a closing parenthesis. -/
theorem Readable.parseOr_closing (h : Readable p ts .or)
    (hrest : ∀ t ∈ rest.head?, t.is ")" = true) : Gives (parseOr (ts ++ rest) stop) p rest := by
  refine h stop rest p rest (fun t ht => not_is_of_is (hrest t ht) (by decide)) ?_
  cases rest with
  | nil => exact gives_parseOrs_nil.mpr ⟨rfl, rfl⟩
  | cons t rest =>
      exact (gives_parseOrs_stop (not_is_of_is (hrest t rfl) (by decide))).mpr ⟨rfl, rfl⟩

theorem Readable.parse (h : Readable p ts .or) : parse ts stop = .ok p := by
  have hor : Gives (parseOr (ts ++ []) stop) p [] := h.parseOr_closing nofun
  rwa [List.append_nil, ← parse_eq_ok_iff] at hor

theorem gives_parseUnary_designator {names inner : List PseudoToken} {name : String}
    {opening closing : PseudoToken} {span : Span} (hname : ReadsName names name span)
    (hopening : opening.is "(" = true) (hinner : Balanced inner) (hclosing : closing.is ")" = true)
    (hmeans : Means name inner (span.merge closing.span) p) :
    Gives (parseUnary (names ++ opening :: inner ++ [closing] ++ rest) stop) p rest := by
  have hparens : ∃ h h', readParens span stop (opening :: inner ++ closing :: rest) =
      .ok (⟨inner, h⟩, span.merge closing.span, ⟨rest, h'⟩) :=
    readParens_eq_ok_iff.mpr ⟨opening, closing, rfl, hopening, hinner, hclosing, rfl⟩
  obtain ⟨t, us, hlist, hcondition, hnot, hopen⟩ : ∃ t us,
      t :: us = names ++ (opening :: inner ++ closing :: rest) ∧ t.condition = none ∧
        t.is "!" = false ∧ t.is "(" = false := by
    cases hname with
    | word hreserved =>
        simp only [isReserved, List.contains_eq_mem, List.mem_cons, List.not_mem_nil, or_false,
          Bool.or_eq_false_iff, Option.isSome_eq_false_iff, Option.isNone_iff_eq_none,
          decide_eq_false_iff_not, not_or] at hreserved
        exact ⟨_, _, rfl, hreserved.1, by simp [is, hreserved], by simp [is, hreserved]⟩
    | atWord hat =>
        exact ⟨_, _, rfl, (is_eq_true_iff.mp hat).1, not_is_of_is hat (by decide),
          not_is_of_is hat (by decide)⟩
  have hread := (readName_eq_ok_iff hcondition hnot hopen).mpr ⟨names, hlist, hname⟩
  have hrun : names ++ opening :: inner ++ [closing] ++ rest = t :: us := by simp [hlist]
  rw [hrun]
  exact (gives_parseUnary_name hcondition hnot hopen).mpr
    ⟨name, span, _, inner, _, hread, hparens, hmeans⟩

theorem Derives.readable {level : Level} (h : Derives ReadsName level ts p) :
    Readable p ts level := by
  induction h with
  | conjunction _ ih =>
      intro stop rest q after hrest hors
      exact gives_parseOr.mpr ⟨_, rest, ih stop rest _ rest (gives_parseAnds_self hrest), hors⟩
  | @alternative ts us t p q _ ht _ ihleft ihright =>
      intro stop rest r after hrest hors
      rw [List.append_assoc, List.cons_append]
      refine ihleft stop _ r after ?_ ((gives_parseOrs_more ht).mpr
        ⟨q, rest, ihright stop rest _ rest (gives_parseAnds_self hrest), hors⟩)
      rintro _ ⟨⟩
      exact not_is_of_is ht (by decide)
  | conjunct _ ih =>
      intro stop rest q after hands
      exact gives_parseAnd.mpr ⟨_, rest, ih stop rest, hands⟩
  | @both ts us t p q _ ht _ ihleft ihright =>
      intro stop rest r after hands
      rw [List.append_assoc, List.cons_append]
      exact ihleft stop _ r after ((gives_parseAnds_more ht).mpr ⟨q, rest, ihright stop rest, hands⟩)
  | negation ht _ ih =>
      intro stop rest
      exact (gives_parseUnary_not ht).mpr ⟨_, ih stop rest, rfl⟩
  | primary _ ih => exact ih
  | @parens opening closing ts p hopening _ hclosing ih =>
      intro stop rest
      rw [List.append_assoc, List.cons_append]
      refine (gives_parseUnary_parens hopening).mpr ⟨closing, ih.parseOr_closing ?_, hclosing⟩
      rintro _ ⟨⟩
      exact hclosing
  | guard ht =>
      intro stop rest
      exact (gives_parseUnary_guard ht).mpr ⟨rfl, rfl⟩
  | controlFlow below hname hopening hinner _ hclosing ih =>
      intro stop rest
      exact gives_parseUnary_designator hname hopening hinner hclosing
        (.inl ⟨below, _, rfl, ih.parse, rfl⟩)
  | designator hname hother hopening hinner hclosing =>
      intro stop rest
      exact gives_parseUnary_designator hname hopening hinner hclosing (.inr ⟨hother, rfl⟩)

end Complete

/-- **Reading and the grammar agree.**  A run is read as a pointcut exactly when the grammar derives
this pointcut from it, and the grammar derives one at the most. -/
theorem parse_iff_derives (ts : List PseudoToken) :
    (∀ stop p, parse ts stop = .ok p ↔ Derives ReadsName .or ts p) ∧
      ∀ p q, Derives ReadsName .or ts p → Derives ReadsName .or ts q → p = q := by
  have hiff : ∀ stop p, parse ts stop = .ok p ↔ Derives ReadsName .or ts p :=
    fun stop p => ⟨derives_of_parse ts stop, fun h => Readable.parse h.readable⟩
  refine ⟨hiff, fun p q hp hq => ?_⟩
  have hok := (hiff ⟨0, 0⟩ p).mpr hp
  rw [(hiff ⟨0, 0⟩ q).mpr hq] at hok
  exact (Except.ok.inj hok).symm

/-! ### Names as they are written -/

section Names

variable {named named' : Naming} {marked : PseudoToken → Prop} {level : Level}
  {ts : List PseudoToken} {p : Pointcut}

/-- A derivation only uses the names that stand in its run. -/
theorem Derives.rename (h : Derives named level ts p)
    (hnamed : ∀ names name span, (∀ t ∈ names, marked t) → named names name span →
      named' names name span) (hmarked : ∀ t ∈ ts, marked t) : Derives named' level ts p := by
  induction h with
  | conjunction _ ih => exact .conjunction (ih hmarked)
  | alternative _ ht _ ihleft ihright =>
      exact .alternative (ihleft fun t h => hmarked t (by simp [h])) ht
        (ihright fun t h => hmarked t (by simp [h]))
  | conjunct _ ih => exact .conjunct (ih hmarked)
  | both _ ht _ ihleft ihright =>
      exact .both (ihleft fun t h => hmarked t (by simp [h])) ht
        (ihright fun t h => hmarked t (by simp [h]))
  | negation ht _ ih => exact .negation ht (ih fun t h => hmarked t (by simp [h]))
  | primary _ ih => exact .primary (ih hmarked)
  | parens hopening _ hclosing ih =>
      exact .parens hopening (ih fun t h => hmarked t (by simp [h])) hclosing
  | guard ht => exact .guard ht
  | controlFlow below hname hopening hinner _ hclosing ih =>
      exact .controlFlow below (hnamed _ _ _ (fun t h => hmarked t (by simp [h])) hname) hopening
        hinner (ih fun t h => hmarked t (by simp [h])) hclosing
  | designator hname hother hopening hinner hclosing =>
      exact .designator (hnamed _ _ _ (fun t h => hmarked t (by simp [h])) hname) hother hopening
        hinner hclosing

theorem isReserved_of_mem_kindedDesignators {t : PseudoToken} (hcondition : t.condition = none)
    (hkinded : t.value ∈ kindedDesignators) : isReserved t = false := by
  have hsigns : ∀ word ∈ kindedDesignators, ["!", "(", "@"].contains word = false := by decide
  rw [isReserved, hcondition, hsigns _ hkinded]
  rfl

/-- Where no guard and no sign is marked as an identifier, names are read as they are written. -/
theorem derives_reads_iff_named (hmarked : ∀ t ∈ ts, t.isIdentifier = true → isReserved t = false) :
    Derives ReadsName level ts p ↔ Derives Named level ts p := by
  constructor
  · refine fun h => h.rename (fun names name span hplain hname => ?_) hmarked
    cases hname with
    | @word t hreserved hadmits =>
        rcases hadmits with hidentifier | hkinded
        · exact .identifier hidentifier
        · refine .designator ?_ hkinded
          simp only [isReserved, Bool.or_eq_false_iff] at hreserved
          simpa using hreserved.1
    | @atWord sign next hat hnext hadmits =>
        refine .atWord hat hnext (hadmits.resolve_left fun hidentifier => ?_)
        have hreserved := hplain sign (by simp) hidentifier
        rw [isReserved, (is_eq_true_iff.mp hat).2] at hreserved
        simp at hreserved
  · refine fun h => h.rename (fun names name span hplain hname => ?_) hmarked
    cases hname with
    | @identifier t hidentifier =>
        exact .word (hplain t (by simp) hidentifier) (.inl hidentifier)
    | @designator t hcondition hkinded =>
        exact .word (isReserved_of_mem_kindedDesignators hcondition hkinded) (.inr hkinded)
    | @atWord sign next hat hnext hkinded => exact .atWord hat hnext (.inr hkinded)

/-- An exclamation mark that is marked as an identifier could be a name, and is read as a sign. -/
theorem marked_sign_misread :
    ¬ ∀ ts stop p, parse ts stop = .ok p ↔ Derives Named .or ts p := by
  intro hall
  have hname : Named [⟨"!", true, ⟨0, 0⟩, none, none⟩] "!" ⟨0, 0⟩ := .identifier rfl
  have hderives : Derives Named .primary
      ([⟨"!", true, ⟨0, 0⟩, none, none⟩] ++ ⟨"(", false, ⟨1, 1⟩, none, none⟩ :: [] ++
        [⟨")", false, ⟨2, 2⟩, none, none⟩]) (ofName "!" [] ⟨0, 2⟩) :=
    .designator hname (by decide) rfl .nil rfl
  have hread := (hall _ ⟨3, 3⟩ _).mpr (.conjunction (.conjunct (.primary hderives)))
  -- Behind the sign and the opening parenthesis a pointcut is missing.
  simp [parse, parseOr, parseAnd, parseUnary, is, readName, admitName, kindedDesignators] at hread

end Names

end Pointcut

end AspectLang
