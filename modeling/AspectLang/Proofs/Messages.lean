import AspectLang.Problem
import Mathlib.Data.List.Infix

/-! # What messages quote

A message is meant to show the texts that it quotes as they are: in `Diagnostic.verbatim` both marks
of the template are filled at once, so nothing that a text contains is taken for a mark.
`Diagnostic.message` fills the second mark after the first, and therefore also in the text that took
the place of the first one (`Diagnostic.message_eq`).  The two differ just when the first text is
shown, holds the second mark and is changed by filling it (`message_verbatim_iff`).

No mark can come about from the end of a quoted text and what the template has behind it, so the text
is filled as it would be on its own (`fillFrom_append`). -/

namespace AspectLang

/-- A mark of a template. -/
def markOf (name : Char) : List Char := ['\x7b', name, '\x7d']

/-- Puts `first` for every mark `0` and `further` for every mark `1`, from left to right, after passing
over the first `skip` characters.  What is put in is not looked at again. -/
def fillMarks (first further : List Char) : Nat → List Char → List Char
  | _, [] => []
  | skip + 1, _ :: cs => fillMarks first further skip cs
  | 0, c :: cs =>
    if (markOf '0').isPrefixOf (c :: cs) then first ++ fillMarks first further 2 cs
    else if (markOf '1').isPrefixOf (c :: cs) then further ++ fillMarks first further 2 cs
    else c :: fillMarks first further 0 cs

namespace Diagnostic

variable (d : Diagnostic)

/-- The first text that a message quotes. -/
def firstArgument : String := d.arguments.headD ""

/-- The message with both marks filled at once. -/
def verbatim : String :=
  String.ofList (fillMarks d.firstArgument.toList d.furtherArguments.toList 0 d.id.template.toList)

/-- What the message shows in place of the first text: the text with the second mark filled. -/
def shownFirst : List Char :=
  fillFrom (markOf '1') d.furtherArguments.toList 0 d.firstArgument.toList

end Diagnostic

/-! ### Filling one mark -/

section

variable {mark value cs u rest : List Char} {skip : Nat} {c : Char}

theorem fillFrom_marked (h : mark <+: c :: cs) :
    fillFrom mark value 0 (c :: cs) = value ++ fillFrom mark value (mark.length - 1) cs := by
  rw [fillFrom, if_pos (List.isPrefixOf_iff_prefix.mpr h)]

theorem fillFrom_unmarked (h : ¬ mark <+: c :: cs) :
    fillFrom mark value 0 (c :: cs) = c :: fillFrom mark value 0 cs := by
  rw [fillFrom, if_neg (mt List.isPrefixOf_iff_prefix.mp h)]

/-- A text without the mark is left as it is. -/
theorem fillFrom_eq_self (h : ¬ mark <:+: cs) : fillFrom mark value 0 cs = cs := by
  induction cs with
  | nil => rfl
  | cons c cs ih =>
      have hcs : ¬ mark <:+: cs := fun hin => h (hin.trans (List.suffix_cons c cs).isInfix)
      rw [fillFrom_unmarked fun hprefix => h hprefix.isInfix, ih hcs]

/-- A mark reaches into what stands behind a text only if that begins with a later character of
it. -/
theorem prefix_append_iff (hu : u ≠ []) (hrest : ∀ d ∈ rest.head?, d ∉ mark.tail) :
    mark <+: u ++ rest ↔ mark <+: u := by
  refine ⟨fun h => ?_, fun h => h.trans (List.prefix_append u rest)⟩
  rcases List.prefix_or_prefix_of_prefix h (List.prefix_append u rest) with hmark | ⟨beyond, rfl⟩
  · exact hmark
  · cases beyond with
    | nil => rw [List.append_nil]
    | cons d beyond =>
        obtain ⟨after, hafter⟩ := (List.prefix_append_right_inj u).mp h
        obtain ⟨a, u, rfl⟩ := List.exists_cons_of_ne_nil hu
        rw [← hafter] at hrest
        refine absurd ?_ (hrest d rfl)
        simp

/-- A text is filled on its own if no mark reaches from it into what stands behind it. -/
theorem fillFrom_append (hrest : ∀ d ∈ rest.head?, d ∉ mark.tail) (hskip : skip ≤ u.length) :
    fillFrom mark value skip (u ++ rest) =
      fillFrom mark value skip u ++ fillFrom mark value 0 rest := by
  induction u generalizing skip with
  | nil =>
      obtain rfl := Nat.le_zero.mp hskip
      rfl
  | cons c u ih =>
      cases skip with
      | succ skip => exact ih (Nat.le_of_succ_le_succ hskip)
      | zero =>
          have hsame : mark <+: c :: (u ++ rest) ↔ mark <+: c :: u :=
            prefix_append_iff (List.cons_ne_nil c u) hrest
          by_cases hprefix : mark <+: c :: u
          · have hlength := hprefix.length_le
            rw [List.length_cons] at hlength
            rw [List.cons_append, fillFrom_marked (hsame.mpr hprefix),
              fillFrom_marked hprefix, ih (by omega), List.append_assoc]
          · rw [List.cons_append, fillFrom_unmarked (mt hsame.mp hprefix),
              fillFrom_unmarked hprefix, ih (Nat.zero_le _), List.cons_append]

/-- How the length changes when some number of marks is filled. -/
theorem exists_length_fillFrom (hmark : mark ≠ []) (hskip : skip ≤ cs.length) :
    ∃ n, (fillFrom mark value skip cs).length + skip + n * mark.length =
      cs.length + n * value.length := by
  induction cs generalizing skip with
  | nil =>
      obtain rfl := Nat.le_zero.mp hskip
      exact ⟨0, by simp [fillFrom]⟩
  | cons c cs ih =>
      have hpos := List.length_pos_of_ne_nil hmark
      cases skip with
      | succ skip =>
          obtain ⟨n, hn⟩ := ih (Nat.le_of_succ_le_succ hskip)
          refine ⟨n, ?_⟩
          rw [fillFrom, List.length_cons]
          omega
      | zero =>
          by_cases hprefix : mark <+: c :: cs
          · have hlength := hprefix.length_le
            rw [List.length_cons] at hlength
            obtain ⟨n, hn⟩ := @ih (mark.length - 1) (by omega)
            refine ⟨n + 1, ?_⟩
            rw [fillFrom_marked hprefix, List.length_append, List.length_cons, Nat.succ_mul,
              Nat.succ_mul]
            omega
          · obtain ⟨n, hn⟩ := @ih 0 (Nat.zero_le _)
            refine ⟨n, ?_⟩
            rw [fillFrom_unmarked hprefix, List.length_cons, List.length_cons]
            omega

/-- Filling a mark that a text holds changes the text, unless the mark itself is put in. -/
theorem eq_mark_of_fillFrom_eq_self (hmark : mark ≠ []) (h : fillFrom mark value 0 cs = cs)
    (hin : mark <:+: cs) : value = mark := by
  induction cs with
  | nil => exact absurd (List.infix_nil.mp hin) hmark
  | cons c cs ih =>
      by_cases hprefix : mark <+: c :: cs
      · obtain ⟨after, hafter⟩ := hprefix
        have hpos := List.length_pos_of_ne_nil hmark
        have hlength := congrArg List.length hafter
        rw [List.length_append, List.length_cons] at hlength
        have hskip : mark.length - 1 ≤ cs.length := by omega
        obtain ⟨n, hn⟩ := @exists_length_fillFrom mark value cs _ hmark hskip
        rw [fillFrom_marked ⟨after, hafter⟩] at h
        have htotal := congrArg List.length h
        rw [List.length_append, List.length_cons] at htotal
        have hequal : (n + 1) * value.length = (n + 1) * mark.length := by
          rw [Nat.succ_mul, Nat.succ_mul]
          omega
        exact (List.append_inj (h.trans hafter.symm)
          (Nat.eq_of_mul_eq_mul_left (Nat.succ_pos n) hequal)).1
      · rw [fillFrom_unmarked hprefix] at h
        refine ih (List.cons.inj h).2 ?_
        exact (List.infix_cons_iff.mp hin).resolve_left hprefix

/-- Putting a mark in its own place changes nothing. -/
theorem fillFrom_mark (hmark : mark ≠ []) : fillFrom mark mark skip cs = cs.drop skip := by
  induction cs generalizing skip with
  | nil => rw [fillFrom, List.drop_nil]
  | cons c cs ih =>
      cases skip with
      | succ skip => exact ih
      | zero =>
          by_cases hprefix : mark <+: c :: cs
          · obtain ⟨m, mark, rfl⟩ := List.exists_cons_of_ne_nil hmark
            rw [fillFrom_marked hprefix, ih]
            exact List.prefix_iff_eq_append.mp hprefix
          · rw [fillFrom_unmarked hprefix, ih, List.drop_zero, List.drop_zero]

theorem fillFrom_eq_self_iff (hmark : mark ≠ []) :
    fillFrom mark value 0 cs = cs ↔ ¬ mark <:+: cs ∨ value = mark := by
  constructor
  · intro h
    by_cases hin : mark <:+: cs
    · exact .inr (eq_mark_of_fillFrom_eq_self hmark h hin)
    · exact .inl hin
  · rintro (h | rfl)
    · exact fillFrom_eq_self h
    · exact fillFrom_mark hmark

end

/-! ### Filling both marks -/

section

variable {first further before cs : List Char} {name : Char} {value : List Char}

theorem not_begins_markOf {c : Char} (hc : c ≠ '\x7b') : ¬ markOf name <+: c :: cs := by
  rintro ⟨after, hafter⟩
  exact hc (List.cons.inj hafter).1.symm

/-- Up to the first brace nothing is filled. -/
theorem fillFrom_plain (hplain : '\x7b' ∉ before) :
    fillFrom (markOf name) value 0 (before ++ cs) = before ++ fillFrom (markOf name) value 0 cs := by
  induction before with
  | nil => rfl
  | cons c before ih =>
      obtain ⟨hc, hbefore⟩ := not_or.mp (mt List.mem_cons.mpr hplain)
      rw [List.cons_append, fillFrom_unmarked (not_begins_markOf (Ne.symm hc)), ih hbefore,
        List.cons_append]

theorem fillMarks_plain (hplain : '\x7b' ∉ before) :
    fillMarks first further 0 (before ++ cs) = before ++ fillMarks first further 0 cs := by
  induction before with
  | nil => rfl
  | cons c before ih =>
      obtain ⟨hc, hbefore⟩ := not_or.mp (mt List.mem_cons.mpr hplain)
      have hnone (name : Char) : ¬ (markOf name).isPrefixOf (c :: (before ++ cs)) = true :=
        mt List.isPrefixOf_iff_prefix.mp (not_begins_markOf (Ne.symm hc))
      rw [List.cons_append, fillMarks, if_neg (hnone '0'), if_neg (hnone '1'), ih hbefore,
        List.cons_append]

/-- Without the first mark only the second is filled. -/
theorem fillMarks_eq_fillFrom {skip : Nat} (hnone : ¬ markOf '0' <:+: cs) :
    fillMarks first further skip cs = fillFrom (markOf '1') further skip cs := by
  induction cs generalizing skip with
  | nil => rw [fillMarks, fillFrom]
  | cons c cs ih =>
      have hcs : ¬ markOf '0' <:+: cs := fun hin => hnone (hin.trans (List.suffix_cons c cs).isInfix)
      cases skip with
      | succ skip => exact ih hcs
      | zero =>
          have hzero : ¬ (markOf '0').isPrefixOf (c :: cs) = true :=
            mt List.isPrefixOf_iff_prefix.mp fun hprefix => hnone hprefix.isInfix
          rw [fillMarks, if_neg hzero, fillFrom, ih hcs, ih hcs]
          rfl

end

/-! ### Templates -/

/-- All templates but one have the first mark once.  No brace stands before it, and what stands
behind it completes no mark. -/
theorem ProblemKind.exists_template_eq (k : ProblemKind) (hk : k ≠ .unreachableCode) :
    ∃ before after, k.template.toList = before ++ (markOf '0' ++ after) ∧ '\x7b' ∉ before ∧
      ¬ markOf '0' <:+: after ∧ ∀ c ∈ after.head?, c ∉ (markOf '1').tail := by
  have htemplate :
      k.template.toList = k.template.toList.takeWhile (· ≠ '\x7b') ++
        (markOf '0' ++ (k.template.toList.dropWhile (· ≠ '\x7b')).drop 3) ∧
      '\x7b' ∉ k.template.toList.takeWhile (· ≠ '\x7b') ∧
      ¬ markOf '0' <:+: (k.template.toList.dropWhile (· ≠ '\x7b')).drop 3 ∧
      (((k.template.toList.dropWhile (· ≠ '\x7b')).drop 3).head?.all
        fun c => c ∉ (markOf '1').tail) = true := by
    cases k <;> first
      | exact absurd rfl hk
      | simp only [ProblemKind.template]; rw [String.toList_ofList]; decide
  obtain ⟨heq, hplain, hnone, hhead⟩ := htemplate
  refine ⟨_, _, heq, hplain, hnone, fun c hc => ?_⟩
  rw [Option.mem_def.mp hc] at hhead
  exact of_decide_eq_true hhead

/-- The template without marks is left as it is. -/
theorem ProblemKind.not_mem_template : '\x7b' ∉ ProblemKind.unreachableCode.template.toList := by
  simp only [ProblemKind.template]
  rw [String.toList_ofList]
  decide

namespace Diagnostic

variable (d : Diagnostic)

theorem exists_message_eq (hid : d.id ≠ .unreachableCode) : ∃ before after : List Char,
    d.message.toList = before ++ (d.shownFirst ++ after) ∧
      ∀ first, fillMarks first d.furtherArguments.toList 0 d.id.template.toList =
        before ++ (first ++ after) := by
  obtain ⟨before, after, htemplate, hplain, hnone, hhead⟩ := d.id.exists_template_eq hid
  refine ⟨before, fillFrom (markOf '1') d.furtherArguments.toList 0 after, ?_, fun first => ?_⟩
  · have hfirst : fillMark '0' d.firstArgument.toList d.id.template.toList =
        before ++ (d.firstArgument.toList ++ after) := by
      change fillFrom (markOf '0') _ 0 _ = _
      rw [htemplate, fillFrom_plain hplain]
      change before ++ (d.firstArgument.toList ++ fillFrom (markOf '0') _ 0 after) = _
      rw [fillFrom_eq_self hnone]
    unfold message shownFirst
    rw [String.toList_ofList]
    change fillFrom (markOf '1') _ 0 (fillMark '0' d.firstArgument.toList _) = _
    rw [hfirst, fillFrom_plain hplain, fillFrom_append hhead (Nat.zero_le _)]
  · rw [htemplate, fillMarks_plain hplain]
    change before ++ (first ++ fillMarks _ _ 0 after) = _
    rw [fillMarks_eq_fillFrom hnone]

/-- A message without marks is its template. -/
theorem message_of_unreachable (hid : d.id = .unreachableCode) : d.message = d.id.template ∧
    ∀ first, fillMarks first d.furtherArguments.toList 0 d.id.template.toList =
      d.id.template.toList := by
  have hplain : '\x7b' ∉ d.id.template.toList := hid ▸ ProblemKind.not_mem_template
  have hkept (name : Char) (value : List Char) :
      fillMark name value d.id.template.toList = d.id.template.toList := by
    have hwhole := @fillFrom_plain _ [] name value hplain
    rwa [List.append_nil, fillFrom, List.append_nil] at hwhole
  refine ⟨?_, fun first => ?_⟩
  · unfold message
    dsimp only
    rw [hkept, hkept, String.ofList_toList]
  · have hwhole := @fillMarks_plain first d.furtherArguments.toList _ [] hplain
    rwa [List.append_nil, fillMarks, List.append_nil] at hwhole

/-- The message quotes the first text with the second mark filled in it. -/
theorem message_eq : d.message = String.ofList
    (fillMarks d.shownFirst d.furtherArguments.toList 0 d.id.template.toList) := by
  by_cases hid : d.id = .unreachableCode
  · obtain ⟨hmessage, hkept⟩ := d.message_of_unreachable hid
    rw [hmessage, hkept, String.ofList_toList]
  · obtain ⟨before, after, hmessage, hfilled⟩ := d.exists_message_eq hid
    rw [hfilled, ← hmessage, String.ofList_toList]

theorem message_eq_verbatim_iff : d.message = d.verbatim ↔
    d.id = .unreachableCode ∨ ¬ markOf '1' <:+: d.firstArgument.toList ∨
      d.furtherArguments.toList = markOf '1' := by
  rw [← fillFrom_eq_self_iff (by simp [markOf]), ← String.toList_inj]
  by_cases hid : d.id = .unreachableCode
  · obtain ⟨hmessage, hkept⟩ := d.message_of_unreachable hid
    have hsame : d.message.toList = d.verbatim.toList := by
      rw [verbatim, String.toList_ofList, hkept, hmessage]
    exact ⟨fun _ => .inl hid, fun _ => hsame⟩
  · obtain ⟨before, after, hmessage, hfilled⟩ := d.exists_message_eq hid
    rw [or_iff_right hid, hmessage, verbatim, String.toList_ofList, hfilled,
      List.append_cancel_left_eq, List.append_cancel_right_eq]
    rfl

end Diagnostic

/-- **What messages quote.**  A message is its template with both marks filled at once, except that
the first text is quoted with the second mark filled in it.  So the texts are quoted as they are just
when the message quotes none, the first text does not hold the second mark, or that mark is itself
what it is filled with. -/
theorem message_quotes (d : Diagnostic) :
    d.message = String.ofList
      (fillMarks d.shownFirst d.furtherArguments.toList 0 d.id.template.toList) ∧
    (d.message = d.verbatim ↔
      d.id = .unreachableCode ∨ ¬ markOf '1' <:+: d.firstArgument.toList ∨
        d.furtherArguments.toList = markOf '1') :=
  ⟨d.message_eq, d.message_eq_verbatim_iff⟩

/-- A token that is written like the second mark is not shown in the message about it. -/
theorem mark_not_quoted :
    let d : Diagnostic := .of .parsingError ⟨0, 4⟩ ["\"\x7b1\x7d\"", ";"]
    d.verbatim = "Syntax error on token \"\"\x7b1\x7d\"\", ; expected" ∧
      d.message = "Syntax error on token \"\";\"\", ; expected" := by
  decide

end AspectLang
