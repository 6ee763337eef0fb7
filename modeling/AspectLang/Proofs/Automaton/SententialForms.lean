import AspectLang.Proofs.Automaton.LookaheadBounds
import Mathlib.Logic.Relation

/-! # First sets are exact

A sentential form is a sequence of symbols in which nonterminals are replaced by right sides of
their productions (`Grammar.Derives`).  The computed first sets hold no more than what forms derive,
for what forms derive is a guess that every production stays within; and they hold all of it,
because replacing a nonterminal never adds to closed first sets.  So a run of symbols can vanish
exactly when it derives the empty form, and its set has exactly the terminals that begin a form it
derives (`WellFormed.vanishes_iff`, `WellFormed.has_first_iff`). -/

namespace AspectLang

namespace Grammar

variable {g : Grammar} {α α' β β' : List Symbol} {t : TokenKind}

/-! ### Sentential forms -/

/-- One nonterminal of a form is replaced by the right side of one of its productions. -/
inductive Rewrites (g : Grammar) : List Symbol → List Symbol → Prop
  | inside (before after : List Symbol) {p : Nat} {production : Production} :
      g.productions[p]? = some production →
        Rewrites g (before ++ .nonterminal production.lhs :: after)
          (before ++ production.rhs ++ after)

/-- What replacing nonterminals, any number of times, makes of a form. -/
def Derives (g : Grammar) : List Symbol → List Symbol → Prop := Relation.ReflTransGen g.Rewrites

/-- A form derives one that begins with the terminal. -/
def CanBegin (g : Grammar) (form : List Symbol) (t : TokenKind) : Prop :=
  ∃ rest, g.Derives form (.terminal t :: rest)

theorem Rewrites.within (h : g.Rewrites α β) (before after : List Symbol) :
    g.Rewrites (before ++ α ++ after) (before ++ β ++ after) := by
  obtain ⟨left, right, hp⟩ := h
  simpa using Rewrites.inside (before ++ left) (right ++ after) hp

theorem Derives.within (h : g.Derives α β) (before after : List Symbol) :
    g.Derives (before ++ α ++ after) (before ++ β ++ after) := by
  induction h with
  | refl => exact .refl
  | tail _ hstep ih => exact ih.tail (hstep.within before after)

theorem Derives.append (h : g.Derives α α') (h' : g.Derives β β') :
    g.Derives (α ++ β) (α' ++ β') := by
  have hleft := h.within [] β
  have hright := h'.within α' []
  simp only [List.nil_append, List.append_nil] at hleft hright
  exact hleft.trans hright

theorem derives_rhs {p : Nat} {production : Production}
    (hp : g.productions[p]? = some production) :
    g.Derives [.nonterminal production.lhs] production.rhs := by
  have h := Rewrites.inside (g := g) [] [] hp
  simp only [List.nil_append, List.append_nil] at h
  exact .single h

theorem CanBegin.append (h : g.CanBegin α t) (β : List Symbol) : g.CanBegin (α ++ β) t := by
  obtain ⟨rest, hrest⟩ := h
  exact ⟨rest ++ β, hrest.append .refl⟩

theorem CanBegin.of_derives (h : g.Derives α β) (hβ : g.CanBegin β t) : g.CanBegin α t := by
  obtain ⟨rest, hrest⟩ := hβ
  exact ⟨rest, h.trans hrest⟩

theorem CanBegin.after_empty (h : g.Derives α []) (hβ : g.CanBegin β t) :
    g.CanBegin (α ++ β) t := .of_derives (h.append .refl) hβ

theorem canBegin_terminal (t : TokenKind) (rest : List Symbol) :
    g.CanBegin (.terminal t :: rest) t := ⟨rest, .refl⟩

/-! ### No more than what forms derive -/

open Classical in
/-- What forms derive, as a guess at first sets. -/
noncomputable def derivedBound (g : Grammar) (t : TokenKind) : FirstBound where
  column := t.column
  vanishes id := decide (g.Derives [.nonterminal id] [])
  begins id := decide (g.CanBegin [.nonterminal id] t)

theorem vanishes_derivedBound {id : Nat} :
    (g.derivedBound t).vanishes id = true ↔ g.Derives [.nonterminal id] [] := by
  simp [derivedBound]

theorem begins_derivedBound {id : Nat} :
    (g.derivedBound t).begins id = true ↔ g.CanBegin [.nonterminal id] t := by
  simp [derivedBound]

theorem derives_of_empties (h : (g.derivedBound t).empties α = true) : g.Derives α [] := by
  induction α with
  | nil => exact .refl
  | cons s rest ih =>
      cases s with
      | terminal k => cases h
      | nonterminal id =>
          obtain ⟨hid, hrest⟩ := Bool.and_eq_true_iff.mp h
          exact (vanishes_derivedBound.mp hid).append (ih hrest)

theorem canBegin_of_starts (h : (g.derivedBound t).starts α = true) : g.CanBegin α t := by
  induction α with
  | nil => cases h
  | cons s rest ih =>
      cases s with
      | terminal k =>
          obtain rfl : k = t := TokenKind.column_injective (beq_iff_eq.mp h)
          exact canBegin_terminal k rest
      | nonterminal id =>
          rcases Bool.or_eq_true_iff.mp h with hbegins | hmore
          · exact (begins_derivedBound.mp hbegins).append rest
          · obtain ⟨hid, hrest⟩ := Bool.and_eq_true_iff.mp hmore
            exact .after_empty (vanishes_derivedBound.mp hid) (ih hrest)

theorem derivedBound_allows (g : Grammar) (t : TokenKind) :
    ∀ production ∈ g.productions, (g.derivedBound t).allows production = true := by
  intro production hproduction
  obtain ⟨p, hp⟩ := Array.mem_iff_getElem?.mp hproduction
  have hvanishes : (g.derivedBound t).empties production.rhs = true →
      (g.derivedBound t).vanishes production.lhs = true :=
    fun h => vanishes_derivedBound.mpr ((derives_rhs hp).trans (derives_of_empties h))
  have hbegins : (g.derivedBound t).starts production.rhs = true →
      (g.derivedBound t).begins production.lhs = true :=
    fun h => begins_derivedBound.mpr (.of_derives (derives_rhs hp) (canBegin_of_starts h))
  unfold FirstBound.allows
  rw [Bool.and_eq_true, Bool.or_eq_true, Bool.or_eq_true]
  refine ⟨?_, ?_⟩
  · cases h : (g.derivedBound t).empties production.rhs with
    | false => exact .inl rfl
    | true => exact .inr (hvanishes h)
  · cases h : (g.derivedBound t).starts production.rhs with
    | false => exact .inl rfl
    | true => exact .inr (hbegins h)

end Grammar

/-! ### All of what forms derive -/

namespace FirstSets

variable {f : FirstSets} {g : Grammar} {α α' β β' : List Symbol}

theorem ofSymbols_append (f : FirstSets) (α β : List Symbol) :
    f.ofSymbols (α ++ β) =
      if (f.ofSymbols α).2 then ((f.ofSymbols α).1 ||| (f.ofSymbols β).1, (f.ofSymbols β).2)
      else f.ofSymbols α := by
  induction α with
  | nil => simp [ofSymbols]
  | cons s rest ih =>
      cases s with
      | terminal k => simp [ofSymbols]
      | nonterminal id =>
          rw [List.cons_append, ofSymbols, ofSymbols, ih]
          by_cases hid : f.nullable.getD id false = true
          · simp only [hid, if_true]
            by_cases hrest : (f.ofSymbols rest).2 = true
            · simp only [hrest, if_true, Nat.or_assoc]
            · simp only [hrest, Bool.false_eq_true, if_false]
          · simp only [hid, Bool.false_eq_true, if_false]

/-- What one run of symbols can begin with or vanish to, another one can. -/
structure Below (f : FirstSets) (α β : List Symbol) : Prop where
  vanishes : (f.ofSymbols α).2 = true → (f.ofSymbols β).2 = true
  first : (f.ofSymbols α).1.Within (f.ofSymbols β).1

theorem Below.refl (f : FirstSets) (α : List Symbol) : f.Below α α := ⟨id, .refl _⟩

theorem Below.append (h : f.Below α α') (h' : f.Below β β') : f.Below (α ++ β) (α' ++ β') := by
  constructor
  · rw [ofSymbols_append, ofSymbols_append]
    by_cases hα : (f.ofSymbols α).2 = true
    · rw [if_pos hα, if_pos (h.vanishes hα)]
      exact h'.vanishes
    · rw [if_neg hα]
      exact fun hα' => absurd hα' hα
  · rw [ofSymbols_append, ofSymbols_append]
    by_cases hα : (f.ofSymbols α).2 = true
    · rw [if_pos hα, if_pos (h.vanishes hα)]
      exact (h.first.trans (KindSet.within_or_left _ _)).or
        (h'.first.trans (KindSet.within_or_right _ _))
    · rw [if_neg hα]
      split
      · exact h.first.trans (KindSet.within_or_left _ _)
      · exact h.first

theorem ofSymbols_nonterminal (f : FirstSets) (id : Nat) :
    (f.ofSymbols [.nonterminal id]).2 = f.isNullable id ∧
      (f.ofSymbols [.nonterminal id]).1 = f.firstOf id := by
  unfold ofSymbols isNullable firstOf
  split <;> simp_all [ofSymbols]

/-- Replacing a nonterminal adds nothing to closed first sets. -/
theorem Closed.below_of_rewrites (h : f.Closed g) (hg : g.WellFormed) (hr : g.Rewrites α β) :
    f.Below β α := by
  obtain ⟨before, after, hp⟩ := hr
  rename_i p production
  have hmem : production ∈ g.productions := Array.mem_of_getElem? hp
  obtain ⟨hvanishes, hfirst⟩ := ofSymbols_nonterminal f production.lhs
  have hown : f.Below production.rhs [.nonterminal production.lhs] := by
    constructor
    · rw [hvanishes]
      exact h.nullable hg hmem
    · rw [hfirst]
      exact h.first hg hmem
  have hall := ((Below.refl f before).append hown).append (Below.refl f after)
  simpa using hall

theorem Closed.below_of_derives (h : f.Closed g) (hg : g.WellFormed) (hd : g.Derives α β) :
    f.Below β α := by
  induction hd with
  | refl => exact .refl f _
  | tail _ hstep ih =>
      have hone := h.below_of_rewrites hg hstep
      exact ⟨fun hv => ih.vanishes (hone.vanishes hv), hone.first.trans ih.first⟩

end FirstSets

namespace Grammar.WellFormed

variable {g : Grammar} (hg : g.WellFormed)

include hg

/-- **A run of symbols can vanish exactly when it derives the empty form.** -/
theorem vanishes_iff {α : List Symbol} :
    (g.firstSets.ofSymbols α).2 = true ↔ g.Derives α [] := by
  constructor
  · intro h
    have hbounds := FirstBound.bounds_firstSets (g.derivedBound_allows .eof)
    exact derives_of_empties ((hbounds.ofSymbols α).1 h)
  · intro h
    exact (hg.firstSets_closed.below_of_derives hg h).vanishes rfl

/-- **The first set of a run of symbols has exactly the terminals that begin a form it derives.** -/
theorem has_first_iff {α : List Symbol} {t : TokenKind} :
    (g.firstSets.ofSymbols α).1.has t.column = true ↔ g.CanBegin α t := by
  constructor
  · intro h
    have hbounds := FirstBound.bounds_firstSets (g.derivedBound_allows t)
    exact canBegin_of_starts ((hbounds.ofSymbols α).2 h)
  · rintro ⟨rest, h⟩
    refine (hg.firstSets_closed.below_of_derives hg h).first _ ?_
    exact KindSet.has_ofKind_self t

/-- What begins a run of symbols with a terminal after it. -/
theorem canBegin_iff_ofSymbolsThen {rest : List Symbol} {a b : TokenKind} :
    g.CanBegin (rest ++ [.terminal a]) b ↔
      (g.firstSets.ofSymbolsThen rest (KindSet.ofKind a)).has b.column = true := by
  rw [← hg.has_first_iff, FirstSets.ofSymbols_append]
  unfold FirstSets.ofSymbolsThen
  dsimp only
  split
  · rfl
  · rfl

end Grammar.WellFormed

end AspectLang
