import AspectLang.Proofs.Aspect.PointcutGrammar

/-! # Chains of pointcuts

A chain of `&&`, or one of `||`, is read with its first operands grouped first, and is displayed
without parentheses however it is grouped.  So pointcuts are compared up to the grouping of chains,
and up to the ranges that they carry (`Pointcut.Alike`).  A chain that is written behind another one
is read as one chain, which is the two with an operator between them, up to its grouping, and has the
same text (`Pointcut.Derives.exists_conjunction`, `Pointcut.Derives.exists_alternative`). -/

namespace AspectLang

namespace PseudoToken

variable {ts us : List PseudoToken}

theorem Balanced.append (h : Balanced ts) (h' : Balanced us) : Balanced (ts ++ us) := by
  induction h with
  | nil => exact h'
  | plain hopen hclose _ ih => exact .plain hopen hclose ih
  | parens hopen hinner hclose _ _ ih =>
      rw [List.append_assoc, List.cons_append]
      exact .parens hopen hinner hclose ih

end PseudoToken

namespace Pointcut

open PseudoToken

/-! ### Pointcuts up to ranges and grouping -/

/-- Two pointcuts are the same up to the ranges that they carry and up to the grouping of chains of
one operator. -/
inductive Alike : Pointcut → Pointcut → Prop
  | refl (p : Pointcut) : Alike p p
  | symm {p q : Pointcut} : Alike p q → Alike q p
  | trans {p q r : Pointcut} : Alike p q → Alike q r → Alike p r
  | and {p p' q q' : Pointcut} : Alike p p' → Alike q q' → Alike (.and p q) (.and p' q')
  | or {p p' q q' : Pointcut} : Alike p p' → Alike q q' → Alike (.or p q) (.or p' q')
  | not {p p' : Pointcut} : Alike p p' → Alike (.not p) (.not p')
  | cflow {p p' : Pointcut} (below : Bool) (span span' : Span) : Alike p p' →
      Alike (.cflow below p span) (.cflow below p' span')
  | kinded (designator pattern : String) (span span' : Span) :
      Alike (.kinded designator pattern span) (.kinded designator pattern span')
  | guard (condition : Expr) (span span' : Span) :
      Alike (.guard condition span) (.guard condition span')
  | reference (name : String) (arguments : List String) (span span' : Span) :
      Alike (.reference name arguments span) (.reference name arguments span')
  | groupAnd (p q r : Pointcut) : Alike (.and (.and p q) r) (.and p (.and q r))
  | groupOr (p q r : Pointcut) : Alike (.or (.or p q) r) (.or p (.or q r))

section

variable {p q : Pointcut}

theorem render_and : (Pointcut.and p q).render =
    render.operand 2 p.precedence p.render ++ " && " ++ render.operand 2 q.precedence q.render := rfl

theorem render_or : (Pointcut.or p q).render =
    render.operand 1 p.precedence p.render ++ " || " ++ render.operand 1 q.precedence q.render := rfl

theorem render_not : (Pointcut.not p).render = "!" ++ render.operand 3 p.precedence p.render := rfl

theorem render_cflow {below : Bool} {span : Span} : (Pointcut.cflow below p span).render =
    (if below then "cflowbelow(" else "cflow(") ++ p.render ++ ")" := rfl

end

/-- A pointcut stands for another one: it is the same up to ranges and grouping, and has the same text
and an operator that binds as strongly. -/
structure StandsFor (q p : Pointcut) : Prop where
  alike : Alike q p
  render : q.render = p.render
  precedence : q.precedence = p.precedence

namespace StandsFor

variable {p p' q q' r : Pointcut}

theorem refl (p : Pointcut) : StandsFor p p := ⟨.refl p, rfl, rfl⟩

theorem trans (h : StandsFor p q) (h' : StandsFor q r) : StandsFor p r :=
  ⟨h.alike.trans h'.alike, h.render.trans h'.render, h.precedence.trans h'.precedence⟩

theorem and (h : StandsFor p p') (h' : StandsFor q q') : StandsFor (.and p q) (.and p' q') where
  alike := h.alike.and h'.alike
  render := by rw [render_and, render_and, h.precedence, h.render, h'.precedence, h'.render]
  precedence := rfl

theorem or (h : StandsFor p p') (h' : StandsFor q q') : StandsFor (.or p q) (.or p' q') where
  alike := h.alike.or h'.alike
  render := by rw [render_or, render_or, h.precedence, h.render, h'.precedence, h'.render]
  precedence := rfl

theorem not (h : StandsFor p p') : StandsFor (.not p) (.not p') where
  alike := h.alike.not
  render := by rw [render_not, render_not, h.precedence, h.render]
  precedence := rfl

theorem cflow (below : Bool) (span span' : Span) (h : StandsFor p p') :
    StandsFor (.cflow below p span) (.cflow below p' span') where
  alike := h.alike.cflow below span span'
  render := by rw [render_cflow, render_cflow, h.render]
  precedence := rfl

/-- The text of a chain does not show its grouping. -/
theorem groupAnd (p q r : Pointcut) : StandsFor (.and (.and p q) r) (.and p (.and q r)) where
  alike := .groupAnd p q r
  render := by simp [render_and, render.operand, Pointcut.precedence, String.append_assoc]
  precedence := rfl

theorem groupOr (p q r : Pointcut) : StandsFor (.or (.or p q) r) (.or p (.or q r)) where
  alike := .groupOr p q r
  render := by simp [render_or, render.operand, Pointcut.precedence, String.append_assoc]
  precedence := rfl

end StandsFor

/-! ### Chains behind each other -/

section

variable {named : Naming} {level : Level} {ts us : List PseudoToken} {t : PseudoToken}
  {p q : Pointcut}

/-- What a nonterminal derives, the outermost one derives. -/
theorem Derives.outermost (h : Derives named level ts p) : Derives named .or ts p := by
  cases level with
  | or => exact h
  | and => exact .conjunction h
  | unary => exact .conjunction (.conjunct h)
  | primary => exact .conjunction (.conjunct (.primary h))

/-- What the innermost nonterminal derives, each derives. -/
theorem Derives.innermost (h : Derives named .primary ts p) (level : Level) :
    Derives named level ts p := by
  cases level with
  | or => exact .conjunction (.conjunct (.primary h))
  | and => exact .conjunct (.primary h)
  | unary => exact .primary h
  | primary => exact h

/-- Two chains of `&&` with the operator between them are one chain. -/
theorem Derives.exists_conjunction (hp : Derives named .and ts p) (ht : t.is "&&" = true)
    (hq : Derives named .and us q) :
    ∃ r, Derives named .and (ts ++ t :: us) r ∧ StandsFor r (.and p q) := by
  generalize hlevel : Level.and = level at hq
  induction hq with
  | conjunct hq => exact ⟨_, .both hp ht hq, .refl _⟩
  | @both us₁ us₂ t' q₁ q₂ _ ht' hq₂ ih =>
      obtain ⟨r, hr, hstands⟩ := ih rfl
      refine ⟨.and r q₂, ?_, (hstands.and (.refl q₂)).trans (.groupAnd p q₁ q₂)⟩
      have hboth := Derives.both hr ht' hq₂
      rwa [List.append_assoc, List.cons_append] at hboth
  | _ => cases hlevel

/-- Two chains of `||` with the operator between them are one chain. -/
theorem Derives.exists_alternative (hp : Derives named .or ts p) (ht : t.is "||" = true)
    (hq : Derives named .or us q) :
    ∃ r, Derives named .or (ts ++ t :: us) r ∧ StandsFor r (.or p q) := by
  generalize hlevel : Level.or = level at hq
  induction hq with
  | conjunction hq => exact ⟨_, .alternative hp ht hq, .refl _⟩
  | @alternative us₁ us₂ t' q₁ q₂ _ ht' hq₂ ih =>
      obtain ⟨r, hr, hstands⟩ := ih rfl
      refine ⟨.or r q₂, ?_, (hstands.or (.refl q₂)).trans (.groupOr p q₁ q₂)⟩
      have hboth := Derives.alternative hr ht' hq₂
      rwa [List.append_assoc, List.cons_append] at hboth
  | _ => cases hlevel

/-- A token is not a parenthesis that is marked as an identifier. -/
def Unmarked (t : PseudoToken) : Prop :=
  t.isIdentifier = true → t.is "(" = false ∧ t.is ")" = false

theorem Unmarked.of_kinded (h : t.value ∈ kindedDesignators) :
    t.is "(" = false ∧ t.is ")" = false := by
  have hword : ∀ word ∈ kindedDesignators, word ≠ "(" ∧ word ≠ ")" := by decide
  obtain ⟨hopen, hclose⟩ := hword _ h
  exact ⟨by simp [is, hopen], by simp [is, hclose]⟩

theorem ReadsName.balanced {name : String} {span : Span} (h : ReadsName ts name span)
    (hts : ∀ t ∈ ts, Unmarked t) : Balanced ts := by
  cases h with
  | @word t _ hadmits =>
      obtain ⟨hopen, hclose⟩ := hadmits.elim (hts t List.mem_cons_self) Unmarked.of_kinded
      exact .plain hopen hclose .nil
  | @atWord sign next hat hnext _ =>
      obtain ⟨hopen, hclose⟩ := hts next (by simp) hnext
      exact .plain (not_is_of_is hat (by decide)) (not_is_of_is hat (by decide))
        (.plain hopen hclose .nil)

/-- **The parentheses of a run that is derived match**, if none is marked as an identifier. -/
theorem Derives.balanced (h : Derives ReadsName level ts p) (hts : ∀ t ∈ ts, Unmarked t) :
    Balanced ts := by
  induction h with
  | conjunction _ ih | conjunct _ ih | primary _ ih => exact ih hts
  | alternative _ ht _ ihleft ihright | both _ ht _ ihleft ihright =>
      exact (ihleft fun t h => hts t (by simp [h])).append
        (.plain (not_is_of_is ht (by decide)) (not_is_of_is ht (by decide))
          (ihright fun t h => hts t (by simp [h])))
  | negation ht _ ih =>
      exact .plain (not_is_of_is ht (by decide)) (not_is_of_is ht (by decide))
        (ih fun t h => hts t (by simp [h]))
  | parens hopening _ hclosing ih =>
      exact .parens hopening (ih fun t h => hts t (by simp [h])) hclosing .nil
  | guard ht =>
      exact .plain (is_eq_false_of_condition ht _) (is_eq_false_of_condition ht _) .nil
  | controlFlow below hname hopening hinner _ hclosing _ =>
      rw [List.append_assoc, List.cons_append]
      exact (hname.balanced fun t h => hts t (by simp [h])).append
        (.parens hopening hinner hclosing .nil)
  | designator hname _ hopening hinner hclosing =>
      rw [List.append_assoc, List.cons_append]
      exact (hname.balanced fun t h => hts t (by simp [h])).append
        (.parens hopening hinner hclosing .nil)

end

end Pointcut

end AspectLang
