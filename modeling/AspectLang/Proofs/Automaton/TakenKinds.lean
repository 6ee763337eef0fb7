import AspectLang.Proofs.Automaton.Tracing

/-! # Kinds that are taken were looked for

A reduction is made before the kind that comes next, whatever kind that is.  If another kind is taken
after it, be it after more reductions, then the state that made the reduction looks for that kind as
well (`completed_of_taken`).  The last of the reductions shows it first: the state after it shifts
the kind, so the kind can begin what stands after its nonterminal.  From there it is carried back over
the reductions, each of which ends where the nonterminal of the one before stands
(`looks_of_taken`).  Productions without symbols would begin a nonterminal of their own there, so the
kind must not be one that such productions are reduced before. -/

namespace AspectLang

namespace Grammar

open GrammarIndex
open Automaton (ofGrammar)

variable {g : Grammar} {kernel : List Item} {state : Nat} {below : List Nat}
  {symbols : List Symbol} {t : TokenKind}

section

variable (hg : g.WellFormed)

/-- What can begin after the dot of an item can begin after the dot of one in the kernel. -/
theorem exists_kernel_canBegin {i : Item} (hi : g.ItemOf kernel i)
    (h : g.CanBegin ((g.rhsOf i.production).drop i.dot) t) :
    ∃ j ∈ kernel, g.CanBegin ((g.rhsOf j.production).drop j.dot) t := by
  induction hi with
  | kernel hmem => exact ⟨_, hmem, h⟩
  | @start j p production _ hnext hp ih =>
      obtain ⟨rest, hdrop⟩ := exists_drop_of_next? hnext
      refine ih ?_
      rw [List.drop_zero, rhsOf_eq hp] at h
      rw [hdrop]
      exact (CanBegin.of_derives (derives_rhs hp) h).append rest

include hg

/-- What a stack looks for where a production began, its topmost state looks for after the part of
the production that was spelled. -/
theorem Spells.looks {origin : Nat} {lower : List Nat} {p dot : Nat}
    (h : g.Spells (state :: below) symbols) (hk : g.itemGraph.kernels[state]? = some kernel)
    (hi : g.ItemOf kernel ⟨p, dot⟩) (hdrop : (state :: below).drop dot = origin :: lower)
    (hlooks : g.Looks origin ⟨p, 0⟩ t) : g.Looks state ⟨p, dot⟩ t := by
  induction dot generalizing state below kernel symbols with
  | zero =>
      obtain ⟨rfl, _⟩ := List.cons.inj hdrop
      exact hlooks
  | succ dot ih =>
      have hmem : (⟨p, dot + 1⟩ : Item) ∈ kernel := mem_of_itemOf hi (Nat.succ_ne_zero dot)
      cases h with
      | start =>
          rw [hg.kernels_zero, Option.some.injEq] at hk
          subst hk
          simp at hmem
      | @step previous _ rest symbols s hprevious hs hedge =>
          obtain ⟨kernel', hk'⟩ := hprevious.kernel_top hg
          obtain ⟨advanced, htarget, hitems, _⟩ := hg.kernel_of_edge hk' hs hedge
          obtain rfl := Option.some.inj (hk.symm.trans htarget)
          obtain ⟨j, hj, hnext, hadvance⟩ := (hitems _).mp hmem
          obtain rfl : j = ⟨p, dot⟩ := Item.advance_injective hadvance
          exact looks_advance hg hk' hedge hk hitems hj hnext (ih hprevious hk' hj hdrop)

variable (hstart : g.StartIsolated) (heof : t ≠ .eof)
  (hsolid : ∀ state kernel p, g.itemGraph.kernels[state]? = some kernel →
    Completed g state p t → g.rhsOf p ≠ [])

include hstart heof hsolid

/-- **Where a nonterminal leads to a stack that takes a kind, its productions are looked at for that
kind.** -/
theorem looks_of_taken {gas target origin id q : Nat} {lower : List Nat} {production : Production}
    (h : g.Spells (target :: origin :: lower) (.nonterminal id :: symbols))
    (htaken : (ofGrammar g).feedWithin t gas (target :: origin :: lower) ≠ .rejected)
    (hq : g.productions[q]? = some production) (hlhs : production.lhs = id) :
    g.Looks origin ⟨q, 0⟩ t := by
  induction gas generalizing target origin lower id q production symbols with
  | zero => exact absurd rfl htaken
  | succ gas ih =>
      subst hlhs
      obtain ⟨kernel, hk⟩ := h.kernel_top hg
      have hspells := h
      cases h with
      | step hprevious hs hedge =>
          obtain ⟨first, hfirst⟩ := hprevious.kernel_top hg
          obtain ⟨advanced, htarget, hitems, _⟩ := hg.kernel_of_edge hfirst hs hedge
          obtain rfl := Option.some.inj (hk.symm.trans htarget)
          cases haction : (GrammarIndex.of g).tables.action target t with
          | error =>
              exact absurd (Automaton.feedWithin_of_error (a := ofGrammar g) haction) htaken
          | accept => exact absurd (completed_of_accept hg hk hstart haction).1 heof
          | shift next =>
              -- the kind can begin what stands after the nonterminal
              obtain ⟨ht, hshift⟩ := edge_of_shift hg hk hstart haction
              obtain ⟨_, _, _, i, hi, hnext⟩ := hg.kernel_of_edge hk (s := .terminal t) ht hshift
              obtain ⟨rest, hdrop⟩ := exists_drop_of_next? hnext
              obtain ⟨moved, hmoved, hbegin⟩ := exists_kernel_canBegin hi
                (hdrop ▸ canBegin_terminal t rest)
              obtain ⟨j, hj, hnext, rfl⟩ := (hitems moved).mp hmoved
              obtain ⟨rest, hdrop⟩ := exists_drop_of_next? hnext
              refine looks_start_of_begin hg hfirst hj hdrop hq (.inl ?_)
              have hrest : (g.rhsOf j.production).drop (j.dot + 1) = rest := by
                rw [← List.tail_drop, hdrop]
                rfl
              exact hrest ▸ hbegin
          | reduce p =>
              obtain ⟨produced, origin', lower', before, target', kernel', hp, hdrop, hsymbols,
                hgoto, _, _, _, hafter⟩ := hspells.reduce hg hstart haction
              have hcompleted := (completed_of_reduce hg hk hstart haction).2
              have hreduce : (ofGrammar g).reduce? (target :: origin :: lower) p =
                  some (target' :: origin' :: lower') := reduce?_of_goto hp hdrop hgoto
              rw [Automaton.feedWithin_of_reduce (a := ofGrammar g) haction hreduce] at htaken
              have hlooks : g.Looks origin' ⟨p, 0⟩ t := ih hafter htaken hp rfl
              -- the nonterminal ends the production, which began where it is looked at
              obtain ⟨n, hn⟩ := Nat.exists_eq_succ_of_ne_zero
                (List.length_pos_iff.mpr (hsolid target kernel p hk hcompleted)).ne'
              have hmem : (⟨p, n + 1⟩ : Item) ∈ kernel := by
                have hitem := itemOf_of_looks hg hk hcompleted
                rw [hn] at hitem
                exact mem_of_itemOf hitem (Nat.succ_ne_zero n)
              obtain ⟨j, hj, hnext, hadvance⟩ := (hitems _).mp hmem
              obtain rfl : j = ⟨p, n⟩ := Item.advance_injective hadvance
              rw [← rhsOf_eq hp, hn, List.drop_succ_cons] at hdrop
              have hbefore := hprevious.looks hg hfirst hj hdrop hlooks
              have hlast : (g.rhsOf p).drop n = [.nonterminal production.lhs] := by
                obtain ⟨rest, hrest⟩ := exists_drop_of_next? hnext
                have htail : rest = (g.rhsOf p).drop (n + 1) := by
                  rw [← List.tail_drop, hrest]
                  rfl
                rw [List.drop_eq_nil_of_le hn.le] at htail
                exact htail ▸ hrest
              exact looks_start_of_begin hg hfirst hj hlast hq (.inr ⟨.refl, hbefore⟩)

/-- **A kind that is taken after a reduction is one that the reduction looks for.** -/
theorem completed_of_taken {gas p target origin : Nat} {lower : List Nat} {kind : TokenKind}
    {production : Production} (h : g.Spells (state :: below) symbols)
    (hk : g.itemGraph.kernels[state]? = some kernel)
    (haction : (GrammarIndex.of g).tables.action state kind = .reduce p)
    (hp : g.productions[p]? = some production)
    (hdrop : (state :: below).drop production.rhs.length = origin :: lower)
    (hgoto : (GrammarIndex.of g).tables.goto? origin production.lhs = some target)
    (htaken : (ofGrammar g).feedWithin t gas (target :: origin :: lower) ≠ .rejected) :
    Completed g state p t := by
  obtain ⟨produced, origin', lower', before, target', _, hp', hdrop', _, hgoto', _, _, _,
    hafter⟩ := h.reduce hg hstart haction
  obtain rfl := Option.some.inj (hp.symm.trans hp')
  obtain ⟨rfl, rfl⟩ := List.cons.inj (hdrop.symm.trans hdrop')
  obtain rfl := Option.some.inj (hgoto.symm.trans hgoto')
  have hitem := itemOf_of_looks hg hk (completed_of_reduce hg hk hstart haction).2
  refine h.looks hg hk hitem ((rhsOf_eq hp).symm ▸ hdrop) ?_
  exact looks_of_taken hg hstart heof hsolid hafter htaken hp rfl

end

/-! ### What is completed has an action -/

theorem place_ne_error {held proposed : Action} (h : proposed ≠ .error) :
    (held.place proposed {}).1 ≠ .error := by
  cases held with
  | error => exact h
  | shift target => exact Action.noConfusion
  | accept => exact Action.noConfusion
  | reduce p =>
      rw [Action.place_reduce]
      split <;> exact Action.noConfusion

/-- Proposals fill a slot, and never clear it. -/
theorem settle_ne_error {held : Action} {l : List Action} (hl : ∀ a ∈ l, a ≠ .error)
    (h : held ≠ .error ∨ l ≠ []) : settle held l ≠ .error := by
  induction l generalizing held with
  | nil => exact h.resolve_right fun hne => hne rfl
  | cons a l ih =>
      obtain ⟨ha, hl⟩ := List.forall_mem_cons.mp hl
      exact ih hl (.inl (place_ne_error ha))

/-- **A state has an action before every kind that it completes a production before.** -/
theorem action_ne_error_of_completed (hg : g.WellFormed) (hstart : g.StartIsolated)
    (hk : g.itemGraph.kernels[state]? = some kernel) {p : Nat} (ht : t ∈ TokenKind.all)
    (h : Completed g state p t) : (GrammarIndex.of g).tables.action state t ≠ .error := by
  rw [action_eq_settle hg hk (column_lt_of_mem_all ht)]
  refine settle_ne_error (fun a ha => ?_) (.inr ?_)
  · rcases reductions_proposed hg hstart hk (mem_forColumn.mp ha) with haccept | ⟨q, hreduce, _⟩
    · rw [show a = .accept from haccept]
      exact Action.noConfusion
    · rw [show a = .reduce q from hreduce]
      exact Action.noConfusion
  · exact List.ne_nil_of_mem (mem_forColumn.mpr ((proposes_iff_looks hg hk).mpr h))

end Grammar

end AspectLang
