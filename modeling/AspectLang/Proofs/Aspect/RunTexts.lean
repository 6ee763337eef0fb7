import AspectLang.Aspect.PseudoToken
import AspectLang.Proofs.Token.Excerpts
import Mathlib.Data.List.Forall2

/-! # The texts of runs of pseudo tokens

A pseudo token of which no guard is known shows a token of the source, or it is a bracket or a
semicolon that a repair has put in (`PseudoToken.Shows`).  The text of a run of such tokens is that
of an excerpt (`PseudoToken.toList_renderAll`), so it is read as the texts of the tokens
(`PseudoToken.tokenize_renderAll`). -/

namespace AspectLang

namespace PseudoToken

open Scanner (Excerpt piecesAfter piecesOf clear_of_mem spell stream tokenize)

variable {source : String} {t : PseudoToken} {ts : List PseudoToken} {a : Token}
  {as : List Token}

/-- A pseudo token shows a token. -/
structure Shows (t : PseudoToken) (a : Token) : Prop where
  condition : t.condition = none
  value : t.value = a.text
  span : t.span = a.span

/-- A pseudo token has the text and the place of a token of the source. -/
def IsFrom (source : String) (t : PseudoToken) : Prop :=
  ∃ a ∈ (stream source).tokens, a.text = t.value ∧ a.span = t.span

/-- A pseudo token is a bracket or a semicolon. -/
def IsSeparator (t : PseudoToken) : Prop := ∃ k ∈ Scanner.separators, t.value = k.grammarName

theorem toList_renderAfter (h : List.Forall₂ Shows ts as) (stop : Nat) :
    (renderAfter stop ts).toList = spell (piecesAfter stop as) := by
  induction h generalizing stop with
  | nil => rfl
  | @cons t a ts as ht _ ih =>
      have hrender : t.render.toList = a.text.toList := by
        unfold render
        rw [ht.condition, ht.value]
      rw [renderAfter, piecesAfter, Scanner.spell_append, ht.span, String.toList_append,
        String.toList_append, ih, hrender, List.append_assoc]
      congr 1
      split <;> rfl

/-- The text of a run is that of the tokens that it shows. -/
theorem toList_renderAll (h : List.Forall₂ Shows ts as) :
    (renderAll ts).toList = spell (piecesOf as) := by
  cases h with
  | nil => rfl
  | @cons t a ts as ht hts =>
      have hrender : t.render.toList = a.text.toList := by
        unfold render
        rw [ht.condition, ht.value]
      rw [renderAll, String.toList_append, toList_renderAfter hts, hrender, ht.span]
      rfl

/-- **The text of a run that shows an excerpt is read as the texts of its tokens.** -/
theorem tokenize_renderAll (h : List.Forall₂ Shows ts as) (has : Excerpt source as) :
    ∃ read, tokenize (renderAll ts) = .ok read ∧ read.map Token.text = ts.map value := by
  obtain ⟨read, hread, hlexed⟩ := Scanner.tokenize_excerpt has
  refine ⟨read, ?_, ?_⟩
  · rw [← hread, ← toList_renderAll h, String.ofList_toList]
  · have htexts : read.map Token.text = as.map Token.text := by
      have hsnd := congrArg (List.map Prod.snd) hlexed
      simpa [Function.comp_def, Scanner.lexed] using hsnd
    rw [htexts]
    clear hread hlexed htexts has
    induction h with
    | nil => rfl
    | cons ht _ ih => rw [List.map_cons, List.map_cons, ih, ht.value]

/-! ### Runs with places of their own -/

/-- A run without guards, each token of which is one of the source or a bracket or a semicolon,
shows an excerpt of the source, if its tokens stand one behind the other and those of the source at
places of their own. -/
theorem exists_excerpt (hplain : ∀ t ∈ ts, t.condition = none)
    (hfrom : ∀ t ∈ ts, t.IsFrom source ∨ t.IsSeparator)
    (horder : ts.Pairwise fun t u =>
      t.IsSeparator ∨ u.IsSeparator ∨ t.span.stop ≤ u.span.start ∧ t.span ≠ u.span) :
    ∃ as, List.Forall₂ Shows ts as ∧ Excerpt source as := by
  have hshown : ∀ t ∈ ts, ∃ a, Shows t a ∧
      (Scanner.IsSeparator a ∨ ¬ t.IsSeparator ∧ a ∈ (stream source).tokens) := by
    intro t ht
    by_cases hseparator : t.IsSeparator
    · obtain ⟨k, hk, hvalue⟩ := hseparator
      exact ⟨⟨k, t.span, t.value⟩, ⟨hplain t ht, rfl, rfl⟩, .inl ⟨hk, hvalue⟩⟩
    · obtain ⟨a, ha, htext, hspan⟩ := (hfrom t ht).resolve_right hseparator
      exact ⟨a, ⟨hplain t ht, htext.symm, hspan.symm⟩, .inr ⟨hseparator, ha⟩⟩
  clear hplain hfrom
  suffices h : ∃ as, List.Forall₂ Shows ts as ∧ Excerpt source as ∧ ∀ a ∈ as, ∃ t ∈ ts, Shows t a ∧
      (Scanner.IsSeparator a ∨ ¬ t.IsSeparator ∧ a ∈ (stream source).tokens) by
    obtain ⟨as, hshows, hexcerpt, _⟩ := h
    exact ⟨as, hshows, hexcerpt⟩
  induction ts with
  | nil => exact ⟨[], .nil, ⟨nofun, .nil⟩, nofun⟩
  | cons t ts ih =>
      obtain ⟨hbehind, horder⟩ := List.pairwise_cons.mp horder
      obtain ⟨⟨a, hta, ha⟩, hrest⟩ := List.forall_mem_cons.mp hshown
      obtain ⟨as, hshows, hexcerpt, hmem⟩ := ih horder hrest
      refine ⟨a :: as, .cons hta hshows, ⟨List.forall_mem_cons.mpr ⟨?_, hexcerpt.origin⟩,
        List.pairwise_cons.mpr ⟨fun b hb => ?_, hexcerpt.order⟩⟩,
        List.forall_mem_cons.mpr ⟨⟨t, List.mem_cons_self, hta, ha⟩, fun b hb => ?_⟩⟩
      · exact ha.symm.imp And.right id
      · obtain ⟨u, hu, hub, hb⟩ := hmem b hb
        rcases ha with ha | ⟨ht, ha⟩
        · exact .inl ha
        rcases hb with hb | ⟨hu', hb⟩
        · exact .inr (.inl hb)
        obtain ⟨hle, hne⟩ := ((hbehind u hu).resolve_left ht).resolve_left hu'
        rw [hta.span, hub.span] at hle hne
        have hturned := (clear_of_mem hb ha).1
        obtain ⟨_, hsame | hapart | hback⟩ := clear_of_mem ha hb
        · exact absurd hsame hne
        · exact .inr (.inr hapart)
        · exact .inr (.inr (by omega))
      · obtain ⟨u, hu, hub⟩ := hmem b hb
        exact ⟨u, List.mem_cons_of_mem t hu, hub⟩

end PseudoToken

end AspectLang
