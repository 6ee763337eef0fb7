import AspectLang.Parse.Workspace
import AspectLang.Proofs.Tree.Nesting

/-! # Spacing of the symbols on a stack

The symbols that a parser has read stand one behind the other in the text.  A `Spacing` says how far
apart they are and where the text ends; a stack of ranges is `Spaced` if it keeps to that.  The
right side of a rule is then `Tidy`: its whole range holds the range of every symbol, and ends in the
text.  A reduction keeps a stack spaced (`Spaced.reduced`). -/

namespace AspectLang

/-- How symbols are spaced: the bytes by which the start of one comes after the last byte of the one
before it, at the least, and the offset at which the text ends. -/
structure Spacing where
  gap : Nat
  limit : Nat

/-! ### Places -/

/-- Where a symbol stands: the range that it covers, if it covers any text. -/
abbrev Place := Option Span

namespace Place

variable {gap : Nat} {σ τ υ : Place} {s t : Span}

/-- A range lies in a place. -/
def Holds (σ : Place) (t : Span) : Prop := ∃ s ∈ σ, s.Holds t

/-- What lies in one place lies in another. -/
def Within (σ τ : Place) : Prop := ∀ t, σ.Holds t → τ.Holds t

/-- One place stands in front of another. -/
def Precedes (gap : Nat) (σ τ : Place) : Prop := ∀ s ∈ σ, ∀ t ∈ τ, s.Precedes gap t

theorem holds_some : Holds (some s) t ↔ s.Holds t :=
  ⟨fun ⟨_, hs, h⟩ => Option.some.inj hs ▸ h, fun h => ⟨s, rfl, h⟩⟩

theorem holds_self (h : s.start ≤ s.stop) : Holds (some s) s := holds_some.mpr (Span.holds_self h)

theorem Within.refl (σ : Place) : σ.Within σ := fun _ => id

theorem within_of_holds (h : ∀ s ∈ σ, τ.Holds s) : σ.Within τ := by
  rintro t ⟨s, hs, hst⟩
  obtain ⟨u, hu, hus⟩ := h s hs
  exact ⟨u, hu, hus.trans hst⟩

theorem Holds.within (h : σ.Holds t) (hσ : σ.Within τ) : τ.Holds t := hσ t h

theorem Holds.merge (hs : σ.Holds s) (ht : σ.Holds t) : σ.Holds (s.merge t) := by
  obtain ⟨u, hu, hus⟩ := hs
  obtain ⟨u', hu', hut⟩ := ht
  obtain rfl := Option.some.inj (hu.symm.trans hu')
  exact ⟨u, hu, hus.merge hut⟩

/-- What lies in the first of two places stands in front of what lies in the second. -/
theorem Precedes.of_holds (h : σ.Precedes gap τ) (hs : σ.Holds s) (ht : τ.Holds t) :
    s.Precedes gap t := by
  obtain ⟨u, hu, hus⟩ := hs
  obtain ⟨v, hv, hvt⟩ := ht
  have huv : u.stop + gap ≤ v.start := h u hu v hv
  exact Nat.le_trans (Nat.add_le_add_right hus.2.2 gap) (Nat.le_trans huv hvt.1)

end Place

namespace Span

variable {gap : Nat} {s t whole : Span} {spans : List Span}

/-- The hull of ranges in order holds each of them. -/
theorem holds_of_hull (hturn : ∀ s ∈ spans, s.start ≤ s.stop)
    (hapart : spans.Pairwise (Precedes gap)) (hhull : hull spans = some whole) :
    ∀ s ∈ spans, whole.Holds s := by
  cases spans with
  | nil => exact nofun
  | cons first rest =>
      obtain ⟨last, hlast⟩ : ∃ last, (first :: rest).getLast? = some last :=
        ⟨_, List.getLast?_eq_some_getLast (List.cons_ne_nil first rest)⟩
      obtain ⟨front, hfront⟩ := List.getLast?_eq_some_iff.mp hlast
      have hwhole : first.merge last = whole := by
        change some (first.merge ((first :: rest).getLastD first)) = some whole at hhull
        rw [List.getLastD_eq_getLast?, hlast] at hhull
        exact Option.some.inj hhull
      subst hwhole
      intro s hs
      refine ⟨?_, hturn s hs, ?_⟩
      · refine Nat.le_trans (Nat.min_le_left ..) ?_
        rcases List.mem_cons.mp hs with rfl | hrest
        · exact Nat.le_refl _
        · have hstart := hturn first List.mem_cons_self
          have hbefore : first.stop + gap ≤ s.start := (List.pairwise_cons.mp hapart).1 s hrest
          omega
      · refine Nat.le_trans ?_ (Nat.le_max_right ..)
        rw [hfront] at hs hapart hturn
        have hstart := hturn last (by simp)
        rcases List.mem_append.mp hs with hrest | hs
        · have hbefore : s.stop + gap ≤ last.start :=
            (List.pairwise_append.mp hapart).2.2 s hrest last (List.mem_singleton.mpr rfl)
          omega
        · exact Nat.le_of_eq (congrArg Span.stop (List.mem_singleton.mp hs))

end Span

/-! ### Right sides -/

/-- The symbols on a right side stand one behind the other in the text, and so does the token after
them. -/
structure Handle.Tidy (g : Spacing) (c : Handle) : Prop where
  apart : c.spans.Pairwise (Place.Precedes g.gap)
  ends : ∀ s, some s ∈ c.spans → s.EndsBy g.limit
  lookahead : c.lookahead.EndsBy g.limit

namespace Handle.Tidy

variable {g : Spacing} {c : Handle} {s : Span}

theorem mem_spans (hs : s ∈ c.spans.filterMap id) : some s ∈ c.spans := by
  obtain ⟨span, hspan, rfl⟩ := List.mem_filterMap.mp hs
  exact hspan

theorem mem_of_getD {i : Nat} (hs : c.spans.getD i none = some s) : some s ∈ c.spans := by
  rw [List.getD_eq_getElem?_getD] at hs
  cases hget : c.spans[i]? with
  | none =>
      rw [hget] at hs
      cases hs
  | some span =>
      rw [hget, Option.getD_some] at hs
      subst hs
      exact List.mem_of_getElem? hget

variable (h : c.Tidy g)

include h

theorem endsBy_whole? (hs : c.whole? = some s) : s.EndsBy g.limit :=
  Span.endsBy_hull (fun t ht => h.ends t (mem_spans ht)) hs

/-- The whole range holds the range of every symbol. -/
theorem holds (hs : some s ∈ c.spans) : Place.Holds c.whole? s := by
  have hmem : s ∈ c.spans.filterMap id := List.mem_filterMap.mpr ⟨_, hs, rfl⟩
  have hapart : (c.spans.filterMap id).Pairwise (Span.Precedes g.gap) :=
    h.apart.filterMap id fun σ τ hστ s hs t ht => hστ s hs t ht
  obtain ⟨whole, hwhole⟩ : ∃ whole, c.whole? = some whole := by
    obtain ⟨first, rest, hspans⟩ := List.exists_cons_of_ne_nil (List.ne_nil_of_mem hmem)
    unfold Handle.whole?
    rw [hspans]
    exact ⟨_, rfl⟩
  have hturn := fun t ht => (h.ends t (mem_spans ht)).1
  exact ⟨whole, hwhole, Span.holds_of_hull hturn hapart hwhole s hmem⟩

theorem endsBy_lookahead : (Span.point c.lookahead.start).EndsBy g.limit :=
  Span.endsBy_point (Nat.le_trans h.lookahead.1 h.lookahead.2)

theorem endsBy_whole : c.whole.EndsBy g.limit := by
  unfold Handle.whole
  cases hwhole : c.whole? with
  | none => exact h.endsBy_lookahead
  | some s => exact h.endsBy_whole? hwhole

theorem endsBy_span (i : Nat) : (c.span i).EndsBy g.limit := by
  unfold Handle.span
  cases hspan : c.spans.getD i none with
  | none => exact h.endsBy_lookahead
  | some s => exact h.ends s (mem_of_getD hspan)

/-- The range of a right side that covers text. -/
theorem holds_whole (hsome : c.whole?.isSome = true) : Place.Holds c.whole? c.whole := by
  obtain ⟨whole, hwhole⟩ := Option.isSome_iff_exists.mp hsome
  unfold Handle.whole
  rw [hwhole]
  exact Place.holds_self (h.endsBy_whole? hwhole).1

theorem holds_span {i : Nat} (hsome : (c.spans.getD i none).isSome = true) :
    Place.Holds c.whole? (c.span i) := by
  obtain ⟨s, hs⟩ := Option.isSome_iff_exists.mp hsome
  unfold Handle.span
  rw [hs]
  exact h.holds (mem_of_getD hs)

end Handle.Tidy

/-- Places among the symbols of a right side, in the order of the text. -/
structure Handle.Spreads (g : Spacing) (c : Handle) (place : Nat → Place) : Prop where
  tidy : c.Tidy g
  within : ∀ i, (place i).Within c.whole?
  apart : ∀ i j, i < j → (place i).Precedes g.gap (place j)

namespace Handle.Spreads

variable {g : Spacing} {c : Handle} {place : Nat → Place} {i j : Nat} {s t : Span}
  (h : c.Spreads g place)

include h

theorem holds (hs : (place i).Holds s) : Place.Holds c.whole? s := hs.within (h.within i)

theorem endsBy (hs : (place i).Holds s) : s.EndsBy g.limit := by
  obtain ⟨whole, hwhole, hholds⟩ := h.holds hs
  exact hholds.endsBy (h.tidy.endsBy_whole? hwhole)

theorem precedes (hij : i < j) (hs : (place i).Holds s) (ht : (place j).Holds t) :
    s.Precedes g.gap t := (h.apart i j hij).of_holds hs ht

end Handle.Spreads

/-! ### Stacks -/

/-- The ranges on a stack, the topmost first, stand one behind the other in the text, and some bytes
in front of an offset. -/
structure Spaced (g : Spacing) (offset : Nat) (spans : List Place) : Prop where
  apart : spans.Pairwise fun upper lower => lower.Precedes g.gap upper
  ends : ∀ s, some s ∈ spans → s.EndsBy g.limit
  offset : ∀ s, some s ∈ spans → s.stop + g.gap ≤ offset

namespace Spaced

variable {g : Spacing} {offset : Nat} {spans : List Place}

/-- A token behind the offset is put on the stack. -/
theorem shift (h : Spaced g offset spans) {t : Span} (hstart : offset ≤ t.start)
    (ht : t.EndsBy g.limit) : Spaced g (t.stop + g.gap) (some t :: spans) := by
  refine ⟨List.pairwise_cons.mpr ⟨fun lower hlower s hs u hu => ?_, h.apart⟩, ?_, ?_⟩
  · obtain rfl := Option.some.inj hu
    subst hs
    exact Nat.le_trans (h.offset s hlower) hstart
  · intro s hs
    rcases List.mem_cons.mp hs with hs | hs
    · exact Option.some.inj hs ▸ ht
    · exact h.ends s hs
  · intro s hs
    rcases List.mem_cons.mp hs with hs | hs
    · exact Option.some.inj hs ▸ Nat.le_refl _
    · have hs := h.offset s hs
      have ht := ht.1
      omega

theorem drop (h : Spaced g offset spans) (n : Nat) : Spaced g offset (spans.drop n) :=
  ⟨h.apart.drop, fun s hs => h.ends s (List.mem_of_mem_drop hs),
    fun s hs => h.offset s (List.mem_of_mem_drop hs)⟩

/-- The right side of a rule on top of a stack. -/
theorem tidy (h : Spaced g offset spans) (n : Nat) {lookahead : Span}
    (hlookahead : lookahead.EndsBy g.limit) :
    Handle.Tidy g ⟨(spans.take n).reverse, lookahead⟩ where
  apart := List.pairwise_reverse.mpr h.apart.take
  ends s hs := h.ends s (List.mem_of_mem_take (List.mem_reverse.mp hs))
  lookahead := hlookahead

/-- A reduction puts the whole range in the place of those of the right side. -/
theorem reduced (h : Spaced g offset spans) (n : Nat) (lookahead : Span) :
    Spaced g offset ((Handle.mk (spans.take n).reverse lookahead).whole? :: spans.drop n) := by
  have hmem : ∀ s ∈ (spans.take n).reverse.filterMap id, some s ∈ spans.take n := by
    intro s hs
    obtain ⟨span, hspan, rfl⟩ := List.mem_filterMap.mp hs
    exact List.mem_reverse.mp hspan
  have hspans : ∀ s ∈ (spans.take n).reverse.filterMap id, some s ∈ spans :=
    fun s hs => List.mem_of_mem_take (hmem s hs)
  have hends : ∀ s ∈ (spans.take n).reverse.filterMap id, s.EndsBy g.limit :=
    fun s hs => h.ends s (hspans s hs)
  have hdrop := h.drop n
  refine ⟨List.pairwise_cons.mpr ⟨fun lower hlower s hs whole hwhole => ?_, hdrop.apart⟩, ?_, ?_⟩
  · -- what is below stands in front of both ends of the right side
    obtain ⟨first, hfirst, last, hlast, rfl⟩ := Span.exists_of_hull hwhole
    subst hs
    have hbelow : ∀ t, some t ∈ spans.take n → s.stop + g.gap ≤ t.start := by
      intro t ht
      have happend := h.apart
      rw [← List.take_append_drop n spans] at happend
      exact (List.pairwise_append.mp happend).2.2 _ ht _ hlower s rfl t rfl
    exact Nat.le_min.mpr ⟨hbelow first (hmem first hfirst), hbelow last (hmem last hlast)⟩
  · intro s hs
    rcases List.mem_cons.mp hs with hs | hs
    · exact Span.endsBy_hull hends hs.symm
    · exact hdrop.ends s hs
  · intro s hs
    rcases List.mem_cons.mp hs with hs | hs
    · obtain ⟨first, hfirst, last, hlast, rfl⟩ := Span.exists_of_hull hs.symm
      have hstop := h.offset first (hspans first hfirst)
      have hstop' := h.offset last (hspans last hlast)
      change max first.stop last.stop + g.gap ≤ offset
      omega
    · exact hdrop.offset s hs

end Spaced

end AspectLang
