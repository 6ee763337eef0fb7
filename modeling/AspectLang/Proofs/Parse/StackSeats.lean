import AspectLang.Proofs.Parse.AspectActionsSeated
import AspectLang.Proofs.Parse.Placement

/-! # The seats of a stack of symbols

A symbol leaves at most one segment that has a seat, and the seat is the place of the symbol.  The
seats of a stack of symbols are those of the right side on top, which stand one behind the other,
and those of what is below (`stackSeats_append`).  So the action of a rule finds its values in
places among the symbols of the right side (`Handle.spreads_row`), and turns the seats with the
right side on top into those with the left side (`Workspace.AtReduction.yields_act`). -/

namespace AspectLang

/-! ### Symbols -/

namespace RuleSymbol

/-- The segment with a seat that a symbol leaves, if it leaves one. -/
def kind? (s : RuleSymbol) : Option SegmentKind := s.profile.kinds.head?

/-- The seat of a symbol in its place. -/
def seat? (s : RuleSymbol) (σ : Place) : Option Seat := s.kind?.map (⟨·, σ⟩)

theorem kinds_eq (s : RuleSymbol) : s.profile.kinds = s.kind?.toList := by
  cases s with
  | t kind => cases kind <;> rfl
  | n x => cases x <;> rfl

theorem place_of_seat? {s : RuleSymbol} {σ : Place} {seat : Seat} (h : s.seat? σ = some seat) :
    seat.place = σ := by
  obtain ⟨k, _, rfl⟩ := Option.map_eq_some_iff.mp h
  rfl

theorem toList_seat? (s : RuleSymbol) (σ : Place) :
    (s.seat? σ).toList = s.profile.kinds.map (⟨·, σ⟩) := by
  rw [s.kinds_eq]
  exact Option.toList_map ..

end RuleSymbol

/-- The seats of a row of symbols in their places, in the order of the text. -/
def rowSeats (row : List RuleSymbol) (spans : List Place) : List Seat :=
  (row.zip spans).filterMap fun e => e.1.seat? e.2

/-- The seats of a stack of symbols, the topmost first. -/
def stackSeats (symbols : List Symbol) (spans : List Place) : List Seat :=
  (symbols.zip spans).filterMap fun e => e.1.named.seat? e.2

section

variable {rhs : List RuleSymbol} {before : List Symbol} {spans : List Place}

theorem stackSeats_cons (s : RuleSymbol) (symbols : List Symbol) (σ : Place) (spans : List Place) :
    stackSeats (s.symbol :: symbols) (σ :: spans) =
      s.profile.kinds.map (⟨·, σ⟩) ++ stackSeats symbols spans := by
  unfold stackSeats
  rw [List.zip_cons_cons, List.filterMap_cons, s.named_symbol, ← s.toList_seat?]
  cases s.seat? σ <;> rfl

/-- A right side on top of a stack. -/
theorem stackSeats_append (hlength : rhs.length ≤ spans.length) :
    stackSeats ((rhs.map RuleSymbol.symbol).reverse ++ before) spans =
      (rowSeats rhs (spans.take rhs.length).reverse).reverse ++
        stackSeats before (spans.drop rhs.length) := by
  have htake : (spans.take rhs.length).length = rhs.length := List.length_take_of_le hlength
  have hrow : ((rhs.map RuleSymbol.symbol).reverse.zip (spans.take rhs.length)) =
      ((rhs.zip (spans.take rhs.length).reverse).map fun e => (e.1.symbol, e.2)).reverse := by
    have hreverse : ((rhs.map RuleSymbol.symbol).zip (spans.take rhs.length).reverse).reverse =
        (rhs.map RuleSymbol.symbol).reverse.zip (spans.take rhs.length).reverse.reverse :=
      List.reverse_zipWith (by simp [htake])
    rw [List.reverse_reverse] at hreverse
    rw [← hreverse, List.zip_map_left]
    rfl
  unfold stackSeats rowSeats
  conv_lhs => rw [← List.take_append_drop rhs.length spans]
  rw [List.zip_append (by simp [htake]), List.filterMap_append, hrow, List.filterMap_reverse,
    List.filterMap_map]
  simp only [Function.comp_def, RuleSymbol.named_symbol]

theorem kinds_rowSeats (hlength : rhs.length ≤ spans.length) :
    (rowSeats rhs spans).map Seat.kind = rhs.filterMap RuleSymbol.kind? := by
  unfold rowSeats
  rw [List.map_filterMap]
  conv_rhs => rw [← List.map_fst_zip hlength, List.filterMap_map]
  refine List.filterMap_congr fun e _ => ?_
  change Option.map _ (Option.map _ _) = _
  rw [Option.map_map]
  exact congrFun Option.map_id _

theorem place_mem_of_rowSeats {seat : Seat} (h : seat ∈ rowSeats rhs spans) : seat.place ∈ spans := by
  obtain ⟨⟨s, σ⟩, he, hseat⟩ := List.mem_filterMap.mp h
  rw [RuleSymbol.place_of_seat? hseat]
  exact (List.of_mem_zip he).2

/-- Symbols that stand one behind the other have their seats so. -/
theorem pairwise_rowSeats {R : Place → Place → Prop} (hlength : spans.length ≤ rhs.length)
    (h : spans.Pairwise R) : (rowSeats rhs spans).Pairwise fun s t => R s.place t.place := by
  have hzip : (rhs.zip spans).Pairwise fun a b => R a.2 b.2 := by
    refine List.pairwise_map.mp ?_
    rwa [List.map_snd_zip hlength]
  refine hzip.filterMap _ fun a b hab s hs t ht => ?_
  rw [RuleSymbol.place_of_seat? hs, RuleSymbol.place_of_seat? ht]
  exact hab

end

/-! ### Rows -/

/-- The place of the seat with a number in a row. -/
def placeIn (row : List Seat) (i : Nat) : Place := row[i]?.bind Seat.place

/-- Segments may be taken for others, one by one. -/
def SegmentKind.allWithin : List SegmentKind → List SegmentKind → Bool
  | [], [] => true
  | k :: ks, l :: ls => k.within l && allWithin ks ls
  | _, _ => false

section

variable {row frame frame' : List Seat} {kinds : List SegmentKind} {σ τ : Place}

/-- A row of segments that are taken for others. -/
theorem Seat.widens_followed {place : Nat → Place} {i : Nat}
    (hkinds : SegmentKind.allWithin (row.map Seat.kind) kinds = true)
    (hplace : ∀ j seat, row[j]? = some seat → place (i + j) = seat.place)
    (hframe : List.Forall₂ Seat.Widens frame frame') :
    List.Forall₂ Seat.Widens (row.reverse ++ frame) (Seat.followed place frame' i kinds) := by
  induction row generalizing kinds frame frame' i with
  | nil =>
      cases kinds with
      | nil => exact hframe
      | cons k kinds => cases hkinds
  | cons seat row ih =>
      cases kinds with
      | nil => cases hkinds
      | cons k kinds =>
          obtain ⟨hk, hrest⟩ := Bool.and_eq_true_iff.mp hkinds
          rw [List.reverse_cons, List.append_assoc, Seat.followed]
          refine ih hrest (fun j s hs => ?_) (.cons ⟨hk, ?_⟩ hframe)
          · rw [← hplace (j + 1) s hs]
            congr 1
            omega
          · rw [show place i = seat.place from hplace 0 seat rfl]
            exact .refl _

theorem Seat.widens_map (h : SegmentKind.allWithin kinds kinds' = true) :
    List.Forall₂ Seat.Widens (kinds.map (⟨·, σ⟩)) (kinds'.map (⟨·, σ⟩)) := by
  induction kinds generalizing kinds' with
  | nil =>
      cases kinds' with
      | nil => exact .nil
      | cons l ls => cases h
  | cons k ks ih =>
      cases kinds' with
      | nil => cases h
      | cons l ls =>
          obtain ⟨hk, hrest⟩ := Bool.and_eq_true_iff.mp h
          exact .cons ⟨hk, .refl σ⟩ (ih hrest)

theorem Seat.widens_refl (seats : List Seat) : List.Forall₂ Seat.Widens seats seats :=
  List.forall₂_same.mpr fun seat _ => .refl seat

end

/-! ### Facts about the rules -/

namespace Rule

/-- The segments that a right side leaves. -/
def kinds (r : Rule) : List SegmentKind := r.rhs.filterMap RuleSymbol.kind?

/-- Whether the action of a rule takes the segments that the right side leaves, and gives what the
left side leaves; if the left side changes the declaration below it, that is nothing. -/
def keepsSeats (r : Rule) : Bool :=
  cond r.lhs.context.isEmpty
    (!r.action.changesBelow &&
      SegmentKind.allWithin r.kinds (r.effect.1.flatMap Profile.kinds) &&
      SegmentKind.allWithin r.effect.2.kinds r.lhs.profile.kinds)
    ((r.action = .none || r.action.changesBelow) &&
      SegmentKind.allWithin r.kinds (r.effect.1.tail.flatMap Profile.kinds) &&
      r.lhs.profile.kinds.isEmpty)

/-- Whether the symbols of a right side are as the action relies on. -/
def serves (r : Rule) : Bool :=
  (r.action.mayCoverNothing || r.rhs.any fun s => !s.mayBeEmpty) &&
    r.action.spot?.all r.coversAt && (!r.action.leads || r.rhs.head?.all fun s => s.kind? = none)

end Rule

namespace Language

/-- What seating values asks of the rules, in one check so that each rule is read once. -/
theorem rules_seated : ∀ r ∈ rules, r.keepsSeats = true ∧ r.serves = true ∧
    (r.action = .localVariablesStatement →
      r.rhs = [.n .localVariableDeclaration, .t .semicolon]) := by
  decide +kernel

end Language

/-! ### Reductions -/

/-- Places of the seats on a right side, which is on top of a stack. -/
theorem Handle.spreads_row {g : Spacing} {rhs : List RuleSymbol} {c : Handle} (h : c.Tidy g)
    (hlength : c.spans.length = rhs.length) : c.Spreads g (placeIn (rowSeats rhs c.spans)) where
  tidy := h
  within i := by
    unfold placeIn
    cases hseat : (rowSeats rhs c.spans)[i]? with
    | none => exact nofun
    | some seat =>
        refine Place.within_of_holds fun s hs => h.holds ?_
        rw [← Option.mem_def.mp hs]
        exact place_mem_of_rowSeats (List.mem_of_getElem? hseat)
  apart i j hij := by
    have hapart := pairwise_rowSeats (Nat.le_of_eq hlength) h.apart
    unfold placeIn
    intro s hs t ht
    obtain ⟨seat, hseat, hs⟩ := Option.bind_eq_some_iff.mp hs
    obtain ⟨seat', hseat', ht⟩ := Option.bind_eq_some_iff.mp ht
    obtain ⟨hi, rfl⟩ := List.getElem?_eq_some_iff.mp hseat
    obtain ⟨hj, rfl⟩ := List.getElem?_eq_some_iff.mp hseat'
    exact List.pairwise_iff_getElem.mp hapart i j hi hj hij s hs t ht

/-- A first symbol that leaves no segment stands in front of all seats. -/
theorem precedes_placeIn {gap : Nat} {rhs : List RuleSymbol} {spans : List Place}
    (hfirst : rhs.head?.all (fun s => s.kind? = none) = true)
    (hapart : spans.Pairwise (Place.Precedes gap)) (i : Nat) :
    (spans.getD 0 none).Precedes gap (placeIn (rowSeats rhs spans) i) := by
  match rhs, spans with
  | _, [] => exact nofun
  | [], _ :: _ => exact fun _ _ => nofun
  | s :: rhs, σ :: spans =>
      have hrow : rowSeats (s :: rhs) (σ :: spans) = rowSeats rhs spans := by
        unfold rowSeats RuleSymbol.seat?
        rw [List.zip_cons_cons, List.filterMap_cons, of_decide_eq_true hfirst]
        rfl
      rw [hrow]
      unfold placeIn
      intro t ht u hu
      obtain ⟨seat, hseat, hu⟩ := Option.bind_eq_some_iff.mp hu
      exact (List.pairwise_cons.mp hapart).1 _
        (place_mem_of_rowSeats (List.mem_of_getElem? hseat)) t ht u hu

/-- A right side stands on top of a stack of symbols, whose values sit where they should. -/
structure Workspace.AtReduction (g : Spacing) (w : Workspace) (rule : Rule) (before : List Symbol)
    (spans : List Place) (lookahead : Span) : Prop where
  isRule : rule ∈ Language.rules
  length : rule.rhs.length ≤ spans.length
  filled : Filled ((rule.rhs.map RuleSymbol.symbol).reverse ++ before) spans
  tidy : Handle.Tidy g ⟨(spans.take rule.rhs.length).reverse, lookahead⟩
  sits : w.Sits g (stackSeats ((rule.rhs.map RuleSymbol.symbol).reverse ++ before) spans)

namespace Workspace.AtReduction

variable {g : Spacing} {w : Workspace} {rule : Rule} {before : List Symbol} {spans : List Place}
  {lookahead : Span} (h : w.AtReduction g rule before spans lookahead)

include h

theorem arity_eq :
    (Handle.mk (spans.take rule.rhs.length).reverse lookahead).arity = rule.rhs.length := by
  change ((spans.take rule.rhs.length).reverse).length = _
  rw [List.length_reverse, List.length_take_of_le h.length]

theorem isSome_of_coversAt {i : Nat} (hi : rule.coversAt i = true) :
    ((spans.take rule.rhs.length).reverse.getD i none).isSome = true := by
  obtain ⟨s, hs, hcovers⟩ := (Option.any_eq_true ..).mp hi
  exact h.filled.isSome h.length hs (Bool.not_eq_true' _ ▸ hcovers)

/-- The seats of the values that an action takes, on top of those below. -/
theorem sits_row {takes : List Profile}
    (hkinds : SegmentKind.allWithin rule.kinds (takes.flatMap Profile.kinds) = true) :
    w.Sits g (Seat.followed (placeIn (rowSeats rule.rhs (spans.take rule.rhs.length).reverse))
      (stackSeats before (spans.drop rule.rhs.length)) 0 (takes.flatMap Profile.kinds)) := by
  have hsits := h.sits
  have hlength : rule.rhs.length ≤ (spans.take rule.rhs.length).reverse.length :=
    Nat.le_of_eq h.arity_eq.symm
  rw [stackSeats_append h.length] at hsits
  refine hsits.widen (Seat.widens_followed ?_ (fun j seat hseat => ?_) (Seat.widens_refl _))
  · rw [kinds_rowSeats hlength]
    exact hkinds
  · unfold placeIn
    rw [Nat.zero_add, hseat]
    rfl

/-- The symbols of the right side are as the action relies on. -/
theorem serves : Handle.Serves g ⟨(spans.take rule.rhs.length).reverse, lookahead⟩
    (placeIn (rowSeats rule.rhs (spans.take rule.rhs.length).reverse)) rule.action := by
  obtain ⟨_, hserves, hclosing⟩ := Language.rules_seated rule h.isRule
  simp only [Rule.serves, Bool.and_eq_true, Bool.or_eq_true] at hserves
  obtain ⟨⟨hcovers, hspot⟩, hleads⟩ := hserves
  have hapart := h.tidy.apart
  have hlength : (spans.take rule.rhs.length).reverse.length = rule.rhs.length := h.arity_eq
  refine ⟨fun hnothing => ?_, fun i hi => ?_, fun htrue i => ?_, fun haction => ?_⟩
  · rw [hnothing] at hcovers
    obtain ⟨s, hs, hempty⟩ := List.any_eq_true.mp (hcovers.resolve_left nofun)
    obtain ⟨j, hj⟩ := List.mem_iff_getElem?.mp hs
    exact Handle.Lies.isSome_whole? (h.filled.isSome h.length hj (Bool.not_eq_true' _ ▸ hempty))
  · rw [hi] at hspot
    exact h.isSome_of_coversAt hspot
  · rw [htrue] at hleads
    exact precedes_placeIn (hleads.resolve_left nofun) hapart i
  · rw [hclosing haction] at hlength hapart ⊢
    obtain ⟨σ, τ, hspans⟩ := List.length_eq_two.mp hlength
    dsimp only at hspans hapart ⊢
    rw [hspans] at hapart ⊢
    exact List.rel_of_pairwise_cons hapart List.mem_cons_self

/-- **The action of a rule seats its value in the place of the left side**, once this replaces the
right side on the stack. -/
theorem yields_act (dialect : Dialect) :
    Work.Yields w (Work.act dialect ⟨(spans.take rule.rhs.length).reverse, lookahead⟩ rule.action)
      fun _ w' => w'.Sits g (stackSeats (.nonterminal rule.lhs.index :: before)
        ((Handle.mk (spans.take rule.rhs.length).reverse lookahead).whole? ::
          spans.drop rule.rhs.length)) := by
  have hkeeps := (Language.rules_seated rule h.isRule).1
  have hspreads := Handle.spreads_row h.tidy h.arity_eq
  have hafter : ∀ σ spans', stackSeats (.nonterminal rule.lhs.index :: before) (σ :: spans') =
      rule.lhs.profile.kinds.map (⟨·, σ⟩) ++ stackSeats before spans' :=
    stackSeats_cons (.n rule.lhs) before
  unfold Rule.keepsSeats at hkeeps
  cases hcontext : rule.lhs.context.isEmpty with
  | true =>
      rw [hcontext, cond_true, Bool.and_eq_true, Bool.and_eq_true, Bool.not_eq_true'] at hkeeps
      obtain ⟨⟨hbelow, htakes⟩, hgives⟩ := hkeeps
      have hout : rule.output.kinds.length ≤ 1 := by
        have hprofile : rule.output = rule.lhs.profile := by
          unfold Rule.output Rule.base
          rw [List.isEmpty_iff.mp hcontext]
          exact Profile.atop_empty _
        rw [hprofile]
        change (RuleSymbol.n rule.lhs).profile.kinds.length ≤ 1
        rw [RuleSymbol.kinds_eq]
        exact Option.length_toList_le
      have hact := Work.seats_act dialect hout hbelow hspreads h.serves w
        (stackSeats before (spans.drop rule.rhs.length))
      rw [h.arity_eq] at hact
      refine (hact (h.sits_row htakes)).mono fun _ w' hw' => ?_
      rw [hafter]
      exact Workspace.Sits.widen hw' (List.rel_append (Seat.widens_map hgives) (Seat.widens_refl _))
  | false =>
      rw [hcontext, cond_false, Bool.and_eq_true, Bool.and_eq_true, Bool.or_eq_true] at hkeeps
      obtain ⟨⟨hbelow, htakes⟩, hempty⟩ := hkeeps
      have hact := Work.seats_below dialect rule.output (hbelow.imp_left of_decide_eq_true)
        hspreads w (stackSeats before (spans.drop rule.rhs.length))
      rw [h.arity_eq] at hact
      refine (hact (h.sits_row htakes)).mono fun _ w' hw' => ?_
      rw [hafter, List.isEmpty_iff.mp hempty]
      exact hw'

end Workspace.AtReduction

end AspectLang
