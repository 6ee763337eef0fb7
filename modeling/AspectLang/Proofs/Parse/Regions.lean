import AspectLang.Parse.Workspace
import AspectLang.Parse.Salvage

/-! # Regions of a text

The symbols on the stack of a parser cover stretches of the text, one after the other; a symbol
that covers none stands where the symbols below it end.  `edge` is where the text ends that was
read so far, and a symbol has the `Region` from the edge below it to its own.  When the right side
of a rule is reduced, its ranges lie in the region of the left side (`lies_handle`), and the stack
stays in order (`InOrder.reduced`). -/

namespace AspectLang

/-- A stretch of the text, both ends included. -/
structure Region where
  lo : Nat
  hi : Nat

namespace Region

variable {r r' : Region} {s t : Span}

/-- A range lies in the region, and is not turned around. -/
def Holds (r : Region) (s : Span) : Prop := r.lo ≤ s.start ∧ s.start ≤ s.stop ∧ s.stop ≤ r.hi

/-- One region lies in another. -/
def Within (r r' : Region) : Prop := r'.lo ≤ r.lo ∧ r.hi ≤ r'.hi

theorem Within.refl (r : Region) : r.Within r := ⟨Nat.le_refl _, Nat.le_refl _⟩

theorem Holds.mono (h : r.Holds s) (hr : r.Within r') : r'.Holds s :=
  ⟨Nat.le_trans hr.1 h.1, h.2.1, Nat.le_trans h.2.2 hr.2⟩

theorem Holds.lo_le_stop (h : r.Holds s) : r.lo ≤ s.stop := Nat.le_trans h.1 h.2.1

theorem Holds.start_le_hi (h : r.Holds s) : s.start ≤ r.hi := Nat.le_trans h.2.1 h.2.2

theorem Holds.merge (hs : r.Holds s) (ht : r.Holds t) : r.Holds (s.merge t) := by
  unfold Holds Span.merge at *
  dsimp only
  omega

theorem Holds.hull {spans : List Span} (h : ∀ s ∈ spans, r.Holds s)
    (hull : Span.hull spans = some s) : r.Holds s := by
  cases spans with
  | nil => cases hull
  | cons first rest =>
      obtain rfl := Option.some.inj hull
      refine (h first List.mem_cons_self).merge (h _ ?_)
      rw [List.getLastD_eq_getLast?, List.getLast?_eq_some_getLast (List.cons_ne_nil first rest)]
      exact List.getLast_mem _

end Region

/-! ### Edges -/

/-- Where the text ends that a stack of symbols covers, given their ranges, the topmost first. -/
def edge : List (Option Span) → Nat
  | [] => 0
  | some s :: _ => s.stop
  | none :: below => edge below

/-- The ranges on a stack are in order: each begins no earlier than the text below it ends. -/
def InOrder : List (Option Span) → Prop
  | [] => True
  | some s :: below => edge below ≤ s.start ∧ s.start ≤ s.stop ∧ InOrder below
  | none :: below => InOrder below

section

variable {spans : List (Option Span)} {span : Option Span}

theorem InOrder.tail (h : InOrder (span :: spans)) : InOrder spans := by
  cases span with
  | none => exact h
  | some s => exact h.2.2

theorem InOrder.edge_le (h : InOrder (span :: spans)) : edge spans ≤ edge (span :: spans) := by
  cases span with
  | none => exact Nat.le_refl _
  | some s => exact Nat.le_trans h.1 h.2.1

theorem InOrder.drop (h : InOrder spans) (n : Nat) :
    InOrder (spans.drop n) ∧ edge (spans.drop n) ≤ edge spans := by
  induction n generalizing spans with
  | zero => exact ⟨h, Nat.le_refl _⟩
  | succ n ih =>
      cases spans with
      | nil => exact ⟨h, Nat.le_refl _⟩
      | cons span below =>
          obtain ⟨hdrop, hedge⟩ := ih h.tail
          exact ⟨hdrop, Nat.le_trans hedge h.edge_le⟩

/-- The ranges on top lie between the edge below them and the edge above. -/
theorem InOrder.holds (h : InOrder spans) {n : Nat} {s : Span} (hs : some s ∈ spans.take n) :
    Region.Holds ⟨edge (spans.drop n), edge spans⟩ s := by
  induction n generalizing spans with
  | zero => cases hs
  | succ n ih =>
      cases spans with
      | nil => cases hs
      | cons span below =>
          rcases List.mem_cons.mp hs with rfl | hs
          · exact ⟨Nat.le_trans (h.tail.drop n).2 h.1, h.2.1, Nat.le_refl _⟩
          · exact (ih h.tail hs).mono ⟨Nat.le_refl _, h.edge_le⟩

/-- The topmost range among the first symbols ends at the edge. -/
theorem edge_of_head? {n : Nat} {s : Span}
    (hs : ((spans.take n).filterMap id).head? = some s) : s.stop = edge spans := by
  induction n generalizing spans with
  | zero => cases hs
  | succ n ih =>
      cases spans with
      | nil => cases hs
      | cons span below =>
          cases span with
          | none => exact @ih below hs
          | some t =>
              cases hs
              rfl

theorem edge_of_none {n : Nat} (h : (spans.take n).filterMap id = []) :
    edge (spans.drop n) = edge spans := by
  induction n generalizing spans with
  | zero => rfl
  | succ n ih =>
      cases spans with
      | nil => rfl
      | cons span below =>
          cases span with
          | none => exact @ih below h
          | some t => cases h

/-! ### Handles -/

/-- The ranges that a handle tells of lie in a region, which the last of them fills up to its end;
the next token stands behind. -/
structure Handle.Lies (c : Handle) (r : Region) : Prop where
  spans : ∀ s, some s ∈ c.spans → r.Holds s
  whole : ∀ s, c.whole? = some s → r.Holds s ∧ s.stop = r.hi
  last : ∀ s, c.spans.getLast? = some (some s) → s.stop = r.hi
  lookahead : r.hi ≤ c.lookahead.start

/-- A right side on top of the stack reaches up to the edge, if it covers text. -/
theorem edge_le_of_whole? {n : Nat} {lookahead s : Span}
    (hs : (Handle.mk (spans.take n).reverse lookahead).whole? = some s) : edge spans ≤ s.stop := by
  change Span.hull ((spans.take n).reverse.filterMap id) = some s at hs
  rw [List.filterMap_reverse] at hs
  cases hlist : (spans.take n).filterMap id with
  | nil =>
      rw [hlist] at hs
      cases hs
  | cons top rest =>
      have htop : top.stop = edge spans := by
        refine edge_of_head? (n := n) ?_
        rw [hlist]
        rfl
      rw [hlist, List.reverse_cons] at hs
      rw [← htop]
      -- the range on top is the last one of the right side
      cases hfront : rest.reverse with
      | nil =>
          rw [hfront] at hs
          obtain rfl := Option.some.inj hs
          exact Nat.le_max_left ..
      | cons first more =>
          rw [hfront] at hs
          obtain rfl := Option.some.inj hs
          have hlast : (first :: more ++ [top]).getLastD first = top := by
            rw [List.getLastD_eq_getLast?, List.getLast?_concat]
            rfl
          change top.stop ≤ max first.stop ((first :: more ++ [top]).getLastD first).stop
          rw [hlast]
          exact Nat.le_max_right ..

/-- A right side on top of the stack lies in the region that its left side will have. -/
theorem lies_handle (h : InOrder spans) (n : Nat) {lookahead : Span}
    (hlookahead : edge spans ≤ lookahead.start) :
    Handle.Lies ⟨(spans.take n).reverse, lookahead⟩ ⟨edge (spans.drop n), edge spans⟩ := by
  have hmem : ∀ s, some s ∈ (spans.take n).reverse →
      Region.Holds ⟨edge (spans.drop n), edge spans⟩ s :=
    fun s hs => h.holds (List.mem_reverse.mp hs)
  refine ⟨hmem, fun s hs => ?_, fun s hs => ?_, hlookahead⟩
  · have hholds : Region.Holds ⟨edge (spans.drop n), edge spans⟩ s := by
      refine .hull (fun t ht => ?_) hs
      obtain ⟨span, hspan, rfl⟩ := List.mem_filterMap.mp ht
      exact hmem t hspan
    exact ⟨hholds, Nat.le_antisymm hholds.2.2 (edge_le_of_whole? hs)⟩
  · rw [List.getLast?_reverse] at hs
    refine edge_of_head? (n := n) ?_
    obtain ⟨rest, hrest⟩ := List.head?_eq_some_iff.mp hs
    rw [hrest]
    rfl

/-- A reduction keeps the stack in order, and the edge where it is. -/
theorem InOrder.reduced (h : InOrder spans) (n : Nat) (lookahead : Span) :
    InOrder ((Handle.mk (spans.take n).reverse lookahead).whole? :: spans.drop n) ∧
      edge ((Handle.mk (spans.take n).reverse lookahead).whole? :: spans.drop n) = edge spans := by
  have hlies := lies_handle h n (Nat.le_refl (Span.point (edge spans)).start)
  cases hwhole : (Handle.mk (spans.take n).reverse lookahead).whole? with
  | some s =>
      obtain ⟨hholds, hstop⟩ := hlies.whole s hwhole
      exact ⟨⟨hholds.1, hholds.2.1, (h.drop n).1⟩, hstop⟩
  | none =>
      refine ⟨(h.drop n).1, ?_⟩
      refine edge_of_none ?_
      change Span.hull ((spans.take n).reverse.filterMap id) = none at hwhole
      rw [List.filterMap_reverse] at hwhole
      generalize (spans.take n).filterMap id = list at hwhole
      cases hlist : list.reverse with
      | nil => exact List.reverse_eq_nil_iff.mp hlist
      | cons first rest =>
          rw [hlist] at hwhole
          cases hwhole

end

namespace Handle.Lies

variable {c : Handle} {r : Region} {i : Nat}

theorem exists_of_isSome (hi : (c.spans.getD i none).isSome = true) :
    ∃ s, c.spans[i]? = some (some s) ∧ c.span i = s := by
  obtain ⟨s, hs⟩ := Option.isSome_iff_exists.mp hi
  refine ⟨s, ?_, ?_⟩
  · rw [List.getD_eq_getElem?_getD] at hs
    cases hget : c.spans[i]? with
    | none =>
        rw [hget] at hs
        cases hs
    | some span =>
        rw [hget] at hs
        exact congrArg some hs
  · unfold Handle.span
    rw [hs]
    rfl

/-- The range of a symbol that covers text. -/
theorem span (h : c.Lies r) (hi : (c.spans.getD i none).isSome = true) : r.Holds (c.span i) := by
  obtain ⟨s, hget, hspan⟩ := exists_of_isSome hi
  rw [hspan]
  exact h.spans s (List.mem_of_getElem? hget)

/-- The range of the last symbol, where it covers text, ends the right side. -/
theorem stop_of_last (h : c.Lies r) (hi : (c.spans.getD i none).isSome = true)
    (hlast : i + 1 = c.arity) : (c.span i).stop = r.hi := by
  obtain ⟨s, hget, hspan⟩ := exists_of_isSome hi
  rw [hspan]
  refine h.last s ?_
  rw [List.getLast?_eq_getElem?]
  have hlength : c.spans.length - 1 = i := by
    change i + 1 = c.spans.length at hlast
    omega
  rw [hlength, hget]

/-- A right side in which a symbol covers text covers some. -/
theorem isSome_whole? (hi : (c.spans.getD i none).isSome = true) : c.whole?.isSome = true := by
  obtain ⟨s, hget, _⟩ := exists_of_isSome hi
  have hmem : s ∈ c.spans.filterMap id := List.mem_filterMap.mpr ⟨_, List.mem_of_getElem? hget, rfl⟩
  obtain ⟨first, rest, hspans⟩ := List.exists_cons_of_ne_nil (List.ne_nil_of_mem hmem)
  unfold Handle.whole?
  rw [hspans]
  rfl

/-- The range of a right side in which a symbol covers text. -/
theorem holds_whole (h : c.Lies r) (hi : (c.spans.getD i none).isSome = true) :
    r.Holds c.whole ∧ c.whole.stop = r.hi := by
  obtain ⟨whole, hwhole⟩ := Option.isSome_iff_exists.mp (isSome_whole? hi)
  unfold Handle.whole
  rw [hwhole]
  exact h.whole whole hwhole

/-- The region may be taken to begin earlier. -/
theorem mono {r' : Region} (h : c.Lies r) (hlo : r'.lo ≤ r.lo) (hhi : r'.hi = r.hi) :
    c.Lies r' where
  spans s hs := (h.spans s hs).mono ⟨hlo, Nat.le_of_eq hhi.symm⟩
  whole s hs := ⟨(h.whole s hs).1.mono ⟨hlo, Nat.le_of_eq hhi.symm⟩, (h.whole s hs).2.trans hhi.symm⟩
  last s hs := (h.last s hs).trans hhi.symm
  lookahead := hhi ▸ h.lookahead

end Handle.Lies

end AspectLang

/-! ## Extents of declarations

`CompilationUnit.ownerships` lists every owner with each of its members.  A declaration stands in
a region when it begins there, its name ends there, and all extents in it are nested; it ends
there when its last token does too and every owner in it contains its members.

What is kept of an abandoned unit has no extents but those of the nodes it was made from
(`Salvage.nested_ofNodes`). -/

namespace AspectLang

/-- Whether another declaration lies in the declaration. -/
def Extent.contains (owner member : Extent) : Bool :=
  owner.declaration.start ≤ member.declaration.start &&
    member.declaration.stop ≤ owner.declaration.stop

/-- The extent of a member itself. -/
def Member.extent : Member → Extent
  | .field f => f.extent
  | .method m => m.extent
  | .type t => t.extent
  | .initializer i => i.extent

mutual

/-- The owners in a type, each with one of its members, at every nesting. -/
def TypeDecl.ownerships : TypeDecl → List (Extent × Extent)
  | ⟨_, _, _, _, _, _, _, members, extent, _, _, _⟩ => memberOwnerships extent members

/-- An owner with each of its members, and the owners in these. -/
def memberOwnerships (owner : Extent) : List Member → List (Extent × Extent)
  | [] => []
  | m :: rest => (owner, m.extent) :: (m.ownerships ++ memberOwnerships owner rest)

/-- The owners in a member. -/
def Member.ownerships : Member → List (Extent × Extent)
  | .type t => t.ownerships
  | .field _ | .method _ | .initializer _ => []

end

/-- The owners in a unit, each with one of its members. -/
def CompilationUnit.ownerships (u : CompilationUnit) : List (Extent × Extent) :=
  u.types.flatMap TypeDecl.ownerships

theorem TypeDecl.extents_eq (t : TypeDecl) : t.extents = t.extent :: memberExtents t.members := by
  cases t
  rfl

theorem TypeDecl.ownerships_eq (t : TypeDecl) :
    t.ownerships = memberOwnerships t.extent t.members := by
  cases t
  rfl

theorem memberExtents_eq (members : List Member) :
    memberExtents members = members.flatMap Member.extents := by
  induction members with
  | nil => rfl
  | cons m rest ih => rw [memberExtents, ih, List.flatMap_cons]

theorem mem_memberOwnerships {owner : Extent} {members : List Member} {pair : Extent × Extent}
    (h : pair ∈ memberOwnerships owner members) :
    ∃ m ∈ members, pair = (owner, m.extent) ∨ pair ∈ m.ownerships := by
  induction members with
  | nil => cases h
  | cons m rest ih =>
      rw [memberOwnerships] at h
      rcases List.mem_cons.mp h with rfl | h
      · exact ⟨m, List.mem_cons_self, .inl rfl⟩
      · rcases List.mem_append.mp h with h | h
        · exact ⟨m, List.mem_cons_self, .inr h⟩
        · obtain ⟨m', hm', hpair⟩ := ih h
          exact ⟨m', List.mem_cons_of_mem m hm', hpair⟩

/-! ### Members in a region -/

/-- All extents of a member are nested. -/
def Member.Nested (m : Member) : Prop := ∀ e ∈ m.extents, e.nested = true

/-- Every owner in a member contains its members. -/
def Member.Owns (m : Member) : Prop := ∀ pair ∈ m.ownerships, pair.1.contains pair.2 = true

theorem Member.Nested.extent {m : Member} (h : m.Nested) : m.extent.nested = true := by
  refine h _ ?_
  cases m with
  | type t =>
      rw [Member.extents, t.extents_eq]
      exact List.mem_cons_self
  | field f | method f | initializer f => exact List.mem_singleton.mpr rfl

/-- A type is nested when its extent is and its members are. -/
theorem Member.nested_type {t : TypeDecl} (hextent : t.extent.nested = true)
    (hmembers : ∀ m ∈ t.members, m.Nested) : Member.Nested (.type t) := by
  intro e he
  rw [Member.extents, t.extents_eq] at he
  rcases List.mem_cons.mp he with rfl | he
  · exact hextent
  · rw [memberExtents_eq] at he
    obtain ⟨m, hm, he⟩ := List.mem_flatMap.mp he
    exact hmembers m hm e he

theorem Member.Nested.of_mem {t : TypeDecl} (h : Member.Nested (.type t)) {m : Member}
    (hm : m ∈ t.members) : m.Nested := by
  intro e he
  refine h e ?_
  rw [Member.extents, t.extents_eq, memberExtents_eq]
  exact List.mem_cons_of_mem _ (List.mem_flatMap.mpr ⟨m, hm, he⟩)

/-- A declaration without members is nested when its extent is. -/
theorem Member.nested_of_extents {m : Member} (hextents : m.extents = [m.extent])
    (h : m.extent.nested = true) : m.Nested := by
  intro e he
  rw [hextents] at he
  rw [List.mem_singleton.mp he]
  exact h

/-! ### Abandoned units -/

/-- The declaration that a node is, if it is one, is nested. -/
def Node.Nested (n : Node) : Prop := ∀ m ∈ n.member?, m.Nested

namespace Salvage

/-- All extents that were gathered are nested. -/
structure Nested (s : Salvage) : Prop where
  types : ∀ t ∈ s.unit.types, Member.Nested (.type t)
  openTypes : ∀ t ∈ s.openTypes, Member.Nested (.type t)
  openMethod : ∀ m ∈ s.openMethod, Member.Nested (.method m)

variable {s : Salvage} {m : Member} {t : TypeDecl}

theorem nested_addMember (ht : Member.Nested (.type t)) (hm : m.Nested) :
    Member.Nested (.type (addMember m t)) := by
  refine Member.nested_type ht.extent fun m' hm' => ?_
  rcases List.mem_append.mp hm' with hm' | hm'
  · exact ht.of_mem hm'
  · rw [List.mem_singleton.mp hm']
    exact hm

theorem Nested.place (h : s.Nested) (hm : m.Nested) : (s.place m).Nested := by
  unfold Salvage.place
  split
  · rename_i t outer htypes
    refine ⟨h.types, fun t' ht' => ?_, h.openMethod⟩
    rcases List.mem_cons.mp ht' with rfl | ht'
    · refine nested_addMember (h.openTypes t ?_) hm
      rw [htypes]
      exact List.mem_cons_self
    · refine h.openTypes t' ?_
      rw [htypes]
      exact List.mem_cons_of_mem t ht'
  · refine ⟨fun t' ht' => ?_, h.openTypes, h.openMethod⟩
    rcases List.mem_append.mp ht' with ht' | ht'
    · exact h.types t' ht'
    · rw [List.mem_singleton.mp ht']
      exact hm
  · exact h

theorem Nested.closeMethod (h : s.Nested) : s.closeMethod.Nested := by
  unfold Salvage.closeMethod
  split
  · exact h
  · rename_i method hmethod
    have hplace := h.place (h.openMethod method hmethod)
    refine ⟨hplace.types, hplace.openTypes, fun m hm => ?_⟩
    cases hm

theorem Nested.add (h : s.Nested) {n : Node} (hn : n.Nested) : (s.add n).Nested := by
  cases n with
  | package p => exact ⟨h.types, h.openTypes, h.openMethod⟩
  | importDecl i => exact ⟨h.types, h.openTypes, h.openMethod⟩
  | statement stmt =>
      refine ⟨h.types, h.openTypes, fun method hmethod => ?_⟩
      obtain ⟨before, hbefore, rfl⟩ := Option.map_eq_some_iff.mp hmethod
      exact h.openMethod before hbefore
  | type t =>
      change Nested (if t.isOpen then _ else _)
      split
      · refine ⟨h.closeMethod.types, fun t' ht' => ?_, h.closeMethod.openMethod⟩
        rcases List.mem_cons.mp ht' with rfl | ht'
        · exact hn _ rfl
        · exact h.closeMethod.openTypes t' ht'
      · exact h.place (hn _ rfl)
  | method method =>
      change Nested (if method.isOpen then _ else _)
      split
      · refine ⟨h.closeMethod.types, h.closeMethod.openTypes, fun m' hm' => ?_⟩
        obtain rfl := Option.some.inj hm'
        exact hn _ rfl
      · exact h.place (hn _ rfl)
  | field f => exact h.place (hn _ rfl)
  | initializer i => exact h.place (hn _ rfl)
  | parameter _ | catchClause _ | declarator _ | extraParameter _ | fragment _ => exact h

theorem nested_closeTypes {unit : CompilationUnit} {types : List TypeDecl}
    (hunit : ∀ t ∈ unit.types, Member.Nested (.type t))
    (htypes : ∀ t ∈ types, Member.Nested (.type t)) :
    ∀ t ∈ (closeTypes unit types).types, Member.Nested (.type t) := by
  fun_induction closeTypes unit types with
  | case1 => exact hunit
  | case2 last =>
      intro t ht
      rcases List.mem_append.mp ht with ht | ht
      · exact hunit t ht
      · exact htypes t ht
  | case3 inner outer rest ih =>
      refine ih fun t ht => ?_
      rcases List.mem_cons.mp ht with rfl | ht
      · exact nested_addMember (htypes outer (by simp)) (htypes inner (by simp))
      · exact htypes t (by simp [ht])

/-- What is kept of nodes whose declarations are nested is nested. -/
theorem nested_ofNodes {nodes : List Node} (h : ∀ n ∈ nodes, n.Nested) (span : Span) :
    ∀ e ∈ (ofNodes span nodes).extents, e.nested = true := by
  have hfold : ∀ s : Salvage, s.Nested → (nodes.foldl Salvage.add s).Nested := by
    induction nodes with
    | nil => exact fun _ hs => hs
    | cons n nodes ih =>
        intro s hs
        exact ih (fun n' hn' => h n' (List.mem_cons_of_mem n hn')) _
          (hs.add (h n List.mem_cons_self))
  have hstart : Nested { unit := ⟨none, [], [], span⟩ } := by
    refine ⟨fun t ht => ?_, fun t ht => ?_, fun m hm => ?_⟩
    · cases ht
    · cases ht
    · cases hm
  have hclosed := (hfold _ hstart).closeMethod
  intro e he
  obtain ⟨t, ht, he⟩ := List.mem_flatMap.mp he
  exact nested_closeTypes hclosed.types hclosed.openTypes t ht e he

end Salvage

end AspectLang
