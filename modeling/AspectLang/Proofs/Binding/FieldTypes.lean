import AspectLang.Proofs.Binding.WrittenTypes
import AspectLang.Proofs.Binding.Equivalence
import AspectLang.Proofs.Binding.DeclaredNames
import AspectLang.Proofs.Binding.SecondPass

/-! # Comparing types as they are written

Two types of free names are equal in both directions if and only if they are written the same up to
what resolving does not keep (`EnvironmentPair.alike_iff_kept`).  One direction is not enough: a
plain reference equals a parameterization of the same name.  The second pass gives every field such
a type (`Resolve.carried_spellsFields`), so the types of fields are told apart by how they are written, as
long as they have type arguments in last segments only (`written_types_compared`).  The arguments of
other segments are dropped by resolving, and a change of them is not seen
(`inner_arguments_unseen`). -/

namespace AspectLang

/-! ### Base types and segments -/

/-- The word of a base type by its number. -/
def baseWord : Nat → String
  | 2 => "char"
  | 3 => "byte"
  | 4 => "short"
  | 5 => "boolean"
  | 6 => "void"
  | 7 => "long"
  | 8 => "double"
  | 9 => "float"
  | 10 => "int"
  | 12 => "null"
  | _ => "<unknown>"

theorem baseWord_baseTypeId? (word : String) :
    baseWord ((baseTypeId? (baseName word)).getD 0) = baseName word := by
  unfold baseName
  cases hid : baseTypeId? word with
  | none => rfl
  | some id =>
      rw [Option.isSome_some, if_pos rfl, hid, Option.getD_some]
      unfold baseTypeId? at hid
      split at hid <;> cases hid <;> rfl

/-- Base types have different numbers. -/
theorem baseName_eq_iff {word word' : String} :
    (baseTypeId? (baseName word)).getD 0 = (baseTypeId? (baseName word')).getD 0 ↔
      baseName word = baseName word' := by
  refine ⟨fun h => ?_, fun h => by rw [h]⟩
  rw [← baseWord_baseTypeId? word, h, baseWord_baseTypeId?]

/-- The type arguments of the last segment. -/
def lastArguments : List TypeSegment → List TypeArgument
  | [] => []
  | [⟨_, arguments, _⟩] => arguments
  | _ :: rest => lastArguments rest

theorem spellsArguments_of_spellsLast {e : Environment} : (segments : List TypeSegment) →
    (ids : List TypeId) → e.SpellsLast segments ids →
      e.SpellsArguments (lastArguments segments) ids
  | [], _, h => by
    unfold Environment.SpellsLast at h
    unfold lastArguments Environment.SpellsArguments
    exact h
  | [⟨_, arguments, _⟩], ids, h => by
    unfold Environment.SpellsLast at h
    exact h
  | ⟨_, _, _⟩ :: next :: rest, ids, h => by
    unfold Environment.SpellsLast at h
    exact spellsArguments_of_spellsLast (next :: rest) ids h

theorem names_keptSegments (ss : List TypeSegment) :
    (keptSegments ss).map TypeSegment.name = ss.map TypeSegment.name := by
  induction ss with
  | nil =>
      unfold keptSegments
      rfl
  | cons s rest ih =>
      obtain ⟨name, arguments, span⟩ := s
      cases rest with
      | nil =>
          unfold keptSegments
          rfl
      | cons next rest =>
          unfold keptSegments
          exact congrArg (name :: ·) ih

theorem lastArguments_keptSegments (ss : List TypeSegment) :
    lastArguments (keptSegments ss) = keptArguments (lastArguments ss) := by
  induction ss with
  | nil =>
      unfold keptSegments lastArguments keptArguments
      rfl
  | cons s rest ih =>
      obtain ⟨name, arguments, span⟩ := s
      cases rest with
      | nil =>
          unfold keptSegments
          rfl
      | cons next rest =>
          have hnames := names_keptSegments (next :: rest)
          unfold keptSegments
          cases hkept : keptSegments (next :: rest) with
          | nil =>
              rw [hkept] at hnames
              cases hnames
          | cons s more =>
              rw [hkept] at ih
              exact ih

/-- What is kept of segments are their words and the arguments of the last one. -/
theorem keptSegments_eq_iff (ss ss' : List TypeSegment) : keptSegments ss = keptSegments ss' ↔
    ss.map TypeSegment.name = ss'.map TypeSegment.name ∧
      keptArguments (lastArguments ss) = keptArguments (lastArguments ss') := by
  constructor
  · intro h
    rw [← names_keptSegments ss, ← names_keptSegments ss', ← lastArguments_keptSegments,
      ← lastArguments_keptSegments, h]
    exact ⟨rfl, rfl⟩
  · rintro ⟨hnames, hlast⟩
    induction ss generalizing ss' with
    | nil =>
        obtain rfl := List.map_eq_nil_iff.mp hnames.symm
        rfl
    | cons s rest ih =>
        cases ss' with
        | nil => cases hnames
        | cons s' rest' =>
            obtain ⟨name, arguments, _⟩ := s
            obtain ⟨name', arguments', _⟩ := s'
            obtain ⟨hname, hrest⟩ := List.cons.inj hnames
            obtain rfl : name = name' := hname
            cases rest with
            | nil =>
                obtain rfl := List.map_eq_nil_iff.mp hrest.symm
                unfold keptSegments
                rw [show keptArguments arguments = keptArguments arguments' from hlast]
            | cons next rest =>
                cases rest' with
                | nil => cases hrest
                | cons next' rest' =>
                    unfold keptSegments
                    rw [ih (next' :: rest') hrest hlast]

/-! ### Forms of types -/

/-- The forms of types that no rule mixes. -/
inductive TypeForm where
  | base | array | wildcard | variable | reference
deriving DecidableEq

namespace TypeBinding

/-- The form of a type; declared or not, with arguments or raw, a class or interface has one. -/
def form : TypeBinding → TypeForm
  | .base .. => .base
  | .array .. => .array
  | .wildcard .. => .wildcard
  | .typeVariable _ | .capture .. => .variable
  | .parameterized .. | .generic _ | .raw _ | .reference _ => .reference

theorem Spells.form_ne {words : List String} {arguments : List TypeId} {b : TypeBinding}
    (h : b.Spells words arguments) (f : TypeForm) (hf : f ≠ .reference) : b.form ≠ f := by
  cases h <;> exact hf.symm

end TypeBinding

/-- A type as it is written is no wildcard. -/
theorem Environment.Spells.exists_form {e : Environment} {t : TypeRef} {id : TypeId}
    (h : e.Spells t id) : ∃ b, e.types[id]? = some b ∧ b.form ≠ .wildcard := by
  obtain ⟨segments, dims, primitive, span⟩ := t
  obtain ⟨leaf, b, hdims, hleaf, hb⟩ : ∃ leaf b, e.HasDims dims leaf id ∧
      e.types[leaf]? = some b ∧ b.form ≠ .wildcard := by
    cases primitive with
    | true =>
        obtain ⟨leaf, hdims, hleaf⟩ := h
        exact ⟨leaf, _, hdims, hleaf, nofun⟩
    | false =>
        obtain ⟨leaf, arguments, b, hdims, hleaf, hb, _⟩ := h
        exact ⟨leaf, b, hdims, hleaf, hb.form_ne _ nofun⟩
  cases hdims with
  | none => exact ⟨b, hleaf, hb⟩
  | array _ harray => exact ⟨_, harray, nofun⟩

theorem Environment.SpellsArgument.exists_wildcard {e : Environment} {kind : WildcardKind}
    {bound : Option TypeRef} {span : Span} {id : TypeId}
    (h : e.SpellsArgument (.wildcard kind bound span) id) :
    ∃ x, e.types[id]? = some (.wildcard kind x) := by
  cases bound with
  | none => exact ⟨none, h⟩
  | some bound =>
      obtain ⟨x, hx, _⟩ := h
      exact ⟨some x, hx⟩

theorem kept_type_ne_wildcard (t : TypeRef) (kind : WildcardKind) (bound : Option TypeRef)
    (span : Span) : (TypeArgument.type t).kept ≠ (TypeArgument.wildcard kind bound span).kept := by
  cases bound <;> unfold TypeArgument.kept <;> nofun

namespace EnvironmentPair

variable {p : EnvironmentPair} {l r : TypeId} {a b : TypeBinding}

/-- Two types are equal if and only if they are so by a rule. -/
theorem equal_iff_steps : p.Equal l r ↔ p.Steps p.Equal l r := by
  have hsteps : ∀ x y, p.Equal x y → p.Steps p.Equal x y := by
    rintro x y ⟨R, hxy, hR⟩
    exact (hR x y hxy).mono fun u v huv => ⟨R, huv, hR⟩
  exact ⟨hsteps l r, fun h => ⟨p.Steps p.Equal, h, fun x y hxy => hxy.mono hsteps⟩⟩

theorem equal_iff_rule (ha : p.left.types[l]? = some a) (hb : p.right.types[r]? = some b) :
    p.Equal l r ↔ TypeRule p p.Equal a b := by
  rw [equal_iff_steps]
  refine ⟨fun ⟨a', b', ha', hb', hrule⟩ => ?_, fun hrule => ⟨a, b, ha, hb, hrule⟩⟩
  rw [ha] at ha'
  rw [hb] at hb'
  cases ha'
  cases hb'
  exact hrule

/-- Two types are equal from either side. -/
def Alike (p : EnvironmentPair) (l r : TypeId) : Prop := p.Equal l r ∧ p.swap.Equal r l

theorem alike_iff (ha : p.left.types[l]? = some a) (hb : p.right.types[r]? = some b) :
    p.Alike l r ↔ TypeRule p p.Equal a b ∧ TypeRule p.swap p.swap.Equal b a :=
  and_congr (equal_iff_rule ha hb) (equal_iff_rule hb ha)

theorem forall₂_alike {ls rs : List TypeId} : List.Forall₂ p.Alike ls rs ↔
    List.Forall₂ p.Equal ls rs ∧ List.Forall₂ p.swap.Equal rs ls := by
  induction ls generalizing rs with
  | nil =>
      cases rs with
      | nil => simp
      | cons r rs => simp
  | cons l ls ih =>
      cases rs with
      | nil => simp
      | cons r rs =>
          rw [List.forall₂_cons, List.forall₂_cons, List.forall₂_cons, ih]
          exact and_and_and_comm

theorem optionRel_alike {x y : Option TypeId} : Option.Rel p.Alike x y ↔
    Option.Rel p.Equal x y ∧ Option.Rel p.swap.Equal y x := by
  cases x with
  | none =>
      cases y with
      | none => exact ⟨fun _ => ⟨.none, .none⟩, fun _ => .none⟩
      | some r => exact ⟨nofun, nofun⟩
  | some l =>
      cases y with
      | none => exact ⟨nofun, nofun⟩
      | some r => exact Option.rel_some_some.trans (and_congr Option.rel_some_some.symm
          Option.rel_some_some.symm)

/-! ### Rules for types of one form -/

section

variable {R : TypeId → TypeId → Prop}

theorem rule_base_iff {id id' : Nat} {name name' : String} :
    TypeRule p R (.base id name) (.base id' name') ↔ id = id' := by
  constructor
  · intro h
    cases h with
    | base => rfl
    | default hl => rcases hl with hl | hl <;> cases hl
  · rintro rfl
    exact .base ..

theorem rule_array_iff {leaf leaf' : TypeId} {dims dims' : Nat} :
    TypeRule p R (.array leaf dims) (.array leaf' dims') ↔ dims = dims' ∧ R leaf leaf' := by
  constructor
  · intro h
    cases h with
    | array _ hleaf => exact ⟨rfl, hleaf⟩
    | default hl => rcases hl with hl | hl <;> cases hl
  · rintro ⟨rfl, hleaf⟩
    exact .array _ hleaf

theorem rule_wildcard_iff {kind kind' : WildcardKind} {bound bound' : Option TypeId} :
    TypeRule p R (.wildcard kind bound) (.wildcard kind' bound') ↔
      kind = kind' ∧ Option.Rel R bound bound' := by
  constructor
  · intro h
    cases h with
    | wildcard _ hbound => exact ⟨rfl, hbound⟩
    | default hl => rcases hl with hl | hl <;> cases hl
  · rintro ⟨rfl, hbound⟩
    exact .wildcard _ hbound

theorem rule_parameterized_iff {x y : ReferenceBinding} {generic generic' : Option TypeId}
    {arguments arguments' : List TypeId} :
    TypeRule p R (.parameterized x generic arguments) (.parameterized y generic' arguments') ↔
      SameReference x y ∧ List.Forall₂ R arguments arguments' := by
  constructor
  · intro h
    cases h with
    | parameterized hsame harguments => exact ⟨hsame, harguments⟩
    | default hl => rcases hl with hl | hl <;> cases hl
  · rintro ⟨hsame, harguments⟩
    exact .parameterized hsame harguments

/-- A reference may equal a parameterization, but never the other way round. -/
theorem not_rule_parameterized_reference {x y : ReferenceBinding} {generic : Option TypeId}
    {arguments : List TypeId} :
    ¬ TypeRule p R (.parameterized x generic arguments) (.reference y) := by
  intro h
  cases h with
  | default hl => rcases hl with hl | hl <;> cases hl

/-- A rule is about two types of one form. -/
theorem TypeRule.form_eq (h : TypeRule p R a b) : a.form = b.form := by
  cases h with
  | default hl hr =>
      have hright : b.form = .reference := by
        cases b with
        | parameterized | generic | raw | reference => rfl
        | _ => cases hr
      rcases hl with rfl | rfl <;> exact hright.symm
  | _ => rfl

end

/-! ### Types that are written differently -/

/-- Types of different forms are not alike. -/
theorem not_alike_of_form (ha : p.left.types[l]? = some a) (hb : p.right.types[r]? = some b)
    (hform : a.form ≠ b.form) : ¬ p.Alike l r := by
  rw [alike_iff ha hb]
  exact fun h => hform h.1.form_eq

/-- Types with dimensions are alike if and only if they have as many, of types that are alike. -/
theorem alike_hasDims {dims dims' : Nat} {leaf leaf' : TypeId}
    (h : p.left.HasDims dims leaf l) (h' : p.right.HasDims dims' leaf' r)
    (ha : p.left.types[leaf]? = some a) (harray : a.form ≠ .array)
    (hb : p.right.types[leaf']? = some b) (harray' : b.form ≠ .array) :
    p.Alike l r ↔ dims = dims' ∧ p.Alike leaf leaf' := by
  cases h with
  | none =>
      cases h' with
      | none => simp
      | array hdims hr =>
          exact iff_of_false (not_alike_of_form ha hr harray) fun h => hdims h.1.symm
  | array hdims hl =>
      cases h' with
      | none => exact iff_of_false (not_alike_of_form hl hb harray'.symm) fun h => hdims h.1
      | array hdims' hr =>
          rw [alike_iff hl hr, rule_array_iff, rule_array_iff]
          constructor
          · rintro ⟨⟨rfl, hleaf⟩, _, hleaf'⟩
            exact ⟨rfl, hleaf, hleaf'⟩
          · rintro ⟨rfl, hleaf, hleaf'⟩
            exact ⟨⟨rfl, hleaf⟩, rfl, hleaf'⟩

theorem alike_base {word word' : String}
    (ha : p.left.types[l]? = some (baseBinding (baseName word)))
    (hb : p.right.types[r]? = some (baseBinding (baseName word'))) :
    p.Alike l r ↔ baseName word = baseName word' := by
  rw [alike_iff ha hb, ← baseName_eq_iff]
  unfold baseBinding
  rw [rule_base_iff, rule_base_iff]
  exact ⟨fun h => h.1, fun h => ⟨h, h.symm⟩⟩

/-- Types without dimensions are alike if and only if they have the same words and arguments that
are alike. -/
theorem alike_spells {words words' : List String} {arguments arguments' : List TypeId}
    (ha : p.left.types[l]? = some a) (hwords : a.Spells words arguments)
    (hb : p.right.types[r]? = some b) (hwords' : b.Spells words' arguments') :
    p.Alike l r ↔ words = words' ∧ List.Forall₂ p.Alike arguments arguments' := by
  rw [alike_iff ha hb, forall₂_alike]
  cases hwords with
  | @plain x hx =>
      cases hwords' with
      | @plain y hy =>
          have hxname : x.name = words := congrArg ReferenceBinding.name hx
          have hyname : y.name = words' := congrArg ReferenceBinding.name hy
          constructor
          · rintro ⟨hrule, _⟩
            obtain ⟨z, hz, hsame, _⟩ := hrule.default_inv (.inr rfl)
            cases hz
            exact ⟨by rw [← hxname, hsame.name, hyname], .nil, .nil⟩
          · rintro ⟨rfl, _⟩
            have hbare : x.bare = y.bare := hx.trans hy.symm
            have hmodifiers : x.modifiers = y.modifiers :=
              show x.bare.modifiers = y.bare.modifiers by rw [hbare]
            have hpool : x.poolName = y.poolName :=
              show x.bare.poolName = y.bare.poolName by rw [hbare]
            have hsame : SameReference x y := ⟨hxname.trans hyname.symm, by rw [hmodifiers]⟩
            exact ⟨.default (.inr rfl) rfl hsame hpool rfl rfl,
              .default (.inr rfl) rfl hsame.symm hpool.symm rfl rfl⟩
      | parameterized hne =>
          exact iff_of_false (fun h => not_rule_parameterized_reference h.2)
            fun h => hne (List.forall₂_nil_left_iff.mp h.2.1)
  | parameterized hne =>
      cases hwords' with
      | plain =>
          exact iff_of_false (fun h => not_rule_parameterized_reference h.1)
            fun h => hne (List.forall₂_nil_right_iff.mp h.2.1)
      | parameterized =>
          rw [rule_parameterized_iff, rule_parameterized_iff]
          constructor
          · rintro ⟨⟨hsame, harguments⟩, _, harguments'⟩
            exact ⟨hsame.name, harguments, harguments'⟩
          · rintro ⟨rfl, harguments, harguments'⟩
            exact ⟨⟨⟨rfl, rfl⟩, harguments⟩, ⟨rfl, rfl⟩, harguments'⟩

/-- Wildcards are alike if and only if they are of one kind, with bounds that are alike. -/
theorem alike_wildcard {kind kind' : WildcardKind} {bound bound' : Option TypeId}
    (ha : p.left.types[l]? = some (.wildcard kind bound))
    (hb : p.right.types[r]? = some (.wildcard kind' bound')) :
    p.Alike l r ↔ kind = kind' ∧ Option.Rel p.Alike bound bound' := by
  rw [alike_iff ha hb, optionRel_alike, rule_wildcard_iff, rule_wildcard_iff]
  constructor
  · rintro ⟨⟨rfl, hbound⟩, _, hbound'⟩
    exact ⟨rfl, hbound, hbound'⟩
  · rintro ⟨rfl, hbound, hbound'⟩
    exact ⟨⟨rfl, hbound⟩, rfl, hbound'⟩

theorem alike_nil {as' : List TypeArgument} {ids' : List TypeId}
    (h' : p.right.SpellsArguments as' ids') :
    List.Forall₂ p.Alike [] ids' ↔ keptArguments [] = keptArguments as' := by
  rw [List.forall₂_nil_left_iff]
  cases as' with
  | nil => exact iff_of_true h' rfl
  | cons a' rest' =>
      obtain ⟨id', more', rfl, _⟩ := h'
      unfold keptArguments
      exact iff_of_false nofun nofun

mutual

/-- **Types of free names are alike if and only if they are written the same**, up to what resolving
does not keep. -/
theorem alike_iff_kept : (t t' : TypeRef) → (l r : TypeId) → p.left.Spells t l →
    p.right.Spells t' r → (p.Alike l r ↔ t.kept = t'.kept)
  | ⟨segments, dims, true, _⟩, ⟨segments', dims', true, _⟩, l, r, h, h' => by
    unfold Environment.Spells at h h'
    obtain ⟨leaf, hdims, hleaf⟩ := h
    obtain ⟨leaf', hdims', hleaf'⟩ := h'
    rw [alike_hasDims hdims hdims' hleaf nofun hleaf' nofun, alike_base hleaf hleaf']
    unfold TypeRef.kept
    simp only [TypeRef.mk.injEq, List.cons.injEq, TypeSegment.mk.injEq, and_true]
    exact and_comm
  | ⟨segments, dims, true, _⟩, ⟨segments', dims', false, _⟩, l, r, h, h' => by
    unfold Environment.Spells at h h'
    obtain ⟨leaf, hdims, hleaf⟩ := h
    obtain ⟨leaf', arguments', b, hdims', hleaf', hb, _⟩ := h'
    rw [alike_hasDims hdims hdims' hleaf nofun hleaf' (hb.form_ne _ nofun)]
    unfold TypeRef.kept
    exact iff_of_false (fun h => not_alike_of_form hleaf hleaf' (hb.form_ne .base nofun).symm h.2)
      fun h => Bool.noConfusion (TypeRef.mk.inj h).2.2.1
  | ⟨segments, dims, false, _⟩, ⟨segments', dims', true, _⟩, l, r, h, h' => by
    unfold Environment.Spells at h h'
    obtain ⟨leaf, arguments, a, hdims, hleaf, ha, _⟩ := h
    obtain ⟨leaf', hdims', hleaf'⟩ := h'
    rw [alike_hasDims hdims hdims' hleaf (ha.form_ne _ nofun) hleaf' nofun]
    unfold TypeRef.kept
    exact iff_of_false (fun h => not_alike_of_form hleaf hleaf' (ha.form_ne _ nofun) h.2)
      fun h => Bool.noConfusion (TypeRef.mk.inj h).2.2.1
  | ⟨segments, dims, false, _⟩, ⟨segments', dims', false, _⟩, l, r, h, h' => by
    unfold Environment.Spells at h h'
    obtain ⟨leaf, arguments, a, hdims, hleaf, ha, hlast⟩ := h
    obtain ⟨leaf', arguments', b, hdims', hleaf', hb, hlast'⟩ := h'
    rw [alike_hasDims hdims hdims' hleaf (ha.form_ne _ nofun) hleaf' (hb.form_ne _ nofun),
      alike_spells hleaf ha hleaf' hb,
      alike_last segments (lastArguments segments') arguments arguments' hlast
        (spellsArguments_of_spellsLast segments' arguments' hlast'), ← keptSegments_eq_iff]
    unfold TypeRef.kept
    simp only [TypeRef.mk.injEq, and_true]
    exact and_comm

theorem alike_last : (segments : List TypeSegment) → (as' : List TypeArgument) →
    (ids ids' : List TypeId) → p.left.SpellsLast segments ids → p.right.SpellsArguments as' ids' →
      (List.Forall₂ p.Alike ids ids' ↔ keptArguments (lastArguments segments) = keptArguments as')
  | [], as', ids, ids', h, h' => by
    unfold Environment.SpellsLast at h
    subst h
    exact alike_nil h'
  | [⟨_, arguments, _⟩], as', ids, ids', h, h' => by
    unfold Environment.SpellsLast at h
    exact alike_arguments arguments as' ids ids' h h'
  | ⟨_, _, _⟩ :: next :: rest, as', ids, ids', h, h' => by
    unfold Environment.SpellsLast at h
    exact alike_last (next :: rest) as' ids ids' h h'

theorem alike_arguments : (as as' : List TypeArgument) → (ids ids' : List TypeId) →
    p.left.SpellsArguments as ids → p.right.SpellsArguments as' ids' →
      (List.Forall₂ p.Alike ids ids' ↔ keptArguments as = keptArguments as')
  | [], as', ids, ids', h, h' => by
    unfold Environment.SpellsArguments at h
    subst h
    exact alike_nil h'
  | a :: rest, [], ids, ids', h, h' => by
    unfold Environment.SpellsArguments at h h'
    obtain ⟨id, more, rfl, _⟩ := h
    subst h'
    unfold keptArguments
    exact iff_of_false nofun nofun
  | a :: rest, a' :: rest', ids, ids', h, h' => by
    unfold Environment.SpellsArguments at h h'
    obtain ⟨id, more, rfl, hid, hmore⟩ := h
    obtain ⟨id', more', rfl, hid', hmore'⟩ := h'
    unfold keptArguments
    rw [List.forall₂_cons, List.cons.injEq, alike_argument a a' id id' hid hid',
      alike_arguments rest rest' more more' hmore hmore']

theorem alike_argument : (a a' : TypeArgument) → (l r : TypeId) → p.left.SpellsArgument a l →
    p.right.SpellsArgument a' r → (p.Alike l r ↔ a.kept = a'.kept)
  | .type t, .type t', l, r, h, h' => by
    unfold Environment.SpellsArgument at h h'
    unfold TypeArgument.kept
    rw [TypeArgument.type.injEq]
    exact alike_iff_kept t t' l r h h'
  | .type t, .wildcard kind' bound' _, l, r, h, h' => by
    obtain ⟨a, ha, hform⟩ := h.exists_form
    obtain ⟨x', hx'⟩ := h'.exists_wildcard
    exact iff_of_false (not_alike_of_form ha hx' hform) (kept_type_ne_wildcard t kind' bound' _)
  | .wildcard kind bound _, .type t', l, r, h, h' => by
    obtain ⟨x, hx⟩ := h.exists_wildcard
    obtain ⟨b, hb, hform⟩ := h'.exists_form
    exact iff_of_false (not_alike_of_form hx hb hform.symm)
      (kept_type_ne_wildcard t' kind bound _).symm
  | .wildcard kind none _, .wildcard kind' none _, l, r, h, h' => by
    unfold Environment.SpellsArgument at h h'
    unfold TypeArgument.kept
    rw [alike_wildcard h h', TypeArgument.wildcard.injEq]
    simp
  | .wildcard kind none _, .wildcard kind' (some bound') _, l, r, h, h' => by
    unfold Environment.SpellsArgument at h h'
    obtain ⟨x', hx', _⟩ := h'
    unfold TypeArgument.kept
    rw [alike_wildcard h hx', TypeArgument.wildcard.injEq]
    simp
  | .wildcard kind (some bound) _, .wildcard kind' none _, l, r, h, h' => by
    unfold Environment.SpellsArgument at h h'
    obtain ⟨x, hx, _⟩ := h
    unfold TypeArgument.kept
    rw [alike_wildcard hx h', TypeArgument.wildcard.injEq]
    simp
  | .wildcard kind (some bound) _, .wildcard kind' (some bound') _, l, r, h, h' => by
    unfold Environment.SpellsArgument at h h'
    obtain ⟨x, hx, hbound⟩ := h
    obtain ⟨x', hx', hbound'⟩ := h'
    unfold TypeArgument.kept
    rw [alike_wildcard hx hx', TypeArgument.wildcard.injEq, Option.rel_some_some,
      alike_iff_kept bound bound' x x' hbound hbound']
    simp

end

end EnvironmentPair

/-! ### The second pass -/

namespace Environment

/-- A field of a type of free names became a field with a type that spells it. -/
def SpellsField (e : Environment) (unit : CompilationUnit) (x : Site × TypeId × FieldDecl)
    (f : FieldBinding) : Prop :=
  x.2.2.type.isFree unit x.1 = true → ∃ id, f.type = some id ∧ e.Spells x.2.2.type id

/-- The fields of an environment are those of some types, with types that spell theirs. -/
def SpellsFields (e : Environment) (unit : CompilationUnit) (entries : List (Site × TypeDecl)) :
    Prop := List.Forall₂ (e.SpellsField unit) (fieldSites entries) e.fields.toList

variable {e e' : Environment} {unit : CompilationUnit}

theorem SpellsField.later {x : Site × TypeId × FieldDecl} {f : FieldBinding}
    (h : e.SpellsField unit x f) (he : e.Revised e') : e'.SpellsField unit x f := by
  intro hfree
  obtain ⟨id, hid, hspells⟩ := h hfree
  exact ⟨id, hid, hspells.later _ _ he⟩

end Environment

namespace Resolve

variable {unit : CompilationUnit} {p : Site} {r r' r'' : Resolver}

/-- From one moment to a later one fields were resolved, and the scopes are the same again. -/
structure Logs (unit : CompilationUnit) (p : Site) (fields : List (Site × TypeId × FieldDecl))
    (r r' : Resolver) : Prop where
  sees : r'.Sees unit p
  scopes : r'.scopes = r.scopes
  revised : r.env.Revised r'.env
  fields : ∃ more, r'.env.fields.toList = r.env.fields.toList ++ more ∧
    List.Forall₂ (r'.env.SpellsField unit) fields more

theorem Logs.of_steady (h : r.Sees unit p) (hr : r.Steady r') : Logs unit p [] r r' :=
  ⟨h.later hr, hr.scopes, hr.revised, [], by rw [hr.fields, List.append_nil], .nil⟩

theorem Logs.trans {fields fields' : List (Site × TypeId × FieldDecl)}
    (h : Logs unit p fields r r') (h' : Logs unit p fields' r' r'') :
    Logs unit p (fields ++ fields') r r'' where
  sees := h'.sees
  scopes := h'.scopes.trans h.scopes
  revised := h.revised.trans h'.revised
  fields := by
    obtain ⟨more, hmore, hspells⟩ := h.fields
    obtain ⟨more', hmore', hspells'⟩ := h'.fields
    refine ⟨more ++ more', by rw [hmore', hmore, List.append_assoc], List.rel_append ?_ hspells'⟩
    exact hspells.imp fun _ _ hspell => hspell.later h'.revised

theorem logs_resolveField (owner : TypeId) (f : FieldDecl) (h : r.Sees unit p) :
    Logs unit p [(p, owner, f)] r (resolveField owner f r).2 := by
  have hsteady := steady_resolveType f.type r
  have hadded : (resolveType f.type r).2.env.Revised (resolveField owner f r).2.env :=
    .of_types rfl
  have hsees := h.later hsteady
  exact {
    sees := ⟨hsees.declared, hsees.imported, hsees.scopes, fun name type hmem =>
      hadded.of_some (hsees.base name type hmem) rfl⟩
    scopes := hsteady.scopes
    revised := hsteady.revised.trans hadded
    fields := by
      refine ⟨[{ name := f.name
                 modifiers := f.modifiers
                 type := some (resolveType f.type r).1
                 declaringClass := some owner }], ?_, .cons (fun hfree => ?_) .nil⟩
      · rw [← hsteady.fields]
        exact Array.toList_push
      · exact ⟨_, rfl, (spells_resolveType f.type r h hfree).later _ _ hadded⟩ }

theorem logs_forM (owner : TypeId) (fields : List FieldDecl) (h : r.Sees unit p) :
    Ends r (fields.forM (resolveField owner)) fun _ r' =>
      Logs unit p (fields.map fun f => (p, owner, f)) r r' := by
  induction fields generalizing r with
  | nil => exact .of_steady h (.refl r)
  | cons f fields ih =>
      have hhead := logs_resolveField owner f h
      exact hhead.trans (ih hhead.sees)

/-- The fields of a declared type are resolved in the scope that its type parameters open. -/
theorem spells_resolveHeader {outer : Site} {done : List (Site × TypeDecl)} (t : TypeDecl)
    (h : r.Sees unit outer) (hspells : r.env.SpellsFields unit done) :
    Ends r (resolveHeader done.length t) fun _ r' =>
      r'.Sees unit (outer.within t.name t.typeParameters) ∧ r'.scopes.tail = r.scopes ∧
        r'.env.SpellsFields unit (done ++ [(outer.within t.name t.typeParameters, t)]) := by
  let inner := outer.within t.name t.typeParameters
  obtain ⟨scope, hscope, h₁⟩ := steady_bindTypeParameters t.typeParameters (.type done.length) r
  have hsees : Resolver.Sees unit inner { r with scopes := scope :: r.scopes } := by
    refine ⟨h.declared, h.imported, fun s hs entry hentry => ?_, h.base⟩
    rcases List.mem_cons.mp hs with rfl | hs
    · exact List.mem_append_left _ (hscope entry hentry)
    · exact List.mem_append_right _ (h.scopes s hs entry hentry)
  refine .bind (P := fun _ r₁ => Resolver.Steady { r with scopes := scope :: r.scopes } r₁) h₁ ?_
  rintro typeVariables r₁ h₁
  refine .bind (P := fun _ r₂ => r₁.Steady r₂) (steady_resolveOptional t.superclass r₁) ?_
  rintro superclass r₂ h₂
  refine .bind (P := fun _ r₃ => r₂.Steady r₃) (steady_mapM steady_resolveType t.interfaces r₂) ?_
  rintro interfaces r₃ h₃
  refine .bind (P := fun _ r₄ => r₃.Steady r₄)
    (steady_setSupertypes done.length superclass interfaces typeVariables r₃) ?_
  rintro _ r₄ h₄
  have hheader := Logs.of_steady hsees (((h₁.trans h₂).trans h₃).trans h₄)
  refine .bind (logs_forM done.length t.fields hheader.sees) ?_
  rintro _ r₅ h₅
  have h₆ := Logs.of_steady h₅.sees (steady_forM (steady_resolveMethod done.length) t.methods r₅)
  have hall := (hheader.trans h₅).trans h₆
  rw [List.nil_append, List.append_nil] at hall
  obtain ⟨more, hmore, hnew⟩ := hall.fields
  refine ⟨hall.sees, congrArg List.tail hall.scopes, ?_⟩
  unfold Environment.SpellsFields
  rw [fieldSites_append, hmore, ← List.map_eq_flatMap]
  exact List.rel_append (hspells.imp fun _ _ hspell => hspell.later hall.revised) hnew

theorem carried_spellsFields :
    Carried unit fun p done r => r.Sees unit p ∧ r.env.SpellsFields unit done where
  header := by
    rintro outer done todo t r - ⟨hsees, hspells⟩
    have hstart : Resolver.Sees unit outer { r with pending := r.pending.tail } :=
      ⟨hsees.declared, hsees.imported, hsees.scopes, hsees.base⟩
    exact (spells_resolveHeader t hstart hspells).mono fun _ _ h => ⟨h.2.1, h.1, h.2.2⟩
  close := by
    rintro outer inner done done' r r' ⟨hsees, -⟩ ⟨hsees', hspells⟩ hscopes
    refine ⟨⟨hsees'.declared, hsees'.imported, fun scope hscope => ?_, hsees'.base⟩, hspells⟩
    exact hsees.scopes scope (hscopes ▸ hscope)

/-! ### A whole unit -/

mutual

/-- The first pass takes neither the imports away nor meets base types. -/
theorem tables_declareAll : (t : TypeDecl) → (outer : List String) → (r : Resolver) →
    (declareAll outer t r).2.imported = r.imported ∧ (declareAll outer t r).2.base = r.base
  | ⟨_, name, _, _, _, _, _, members, _, _, _, _⟩, outer, r => by
    unfold declareAll
    exact tables_declareMembers members (outer ++ [name]) _

theorem tables_declareMembers : (members : List Member) → (outer : List String) →
    (r : Resolver) → (declareMembers outer members r).2.imported = r.imported ∧
      (declareMembers outer members r).2.base = r.base
  | [], _, _ => by
    unfold declareMembers
    exact ⟨rfl, rfl⟩
  | .type t :: rest, outer, r => by
    unfold declareMembers
    obtain ⟨himported, hbase⟩ := tables_declareAll t outer r
    obtain ⟨himported', hbase'⟩ := tables_declareMembers rest outer (declareAll outer t r).2
    exact ⟨himported'.trans himported, hbase'.trans hbase⟩
  | .field _ :: rest, outer, r => by
    unfold declareMembers
    exact tables_declareMembers rest outer r
  | .method _ :: rest, outer, r => by
    unfold declareMembers
    exact tables_declareMembers rest outer r
  | .initializer _ :: rest, outer, r => by
    unfold declareMembers
    exact tables_declareMembers rest outer r

end

theorem tables_forM (types : List TypeDecl) (outer : List String) (r : Resolver) :
    (types.forM (declareAll outer) r).2.imported = r.imported ∧
      (types.forM (declareAll outer) r).2.base = r.base := by
  induction types generalizing r with
  | nil => exact ⟨rfl, rfl⟩
  | cons t types ih =>
      obtain ⟨himported, hbase⟩ := tables_declareAll t outer r
      obtain ⟨himported', hbase'⟩ := ih (declareAll outer t r).2
      exact ⟨himported'.trans himported, hbase'.trans hbase⟩

end Resolve

namespace CompilationUnit

theorem sees_firstPass (unit : CompilationUnit) : unit.firstPass.Sees unit ⟨[], []⟩ := by
  obtain ⟨himported, hbase⟩ : unit.firstPass.imported = Resolve.singleImports unit ∧
      unit.firstPass.base = [] := Resolve.tables_forM unit.types unit.packageWords unit.start
  refine ⟨unit.declared_firstPass, himported, fun scope hscope => ?_, fun name type hmem => ?_⟩
  · have hnone : unit.firstPass.scopes = [] := unit.named_firstPass.scopes
    rw [hnone] at hscope
    cases hscope
  · rw [hbase] at hmem
    cases hmem

/-- **The fields of a unit have types that spell theirs**, where these are of free names. -/
theorem resolve_spellsFields (unit : CompilationUnit) :
    unit.resolve.SpellsFields unit unit.sites := by
  have hfields : unit.firstPass.env.SpellsFields unit [] := by
    have hnone : unit.firstPass.env.fields.toList = [] :=
      List.map_eq_nil_iff.mp unit.progress_firstPass.fields
    unfold Environment.SpellsFields
    rw [hnone]
    exact .nil
  obtain ⟨r, hr, -, hspells⟩ :=
    Resolve.carried_spellsFields.of_firstPass ⟨unit.sees_firstPass, hfields⟩
  rwa [hr] at hspells

end CompilationUnit

/-- The type of a field of an environment. -/
def Environment.fieldType? (e : Environment) (k : FieldId) : Option TypeId :=
  e.fields[k]?.bind FieldBinding.type

theorem CompilationUnit.exists_fieldType? (unit : CompilationUnit) {k : FieldId}
    {x : Site × TypeId × FieldDecl} (hx : (fieldSites unit.sites)[k]? = some x)
    (hfree : x.2.2.type.isFree unit x.1 = true) :
    ∃ id, unit.resolve.fieldType? k = some id ∧ unit.resolve.Spells x.2.2.type id := by
  have hspells := unit.resolve_spellsFields
  obtain ⟨hsite, rfl⟩ := List.getElem?_eq_some_iff.mp hx
  have hk : k < unit.resolve.fields.toList.length := List.Forall₂.length_eq hspells ▸ hsite
  have hfield : unit.resolve.SpellsField unit (fieldSites unit.sites)[k]
      unit.resolve.fields.toList[k] := (List.forall₂_iff_get.mp hspells).2 k hsite hk
  obtain ⟨id, hid, hreads⟩ := hfield hfree
  refine ⟨id, ?_, hreads⟩
  unfold Environment.fieldType?
  rw [← Array.getElem?_toList, List.getElem?_eq_getElem hk]
  exact hid

/-- **Types of fields are compared as they are written.**  Two fields, of one unit or of two, whose
types have free names only, have types that are equal in both directions if and only if they are
written the same up to positions, where resolving keeps all of them, and otherwise if and only if
what it keeps is the same. -/
theorem written_types_compared (u u' : CompilationUnit) (k k' : FieldId)
    (x x' : Site × TypeId × FieldDecl) (hx : (fieldSites u.sites)[k]? = some x)
    (hx' : (fieldSites u'.sites)[k']? = some x') (hfree : x.2.2.type.isFree u x.1 = true)
    (hfree' : x'.2.2.type.isFree u' x'.1 = true) :
    ∃ id id', u.resolve.fieldType? k = some id ∧ u'.resolve.fieldType? k' = some id' ∧
      ((typesEqual u.resolve id u'.resolve id' = true ∧
          typesEqual u'.resolve id' u.resolve id = true) ↔
        x.2.2.type.kept = x'.2.2.type.kept) ∧
      (x.2.2.type.isPlain = true → x'.2.2.type.isPlain = true →
        ((typesEqual u.resolve id u'.resolve id' = true ∧
            typesEqual u'.resolve id' u.resolve id = true) ↔
          x.2.2.type.skeleton = x'.2.2.type.skeleton)) := by
  obtain ⟨id, hid, hspells⟩ := u.exists_fieldType? hx hfree
  obtain ⟨id', hid', hspells'⟩ := u'.exists_fieldType? hx' hfree'
  let p : EnvironmentPair := ⟨u.resolve, u'.resolve⟩
  have hkept : (typesEqual u.resolve id u'.resolve id' = true ∧
      typesEqual u'.resolve id' u.resolve id = true) ↔ x.2.2.type.kept = x'.2.2.type.kept :=
    calc _ ↔ p.Alike id id' := and_congr (EnvironmentPair.holds_iff_equal u.resolve_grounded)
            (EnvironmentPair.holds_iff_equal u'.resolve_grounded)
      _ ↔ _ := EnvironmentPair.alike_iff_kept _ _ id id' hspells hspells'
  refine ⟨id, id', hid, hid', hkept, fun hplain hplain' => ?_⟩
  rw [hkept, TypeRef.kept_of_isPlain _ hplain, TypeRef.kept_of_isPlain _ hplain']

/-- The class `A` with two fields of given types. -/
def classWithFields (first second : TypeRef) : CompilationUnit where
  types := [classWith "A"
    [.field { fieldOfX with type := first }, .field { fieldOfX with name := "g", type := second }]]

/-- The type `Map<int, ? extends X>`, with so many dimensions of `int`. -/
def mapFrom (dims : Nat) : TypeRef :=
  ⟨[⟨"Map", [.type { TypeRef.ofPrimitive "int" {} with dims },
    .wildcard .upper (some fieldOfX.type) {}], {}⟩], 0, false, {}⟩

/-- `Map<int[], ? extends X>` is another type than `Map<int, ? extends X>`. -/
theorem written_types_of_maps : ∃ id id',
    (classWithFields (mapFrom 1) (mapFrom 0)).resolve.fieldType? 0 = some id ∧
    (classWithFields (mapFrom 1) (mapFrom 0)).resolve.fieldType? 1 = some id' ∧
    ¬ (typesEqual (classWithFields (mapFrom 1) (mapFrom 0)).resolve id
        (classWithFields (mapFrom 1) (mapFrom 0)).resolve id' = true ∧
      typesEqual (classWithFields (mapFrom 1) (mapFrom 0)).resolve id'
        (classWithFields (mapFrom 1) (mapFrom 0)).resolve id = true) := by
  let u := classWithFields (mapFrom 1) (mapFrom 0)
  obtain ⟨id, id', hid, hid', _, hplain⟩ := written_types_compared u u 0 1 _ _ rfl rfl
    (by decide +kernel) (by decide +kernel)
  refine ⟨id, id', hid, hid', fun hequal => ?_⟩
  have hskeleton := (hplain (by decide +kernel) (by decide +kernel)).mp hequal
  exact absurd (congrArg TypeRef.render hskeleton) (by decide +kernel)

/-- The type `M<argument>.N`. -/
def innerArgument (argument : String) : TypeRef :=
  ⟨[⟨"M", [.type (.ofName ⟨[⟨argument, {}⟩]⟩)], {}⟩, ⟨"N", [], {}⟩], 0, false, {}⟩

/-- **A change of type arguments before the last segment is not seen**: in a class with fields of
the types `M<X>.N` and `M<Y>.N`, all of whose names are free, the types of the fields are equal in
both directions. -/
theorem inner_arguments_unseen : ∃ site f g id id',
    fieldSites (classWithFields (innerArgument "X") (innerArgument "Y")).sites =
      [(site, 0, f), (site, 0, g)] ∧
    f.type.isFree (classWithFields (innerArgument "X") (innerArgument "Y")) site = true ∧
    g.type.isFree (classWithFields (innerArgument "X") (innerArgument "Y")) site = true ∧
    f.type.skeleton ≠ g.type.skeleton ∧
    (classWithFields (innerArgument "X") (innerArgument "Y")).resolve.fieldType? 0 = some id ∧
    (classWithFields (innerArgument "X") (innerArgument "Y")).resolve.fieldType? 1 = some id' ∧
    typesEqual (classWithFields (innerArgument "X") (innerArgument "Y")).resolve id
      (classWithFields (innerArgument "X") (innerArgument "Y")).resolve id' = true ∧
    typesEqual (classWithFields (innerArgument "X") (innerArgument "Y")).resolve id'
      (classWithFields (innerArgument "X") (innerArgument "Y")).resolve id = true := by
  refine ⟨_, _, _, 1, 2, rfl, by decide +kernel, by decide +kernel, fun hskeleton => ?_,
    by decide +kernel, by decide +kernel, by decide +kernel, by decide +kernel⟩
  exact absurd (congrArg TypeRef.render hskeleton) (by decide +kernel)

end AspectLang
