import AspectLang.Proofs.Parse.BaseActionsInPlace
import AspectLang.Proofs.Parse.Effects

/-! # Where the actions of aspect constructs put what they build

Factories leave the positions and the members of declarations alone, so these actions keep what
they build in a region as those of the base language do.  `Work.places_act` is the fact for all
actions that need not compare their parts; `SemanticAction.leaves` tells which of them leave whole
declarations, and `Handle.Suits` which symbols have to cover text for that. -/

namespace AspectLang

/-! ### Factories and positions -/

namespace Factory

variable {f : Factory} {t : TypeDecl} {m : MethodDecl}

theorem span_pseudoToken (value : String) (isIdentifier : Bool) (span : Span) :
    (f.pseudoToken value isIdentifier span).span = span := by
  cases f <;> rfl

theorem span_guardToken (condition : Expr) (span : Span) :
    (f.guardToken condition span).span = span := by
  cases f <;> rfl

theorem span_setLiteralKind (kind : String) (fragment : Fragment) :
    (f.setLiteralKind kind fragment).span = fragment.span := by
  unfold setLiteralKind
  split <;> rfl

/-- Reading a clause changes neither the members nor the positions of an aspect. -/
theorem setDominates_keeps (run : Fragment) (reporter : Reporter) :
    (f.setDominates run t reporter).1.members = t.members ∧
      (f.setDominates run t reporter).1.extent = t.extent := by
  unfold setDominates
  split
  · exact ⟨rfl, rfl⟩
  · dsimp only
    split
    · exact ⟨rfl, rfl⟩
    · exact ⟨rfl, rfl⟩
    · split <;> exact ⟨rfl, rfl⟩

theorem setPerClause_keeps (run : Fragment) (reporter : Reporter) :
    (f.setPerClause run t reporter).1.members = t.members ∧
      (f.setPerClause run t reporter).1.extent = t.extent := by
  unfold setPerClause
  split
  · exact ⟨rfl, rfl⟩
  · dsimp only
    split
    · exact ⟨rfl, rfl⟩
    · split <;> exact ⟨rfl, rfl⟩

theorem extent_setDesignator (fragment : Fragment) :
    (f.setDesignator fragment m).extent = m.extent := by
  unfold setDesignator
  dsimp only
  split <;> rfl

theorem extent_setExtra (parameter : Parameter) : (f.setExtra parameter m).extent = m.extent := by
  unfold setExtra
  split <;> rfl

theorem extent_narrowAfter (kind : AdviceKind) : (f.narrowAfter kind m).extent = m.extent := by
  unfold narrowAfter
  split
  · split <;> rfl
  · rfl

theorem extent_updateInterType (change : InterTypeMember → InterTypeMember) :
    (f.updateInterType change m).extent = m.extent := by
  unfold updateInterType
  split <;> rfl

end Factory

namespace Work

open Profile

theorem extent_applyExtra {f : Factory} {extra : ExtraParameter} {m : MethodDecl}
    {reporter : Reporter} : (applyExtra f extra m reporter).1.extent = m.extent := by
  unfold applyExtra
  dsimp only
  split
  · rfl
  · split
    · rfl
    · rename_i narrowed hnarrowed
      have hextent : narrowed.extent = m.extent := by
        split at hnarrowed
        · exact Option.some.inj hnarrowed ▸ Factory.extent_narrowAfter _
        · exact Option.some.inj hnarrowed ▸ Factory.extent_narrowAfter _
        · cases hnarrowed
      split
      · rw [Factory.extent_setExtra]
        exact hextent
      · exact hextent

variable {c : Handle} {f : Factory} {r : Region} {whole leaves : Bool} {w : Workspace} {l : Layout}

theorem yields_factoryFor {dialect : Dialect} {construct : String} {span : Span} (h : w.Lies l) :
    Yields w (factoryFor dialect construct span) fun _ w' => w'.Lies l := by
  unfold factoryFor
  cases dialect with
  | enabled f => exact .pure h
  | disabled =>
      refine .bind yields_get fun seen w' hw => ?_
      obtain ⟨rfl, rfl⟩ := hw
      split
      · refine .bind (yields_set (h.of_values rfl rfl)) fun _ _ h => ?_
        exact .bind (yields_report h) fun _ _ h => .pure h
      · exact .pure h

/-! ### Aspects -/

theorem yields_joinModifiers {outer inner : WrittenModifiers} {span : Span} (h : w.Lies l)
    (houter : r.lo ≤ outer.start) (hinner : r.lo ≤ inner.start) :
    Yields w (joinModifiers outer inner span) fun m w' => r.lo ≤ m.start ∧ w'.Lies l := by
  unfold joinModifiers
  have hmin := Nat.le_min.mpr ⟨houter, hinner⟩
  split
  · exact .bind (yields_report h) fun _ _ h => .pure ⟨hmin, h⟩
  · exact .pure ⟨hmin, h⟩

theorem yields_popAspectModifiers {privileged : Bool}
    (h : w.Lies ((modifiers.placed r whole).atop (((privilege privileged).placed r whole).atop l))) :
    Yields w (popAspectModifiers privileged c) fun m w' => r.lo ≤ m.start ∧ w'.Lies l := by
  refine .bind (yields_popModifiers h) fun inner _ hinner => ?_
  cases privileged with
  | false => exact .pure hinner
  | true =>
      have houter : Workspace.Lies _ ((word.placed r whole).atop
        ((modifiers.placed r whole).atop l)) := hinner.2
      refine .bind (yields_popIdentifier houter) fun _ _ h => ?_
      refine .bind (yields_popModifiers h.2) fun _ _ h => ?_
      exact yields_joinModifiers h.2 h.1 hinner.1

theorem places_aspectHeaderName {privileged typeParameters : Bool} :
    Places r whole (aspectHeaderName f privileged typeParameters c)
      [privilege privileged, modifiers, word, word,
        provided typeParameters (type .parameter .many)]
      (node .type) false := by
  intro w frame h
  refine .bind (yields_popTypeParameters h) fun _ _ h => ?_
  refine .bind (yields_popIdentifier h) fun _ _ hname => ?_
  refine .bind (yields_popIdentifier hname.2) fun _ _ h => ?_
  refine .bind (yields_popAspectModifiers h.2) fun _ _ h => ?_
  refine yields_pushNode h.2 (has_headType hname.1 h.1 ?_)
  cases f <;> rfl

theorem places_headerRest :
    Places r whole (headerRest f c)
      [node .type, node .fragment, provided (c.arity = 2) (node .fragment .many)]
      (node .type) false := by
  intro w frame h
  have hfinish : ∀ (rest : List Fragment) w',
      w'.Lies (((node .fragment).placed r whole).atop (((node .type).placed r whole).atop frame)) →
      Yields w' (do
        let first ← popFragment
        let run := f.joinTokens (first :: rest ++ [f.pseudoToken "\x7b" false c.lookahead])
        let aspect ← typeOnTop .aspect
        let aspect ← withReporter (f.setDominates run aspect)
        let aspect ← withReporter (f.setPerClause run aspect)
        replaceTop (.type (reachTo run.span.stop aspect)))
        fun _ w' => w'.Lies (((node .type).placed r false).atop frame) := by
    intro rest w' h
    refine .bind (yields_popFragment h) fun _ _ h => ?_
    refine .bind (yields_typeOnTop h.2) fun t _ ht => ?_
    refine .bind (yields_withReporter ht.2) fun t₁ _ h₁ => ?_
    obtain ⟨⟨reporter₁, rfl⟩, h₁⟩ := h₁
    refine .bind (yields_withReporter h₁) fun t₂ _ h₂ => ?_
    obtain ⟨⟨reporter₂, rfl⟩, h₂⟩ := h₂
    obtain ⟨hmembers₁, hextent₁⟩ := Factory.setDominates_keeps _ reporter₁
    obtain ⟨hmembers₂, hextent₂⟩ := Factory.setPerClause_keeps _ reporter₂
    have hstands := (Member.Stands.of_type ht.1.lies hmembers₁ hextent₁).of_type hmembers₂ hextent₂
    exact yields_replaceTop h₂ (.of_lies (hstands.reachTo _))
  unfold headerRest
  by_cases harity : c.arity = 2
  · rw [decide_eq_true harity] at h
    rw [if_pos harity]
    exact .bind (yields_popFragments h) fun rest w' h => hfinish rest w' h.2
  · rw [decide_eq_false harity] at h
    rw [if_neg harity]
    exact .pure_bind (hfinish [] w h)

/-! ### Pointcuts and advice -/

theorem places_pointcutHeader :
    Places r whole (pointcutHeader f) [modifiers, word, word] (node .method) false := by
  intro w frame h
  refine .bind (yields_popIdentifier h) fun _ _ hname => ?_
  refine .bind (yields_popIdentifier hname.2) fun _ _ h => ?_
  refine .bind (yields_popModifiers h.2) fun _ _ h => ?_
  exact yields_pushNode h.2 (has_headMethod hname.1 h.1)

/-- A declaration that is closed where the right side ends lies there as a whole. -/
theorem has_closed {m m' : MethodDecl} (h : NodePlace.Has ⟨r, whole⟩ (.method m)) {stop : Nat}
    (hstop : stop = r.hi) (hextent : m'.extent = { m.extent with declaration.stop := stop }) :
    NodePlace.Has ⟨r, true⟩ (.method m') := by
  subst hstop
  refine ⟨Member.Stands.method h.lies (by rw [hextent]) (by rw [hextent]) ?_, fun _ => ⟨?_, nofun⟩⟩
  · rw [hextent]
    exact h.lies.name
  · change m'.extent.declaration.stop ≤ r.hi
    rw [hextent]

theorem places_pointcutDecl {hasDesignator : Bool} (hstop : c.lastSpan.stop = r.hi) :
    Places r whole (pointcutDecl f hasDesignator c)
      [node .method, node .parameter .many, provided hasDesignator (node .fragment .many)]
      (node .method) true := by
  intro w frame h
  cases hasDesignator with
  | false =>
      refine .pure_bind ?_
      refine .bind (yields_popParameters h) fun _ _ h => ?_
      exact yields_updateMethod h fun m hm => has_closed hm hstop rfl
  | true =>
      refine .bind (yields_popFragments h) fun _ _ h => ?_
      refine .bind (.map ((yields_withReporter h.2).mono fun _ _ => And.right))
        fun designator _ h => ?_
      refine .bind (yields_popParameters h) fun _ _ h => ?_
      refine yields_updateMethod h fun m hm => has_closed hm hstop ?_
      cases designator with
      | none => rfl
      | some d => simp only [Factory.extent_setDesignator]

theorem places_aroundHeaderName {hasReturnType : Bool} :
    Places r whole (aroundHeaderName f hasReturnType)
      [modifiers, provided hasReturnType type, word] (node .method) false := by
  intro w frame h
  refine .bind (yields_popIdentifier h) fun keyword _ hname => ?_
  have hfinish : ∀ (returnType : TypeRef) w', w'.Lies ((modifiers.placed r whole).atop frame) →
      Yields w' (do
        let modifiers ← popModifiers
        pushAdvice keyword returnType modifiers f.newAroundAdvice)
        fun _ w' => w'.Lies (((node .method).placed r false).atop frame) := by
    intro returnType w' h
    refine .bind (yields_popModifiers h) fun _ _ h => ?_
    exact yields_pushNode h.2 (has_headMethod hname.1 h.1)
  cases hasReturnType with
  | false => exact .bind (yields_report hname.2) fun _ _ h => .pure_bind (hfinish _ _ h)
  | true => exact .bind ((yields_popType hname.2).mono fun _ _ => And.right) hfinish

theorem places_adviceHeaderName {after : Bool} :
    Places r whole (adviceHeaderName f after) [modifiers, word] (node .method) false := by
  intro w frame h
  refine .bind (yields_popIdentifier h) fun _ _ hname => ?_
  refine .bind (yields_popModifiers hname.2) fun _ _ h => ?_
  exact yields_pushNode h.2 (has_headMethod hname.1 h.1)

theorem places_extraParameter {formal : Bool} :
    Places r whole (extraParameter formal) [word, provided formal (node .parameter)]
      (node .extraParameter) leaves := by
  intro w frame h
  have hfinish : ∀ (parameter : Option Parameter) w', w'.Lies ((word.placed r whole).atop frame) →
      Yields w' (do
        let name ← popIdentifier
        pushNode (.extraParameter ⟨name, parameter⟩))
        fun _ w' => w'.Lies (((node .extraParameter).placed r leaves).atop frame) := by
    intro parameter w' h
    refine .bind (yields_popIdentifier h) fun _ _ h => ?_
    exact yields_pushNode h.2 ⟨trivial, fun _ => trivial⟩
  cases formal with
  | false => exact .pure_bind (hfinish none w h)
  | true => exact .bind (.map (yields_popParameter h)) hfinish

theorem places_adviceHeader {hasExtra : Bool} (hstop : c.whole.stop = r.hi) :
    Places r whole (adviceHeader f hasExtra c)
      [node .method, node .parameter .many, provided hasExtra (node .extraParameter .optional),
        type .type .many, node .fragment .many]
      (node .method) false := by
  intro w frame h
  refine .bind (yields_popFragments h) fun tokens _ h => ?_
  refine .bind (yields_popTypes h.2) fun throws _ h => ?_
  have hfinish : ∀ (extra : Option ExtraParameter) w',
      w'.Lies (((node .parameter .many).placed r whole).atop
        (((node .method).placed r whole).atop frame)) →
      Yields w' (completeAdvice f tokens throws extra c)
        fun _ w' => w'.Lies (((node .method).placed r false).atop frame) := by
    intro extra w' h
    refine .bind (yields_popParameters h) fun parameters _ h => ?_
    refine .bind (yields_withReporter h) fun designator _ h => ?_
    refine .bind (yields_methodOnTop h.2) fun m _ hm => ?_
    have hstands : Member.Stands r (.method (f.setDesignator designator
        { m with parameters, throws, extent.declaration.stop := c.whole.stop })) := by
      refine Member.Stands.method hm.1.lies ?_ ?_ ?_
      · rw [Factory.extent_setDesignator]
      · rw [Factory.extent_setDesignator]
      · rw [Factory.extent_setDesignator]
        exact hstop ▸ hm.1.lies.name
    cases extra with
    | none => exact .pure_bind (yields_replaceTop hm.2 (.of_lies hstands))
    | some extra =>
        refine .bind (yields_withReporter hm.2) fun m' _ hm' => ?_
        obtain ⟨⟨reporter, rfl⟩, hm'⟩ := hm'
        exact yields_replaceTop hm' (.of_lies (hstands.of_extent extent_applyExtra))
  cases hasExtra with
  | false => exact .pure_bind (hfinish none _ h.2)
  | true =>
      refine .bind (yields_popOptionalNode h.2) fun extra _ h => ?_
      cases extra with
      | none => exact .pure_bind (hfinish none _ h)
      | some n => exact .bind (.map (yields_expectNode fun _ _ => h)) hfinish

/-! ### Declare statements -/

theorem has_pseudoToken {value : String} {isIdentifier : Bool} {span : Span}
    (hspan : r.Holds span) :
    NodePlace.Has ⟨r, leaves⟩ (.fragment (f.pseudoToken value isIdentifier span)) := by
  refine ⟨?_, fun _ => trivial⟩
  change r.Holds (f.pseudoToken value isIdentifier span).span
  rw [Factory.span_pseudoToken]
  exact hspan

theorem places_declareHeader (hcolon : r.Holds (c.span 2)) :
    Places r whole (declareHeader f c) [word, word] (node .fragment .many) leaves := by
  intro w frame h
  refine .bind (yields_popIdentifier h) fun _ _ hkind => ?_
  refine .bind (yields_popIdentifier hkind.2) fun _ _ h => yields_pushNodes h.2 ?_
  simp only [List.forall_mem_cons, List.not_mem_nil, false_implies, implies_true, and_true]
  exact ⟨has_pseudoToken h.1, has_pseudoToken hkind.1, has_pseudoToken hcolon⟩

theorem places_declareAnnotationHeader (hsign : r.Holds (c.span 1)) (hcolon : r.Holds (c.span 3)) :
    Places r whole (declareAnnotationHeader f c) [word, word] (node .fragment .many) leaves := by
  intro w frame h
  refine .bind (yields_popIdentifier h) fun _ _ hkind => ?_
  refine .bind (yields_popIdentifier hkind.2) fun _ _ h => yields_pushNodes h.2 ?_
  simp only [List.forall_mem_cons, List.not_mem_nil, false_implies, implies_true, and_true]
  exact ⟨has_pseudoToken h.1, has_pseudoToken hsign, has_pseudoToken hkind.1,
    has_pseudoToken hcolon⟩

theorem holds_headerSpans {header : List Fragment} {n : Nat}
    (hheader : ∀ f ∈ header, r.Holds f.span) (hfirst : r.Holds (c.span 0)) :
    r.Holds (headerSpans header n c).1 ∧ r.Holds (headerSpans header n c).2 := by
  have hkeyword : r.Holds (headerSpans header n c).1 := by
    unfold headerSpans
    dsimp only
    split
    · rename_i fragment hhead
      exact hheader fragment (List.mem_of_mem_head? hhead)
    · exact hfirst
  refine ⟨hkeyword, ?_⟩
  unfold headerSpans at hkeyword ⊢
  dsimp only at hkeyword ⊢
  split
  · rename_i fragment hfragment
    exact hheader fragment (List.mem_of_getElem? hfragment)
  · exact hkeyword

theorem has_endAtSemicolon {name semicolon : Span} {start : Nat} {m : MethodDecl}
    (hname : r.Holds name) (hstart : r.lo ≤ start) (hstop : semicolon.stop = r.hi) :
    NodePlace.Has ⟨r, true⟩ (.method (endAtSemicolon name start semicolon m)) := by
  refine ⟨Member.stands_of_extent rfl (Extent.nested_iff.mpr ?_)
    (Nat.le_min.mpr ⟨hstart, hname.1⟩) hname.2.2, fun _ => ⟨Nat.le_of_eq hstop, nofun⟩⟩
  exact ⟨hname.2.1, Nat.min_le_right .., hstop ▸ hname.2.2⟩

theorem places_declareDecl (hfirst : r.Holds (c.span 0)) (hstop : (c.span 2).stop = r.hi) :
    Places r whole (declareDecl f c) [node .fragment .many, node .fragment .many]
      (node .method) true := by
  intro w frame h
  refine .bind (yields_popFragments h) fun body _ hbody => ?_
  refine .bind (yields_popFragments hbody.2) fun header w' hheader => ?_
  obtain ⟨hkeyword, hkind⟩ := holds_headerSpans (c := c) (n := 1) hheader.1 hfirst
  refine .bind yields_get fun seen w'' hw => ?_
  obtain ⟨rfl, rfl⟩ := hw
  split
  · intro _ _ hok
    cases hok
  · rename_i m reporter _
    refine .bind (yields_set (hheader.2.of_values rfl rfl)) fun _ _ h => ?_
    exact yields_pushNode h (has_endAtSemicolon hkind hkeyword.1 hstop)

theorem places_annotationDeclare {sign : Char} (hfirst : r.Holds (c.span 0))
    (hstop : c.lastSpan.stop = r.hi) :
    Places r whole (annotationDeclare f sign c)
      [node .fragment .many, node .fragment .many, expr .annotationUse] (node .method) true := by
  intro w frame h
  have hannotation : Yields w
      (do expectNode .expression .annotationUse (← popExpr).annotationUse?) fun _ w' =>
        w'.Lies (((node .fragment .many).placed r whole).atop
          (((node .fragment .many).placed r whole).atop frame)) :=
    .bind (yields_popExpr h) fun _ _ h => yields_expectNode fun _ _ => h.2
  refine .chain hannotation fun _ _ h => ?_
  refine .bind (yields_popFragments h) fun _ _ h => ?_
  refine .bind (yields_popFragments h.2) fun header _ hheader => ?_
  obtain ⟨hkeyword, hkind⟩ := holds_headerSpans (c := c) (n := 2) hheader.1 hfirst
  refine .bind (yields_withReporter hheader.2) fun _ _ h => ?_
  exact yields_pushNode h.2 (has_endAtSemicolon hkind hkeyword.1 hstop)

/-! ### Inter-type members -/

theorem yields_reportTargetForm {pattern : TargetForm} (h : w.Lies l) :
    Yields w (reportTargetForm pattern c) fun _ w' => w'.Lies l := by
  cases pattern with
  | plain => exact .pure h
  | starSegment | starOnly | plus => exact yields_report h

theorem places_interTypeFieldHeader {pattern : TargetForm} (hstar : r.Holds (c.span 4)) :
    Places r whole (interTypeFieldHeader f pattern c)
      [modifiers, type, word .some, provided (pattern ≠ .starOnly) word] (node .method) false := by
  intro w frame h
  have hfinish : ∀ (name : Identifier) w', r.Holds name.span ∧
      w'.Lies (((word .some).placed r whole).atop
        ((type.placed r whole).atop ((modifiers.placed r whole).atop frame))) →
      Yields w' (do
        reportTargetForm pattern c
        let onType ← popName
        let type ← popType
        let modifiers ← popModifiers
        let field := { f.newInterTypeField (.ofName onType) with selector := name.name }
        let field := { f.setDeclaredModifiers modifiers.flags field with returnType := some type }
        pushNode (.method (headMethod name.span modifiers field)))
        fun _ w' => w'.Lies (((node .method).placed r false).atop frame) := by
    intro name w' h
    refine .bind (yields_reportTargetForm h.2) fun _ _ h' => ?_
    refine .bind (yields_popName h') fun _ _ h' => ?_
    refine .bind (yields_popType h'.2) fun _ _ h' => ?_
    refine .bind (yields_popModifiers h'.2) fun _ _ h' => ?_
    exact yields_pushNode h'.2 (has_headMethod h.1 h'.1)
  cases pattern with
  | starOnly => exact .pure_bind (hfinish _ w ⟨hstar, h⟩)
  | plain | starSegment | plus => exact .bind (yields_popIdentifier h) hfinish

theorem places_interTypeFieldBody {hasInitializer : Bool} :
    Places r whole (interTypeFieldBody f hasInitializer)
      [node .method, provided hasInitializer expr] (node .method) false := by
  intro w frame h
  cases hasInitializer with
  | false =>
      have hmethod : w.Lies (((node .method).placed r whole).atop frame) := h
      exact .pure (hmethod.widen (.atop (widens_placed _ (.refl r) fun _ => nofun) (.refl frame)))
  | true =>
      refine .bind (yields_popExpr h) fun _ _ h => ?_
      refine yields_updateMethod h.2 fun m hm => .of_lies ?_
      exact Member.Stands.of_extent hm.lies (Factory.extent_updateInterType _)

theorem places_interTypeFieldDecl (hstop : (c.span 2).stop = r.hi) :
    Places r whole (interTypeFieldDecl c) [node .method] (node .method) true :=
  fun _ _ h => yields_updateMethod h fun _ hm => has_closed hm hstop rfl

theorem places_interTypeMethodHeaderName {pattern : TargetForm} :
    Places r whole (interTypeMethodHeaderName f pattern c) [modifiers, type, word .some, word]
      (node .method) false := by
  intro w frame h
  refine .bind (yields_popIdentifier h) fun _ _ hname => ?_
  refine .bind (yields_reportTargetForm hname.2) fun _ _ h => ?_
  refine .bind (yields_popName h) fun _ _ h => ?_
  refine .bind (yields_popType h.2) fun _ _ h => ?_
  refine .bind (yields_popModifiers h.2) fun _ _ h => ?_
  exact yields_pushNode h.2 (has_headMethod hname.1 h.1)

theorem places_interTypeConstructorHeaderName {plus : Bool}
    (hkeyword : r.Holds (c.span (if plus then 4 else 3))) :
    Places r whole (interTypeConstructorHeaderName f plus c) [modifiers, word .some]
      (node .method) false := by
  intro w frame h
  have hfinish : ∀ w', w'.Lies (((word .some).placed r whole).atop
        ((modifiers.placed r whole).atop frame)) →
      Yields w' (do
        let onType ← popName
        let modifiers ← popModifiers
        let keyword := c.span (if plus then 4 else 3)
        let constructor :=
          { f.setTarget (.ofName onType) f.newInterTypeConstructor with
            selector := onType.join "_" ++ "_new" }
        let constructor := f.setDeclaredModifiers modifiers.flags constructor
        pushNode (.method (headMethod keyword modifiers constructor)))
        fun _ w' => w'.Lies (((node .method).placed r false).atop frame) := by
    intro w' h
    refine .bind (yields_popName h) fun _ _ h => ?_
    refine .bind (yields_popModifiers h.2) fun _ _ h => ?_
    exact yields_pushNode h.2 (has_headMethod hkeyword h.1)
  cases plus with
  | false => exact .pure_bind (hfinish w h)
  | true => exact .bind (yields_report h) fun _ w' h => hfinish w' h

theorem places_interTypeClassHeaderName :
    Places r whole (interTypeClassHeaderName f) [modifiers, word .some, word] (node .type)
      false := by
  intro w frame h
  refine .bind (yields_popIdentifier h) fun _ _ hname => ?_
  refine .bind (yields_popName hname.2) fun _ _ h => ?_
  refine .bind (yields_popModifiers h.2) fun _ _ h => ?_
  refine yields_pushNode h.2 (has_headType hname.1 h.1 ?_)
  cases f <;> rfl

/-! ### Pseudo tokens -/

theorem places_literalToken :
    Places r whole (literalToken f) [expr .literal] (node .fragment) leaves := by
  intro w frame h
  refine .bind (yields_popExpr h) fun e _ he => ?_
  split
  · refine yields_pushNode he.2 ⟨?_, fun _ => trivial⟩
    change r.Holds (Fragment.span _)
    rw [Factory.span_setLiteralKind, Factory.span_pseudoToken]
    exact he.1
  · intro _ _ hok
    cases hok

end Work

/-! ### All actions -/

/-- Whether an action leaves whole declarations. -/
def AspectAction.leaves : AspectAction → Bool
  | .pointcutDecl _ | .declareDecl | .annotationDeclare _ | .interTypeFieldDecl => true
  | _ => false

/-- The symbols of the right side that have to cover text. -/
def AspectAction.spots : AspectAction → List Nat
  | .adviceHeader _ | .declareDecl | .annotationDeclare _ | .symbolToken _ | .modifierToken
  | .primitiveTypeToken | .guardToken => [0]
  | .declareHeader => [2]
  | .declareAnnotationHeader => [1, 3]
  | .interTypeFieldHeader _ => [4]
  | .interTypeConstructorHeaderName plus => [if plus then 4 else 3]
  | _ => []

/-- The symbol, in a right side of `arity` symbols, that has to end it. -/
def AspectAction.closing? (arity : Nat) : AspectAction → Option Nat
  | .pointcutDecl _ | .annotationDeclare _ => some (arity - 1)
  | .declareDecl | .interTypeFieldDecl => some 2
  | _ => none

namespace SemanticAction

/-- Whether the place of what an action leaves depends on how its parts follow each other. -/
def comparesParts : SemanticAction → Bool
  | .fieldDecl | .initializerBlock | .methodDecl | .classBody | .emptyModifiers
  | .modifierKeyword _ | .annotationModifier | .concatModifiers => true
  | _ => false

/-- Whether an action leaves whole declarations or statements, where those that it finds are whole
or not. -/
def leaves (found : Bool) : SemanticAction → Bool
  | .none | .concatNodes => found
  | .emptyNodes | .packageDecl | .importDecl _ _ | .emptyMethodBody | .block => true
  | .aspect action => action.leaves
  | _ => false

/-- The symbols of the right side that have to cover text. -/
def spots : SemanticAction → List Nat
  | .primitiveType _ | .qualifiedGenericType | .genericType | .arrayType | .modifierKeyword _
  | .annotationModifier | .methodHeader | .emptyMethodBody | .block => [0]
  | .aspect action => action.spots
  | _ => []

/-- The symbol, in a right side of `arity` symbols, that has to end it. -/
def closing? (arity : Nat) : SemanticAction → Option Nat
  | .fieldDecl => some 3
  | .classBody => some 2
  | .aspect action => action.closing? arity
  | _ => .none

end SemanticAction

/-- The symbols that an action asks for cover text. -/
structure Handle.Suits (c : Handle) (action : SemanticAction) : Prop where
  spots : ∀ i ∈ action.spots, (c.spans.getD i none).isSome = true
  closing : ∀ i ∈ action.closing? c.arity, (c.spans.getD i none).isSome = true ∧ i + 1 = c.arity

namespace Work

open Profile

variable {c : Handle} {r : Region} {whole : Bool}

theorem places_aspectAction (dialect : Dialect) {action : AspectAction} (hlies : c.Lies r)
    (hsuits : c.Suits (.aspect action)) :
    Places r whole (aspectAction dialect c action) (action.effect c.arity).1
      (action.effect c.arity).2 action.leaves := by
  intro w frame h
  refine .bind (yields_factoryFor h) fun f w' h => ?_
  have hspan : ∀ i ∈ action.spots, r.Holds (c.span i) := fun i hi => hlies.span (hsuits.spots i hi)
  have hstop : ∀ i ∈ action.closing? c.arity, (c.span i).stop = r.hi := fun i hi =>
    hlies.stop_of_last (hsuits.closing i hi).1 (hsuits.closing i hi).2
  cases action with
  | aspectHeaderName privileged typeParameters => exact places_aspectHeaderName w' frame h
  | headerRest => exact places_headerRest w' frame h
  | pointcutHeader => exact places_pointcutHeader w' frame h
  | pointcutDecl designator => exact places_pointcutDecl (hstop _ rfl) w' frame h
  | aroundHeaderName returnType => exact places_aroundHeaderName w' frame h
  | adviceHeaderName after => exact places_adviceHeaderName w' frame h
  | adviceHeader extra =>
      have hwhole := hlies.holds_whole (hsuits.spots 0 (List.mem_singleton.mpr rfl))
      exact places_adviceHeader hwhole.2 w' frame h
  | extraParameter formal => exact places_extraParameter w' frame h
  | declareHeader => exact places_declareHeader (hspan 2 (by decide)) w' frame h
  | declareDecl => exact places_declareDecl (hspan 0 (by decide)) (hstop 2 rfl) w' frame h
  | declareAnnotationHeader =>
      exact places_declareAnnotationHeader (hspan 1 (by decide)) (hspan 3 (by decide)) w' frame h
  | annotationDeclare sign =>
      exact places_annotationDeclare (hspan 0 (List.mem_singleton.mpr rfl)) (hstop _ rfl) w' frame h
  | interTypeFieldHeader pattern =>
      exact places_interTypeFieldHeader (hspan 4 (List.mem_singleton.mpr rfl)) w' frame h
  | interTypeFieldBody initializer => exact places_interTypeFieldBody w' frame h
  | interTypeFieldDecl => exact places_interTypeFieldDecl (hstop 2 rfl) w' frame h
  | interTypeMethodHeaderName pattern => exact places_interTypeMethodHeaderName w' frame h
  | interTypeConstructorHeaderName plus =>
      have hkeyword := hspan (if plus then 4 else 3) (List.mem_singleton.mpr rfl)
      exact places_interTypeConstructorHeaderName hkeyword w' frame h
  | interTypeClassHeaderName => exact places_interTypeClassHeaderName w' frame h
  | symbolToken kind =>
      exact yields_pushNode h (has_pseudoToken (hspan 0 (List.mem_singleton.mpr rfl)))
  | identifierToken =>
      refine .bind (yields_popIdentifier h) fun _ _ h => ?_
      exact yields_pushNode h.2 (has_pseudoToken h.1)
  | literalToken => exact places_literalToken w' frame h
  | modifierToken =>
      refine .bind (yields_popModifiers h) fun _ _ h => ?_
      exact yields_pushNode h.2 (has_pseudoToken (hspan 0 (by decide)))
  | primitiveTypeToken =>
      refine .bind (yields_popType h) fun _ _ h => ?_
      exact yields_pushNode h.2 (has_pseudoToken (hspan 0 (by decide)))
  | guardToken =>
      have hwhole := hlies.holds_whole (hsuits.spots 0 (by decide))
      refine .bind (yields_popExpr h) fun _ _ h => yields_pushNode h.2 ⟨?_, fun _ => trivial⟩
      change r.Holds (Fragment.span _)
      rw [Factory.span_guardToken]
      exact hwhole.1

/-- **An action keeps what it builds where its right side lies**, unless it has to compare its
parts. -/
theorem places_act (dialect : Dialect) {action : SemanticAction} (out : Profile)
    (hparts : action.comparesParts = false) (hunit : action = .compilationUnit → whole = true)
    (hlies : c.Lies r) (hsuits : c.Suits action) :
    Places r whole (act dialect c action) (action.effect c.arity out).1
      (action.effect c.arity out).2 (action.leaves whole) := by
  intro w frame h
  have hspan : ∀ i ∈ action.spots, r.Holds (c.span i) := fun i hi => hlies.span (hsuits.spots i hi)
  have hwhole : 0 ∈ action.spots → r.Holds c.whole ∧ c.whole.stop = r.hi := fun hi =>
    hlies.holds_whole (hsuits.spots 0 hi)
  cases action with
  | none => exact .pure h
  | emptyNodes => exact yields_pushNoNodes h
  | emptyExprs => exact yields_pushNoExprs h
  | emptyTypes => exact yields_pushNoTypes h
  | concatNodes => exact places_concatNodes w frame h
  | concatExprs => exact places_concatExprs w frame h
  | concatTypes => exact places_concatTypes w frame h
  | concatIdentifiers => exact places_concatIdentifiers w frame h
  | compilationUnit =>
      obtain rfl := hunit rfl
      exact places_compilationUnit w frame h
  | packageDecl => exact places_packageDecl w frame h
  | importDecl isStatic onDemand => exact places_importDecl w frame h
  | primitiveType name => exact yields_pushType h (hspan 0 (List.mem_singleton.mpr rfl))
  | namedType => exact places_namedType w frame h
  | qualifiedGenericType => exact places_qualifiedGenericType (hwhole (by decide)).1 w frame h
  | genericType => exact places_genericType (hwhole (by decide)).1 w frame h
  | arrayType => exact places_arrayType (hwhole (by decide)).1 w frame h
  | dimsOne | dimsZero => exact yields_pushAnyInt h
  | dimsMore => exact places_dimsMore w frame h
  | wildcard kind => exact places_wildcard w frame h
  | typeParameter bounded additional => exact places_typeParameter w frame h
  | annotationMarker => exact places_annotationMarker w frame h
  | annotationSingleMember => exact places_annotationSingleMember w frame h
  | typeHeaderName kind typeParameters => exact places_typeHeaderName w frame h
  | superclass => exact places_superclass w frame h
  | interfaces => exact places_interfaces w frame h
  | declaratorId => exact places_declaratorId w frame h
  | declaratorInitializer => exact places_declaratorInitializer w frame h
  | methodHeaderName typeParameters => exact places_methodHeaderName w frame h
  | constructorHeaderName => exact places_constructorHeaderName w frame h
  | methodHeader => exact places_methodHeader (hwhole (by decide)).2 w frame h
  | emptyMethodBody => exact places_emptyMethodBody (hspan 0 (by decide)) w frame h
  | formalParameter hasModifiers varargs => exact places_formalParameter w frame h
  | block => exact places_blockStatement (hwhole (by decide)).1 w frame h
  | localVariables hasModifiers => exact places_localVariables w frame h
  | localVariablesStatement => exact places_localVariablesStatement w frame h
  | emptyStatement => exact yields_pushStatement h
  | expressionStatement => exact places_expressionStatement w frame h
  | labeledStatement => exact places_labeledStatement w frame h
  | ifStatement hasElse => exact places_ifStatement w frame h
  | whileStatement => exact places_whileStatement w frame h
  | doStatement => exact places_doStatement w frame h
  | forStatement => exact places_forStatement w frame h
  | forInitExpressions => exact places_forInitExpressions w frame h
  | forEachStatement hasModifiers => exact places_forEachStatement w frame h
  | returnStatement => exact .bind (yields_popOptionalExpr h) fun _ _ h => yields_pushStatement h
  | throwStatement => exact .bind (yields_popExpr h) fun _ _ h => yields_pushStatement h.2
  | breakStatement label | continueStatement label =>
      exact .bind (yields_popLabel h) fun _ _ h => yields_pushStatement h
  | tryStatement final => exact places_tryStatement w frame h
  | catchClause => exact places_catchClause w frame h
  | assertStatement message => exact places_assertStatement w frame h
  | constructorCall isSuper =>
      exact .bind (yields_popExprs h) fun _ _ h => yields_pushStatement h
  | thisExpr => exact yields_pushExpr h trivial
  | parenthesized => exact places_parenthesized w frame h
  | allocation => exact places_allocation w frame h
  | fieldAccess isSuper => exact places_fieldAccess w frame h
  | callByName => exact places_callByName w frame h
  | callOnPrimary => exact places_callOn w frame h
  | callOnSuper => exact places_callOn w frame h
  | nameExpr => exact places_nameExpr w frame h
  | unary operator => exact places_unary w frame h
  | binary operator => exact places_binary w frame h
  | instanceOf => exact places_instanceOf w frame h
  | conditional => exact places_conditional w frame h
  | assignmentOperator operator => exact yields_pushAnyInt h
  | assignment => exact places_assignment w frame h
  | aspect action => exact places_aspectAction dialect hlies hsuits w frame h
  | fieldDecl | initializerBlock | methodDecl | classBody | emptyModifiers | modifierKeyword _
  | annotationModifier | concatModifiers => cases hparts

end Work

end AspectLang
