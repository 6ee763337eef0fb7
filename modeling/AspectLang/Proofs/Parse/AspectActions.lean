import AspectLang.Proofs.Parse.BaseActions

/-! # What the actions of aspect constructs do to the value stacks

One lemma per action, as for the base language.  Fragments keep plain texts plain, so that reading
a declare statement (`turns_declareDecl`) finds no text that it cannot cut. -/

namespace AspectLang.Work

open Profile

variable {plain : Prop} {c : Handle} {f : Factory}

theorem ensures_factoryFor {w : Workspace} {p : Profile} {dialect : Dialect} {construct : String}
    {span : Span} (h : w.Fits plain p) :
    Ensures plain w (factoryFor dialect construct span) fun _ w' => w'.Fits plain p := by
  unfold factoryFor
  cases dialect with
  | enabled f => exact .pure h
  | disabled =>
      refine .bind (Q := fun seen w' => seen = w ∧ w' = w) ⟨rfl, rfl⟩ fun seen w' hw => ?_
      obtain ⟨rfl, rfl⟩ := hw
      split
      · refine .bind (Q := fun _ w' => w'.Fits plain p) (h.of_values rfl rfl) fun _ _ h => ?_
        exact .bind (ensures_report h) fun _ _ h => .pure h
      · exact .pure h

/-! ### Aspects -/

theorem ensures_joinModifiers {w : Workspace} {p : Profile} {outer inner : WrittenModifiers}
    {span : Span} (h : w.Fits plain p) :
    Ensures plain w (joinModifiers outer inner span) fun _ w' => w'.Fits plain p := by
  unfold joinModifiers
  split
  · exact .bind (ensures_report h) fun _ _ h => .pure h
  · exact .pure h

/-- The modifiers in front of `privileged`, and that word. -/
def privilege (privileged : Bool) : Profile := provided privileged (word.atop modifiers)

theorem ensures_popAspectModifiers {w : Workspace} {p : Profile} {privileged : Bool}
    (h : w.Fits plain (modifiers.atop ((privilege privileged).atop p))) :
    Ensures plain w (popAspectModifiers privileged c) fun _ w' => w'.Fits plain p := by
  refine .bind (ensures_popModifiers h) fun _ _ h => ?_
  cases privileged with
  | false => exact .pure h
  | true =>
      have houter : Workspace.Fits plain _ (word.atop (modifiers.atop p)) := h
      refine .bind (ensures_popIdentifier houter) fun _ _ h => ?_
      refine .bind (ensures_popModifiers h) fun _ _ h => ?_
      exact ensures_joinModifiers h

theorem turns_aspectHeaderName {privileged typeParameters : Bool} :
    Turns plain (aspectHeaderName f privileged typeParameters c)
      [privilege privileged, modifiers, word, word,
        provided typeParameters (type .parameter .many)]
      (node .type) := by
  intro w frame h
  refine .bind (ensures_popTypeParameters h) fun _ _ h => ?_
  refine .bind (ensures_popIdentifier h) fun _ _ h => ?_
  refine .bind (ensures_popIdentifier h) fun _ _ h => ?_
  refine .bind (ensures_popAspectModifiers h) fun _ _ h => ?_
  exact ensures_pushNode h trivial

theorem turns_headerRest :
    Turns plain (headerRest f c)
      [node .type, node .fragment, provided (c.arity = 2) (node .fragment .many)]
      (node .type) := by
  intro w frame h
  have hfinish : ∀ (rest : List Fragment) w',
      w'.Fits plain ((node .fragment).atop ((node .type).atop frame)) →
      Ensures plain w' (do
        let first ← popFragment
        let run := f.joinTokens (first :: rest ++ [f.pseudoToken "\x7b" false c.lookahead])
        let aspect ← typeOnTop .aspect
        let aspect ← withReporter (f.setDominates run aspect)
        let aspect ← withReporter (f.setPerClause run aspect)
        replaceTop (.type (reachTo run.span.stop aspect)))
        fun _ w' => w'.Fits plain ((node .type).atop frame) := by
    intro rest w' h
    refine .bind (ensures_popFragment h) fun _ _ h => ?_
    refine .bind (ensures_typeOnTop h.2) fun _ _ h => ?_
    refine .bind (ensures_withReporter h) fun _ _ h => ?_
    refine .bind (ensures_withReporter h) fun _ _ h => ?_
    exact ensures_replaceTop h trivial
  unfold headerRest
  by_cases harity : c.arity = 2
  · rw [decide_eq_true harity] at h
    rw [if_pos harity]
    exact .bind (ensures_popFragments h) fun rest w' h => hfinish rest w' h.2
  · rw [decide_eq_false harity] at h
    rw [if_neg harity]
    exact .pure_bind (hfinish [] w h)

/-! ### Pointcuts and advice -/

theorem turns_pointcutHeader :
    Turns plain (pointcutHeader f) [modifiers, word, word] (node .method) := by
  intro w frame h
  refine .bind (ensures_popIdentifier h) fun _ _ h => ?_
  refine .bind (ensures_popIdentifier h) fun _ _ h => ?_
  refine .bind (ensures_popModifiers h) fun _ _ h => ?_
  exact ensures_pushNode h trivial

theorem turns_pointcutDecl {hasDesignator : Bool} :
    Turns plain (pointcutDecl f hasDesignator c)
      [node .method, node .parameter .many, provided hasDesignator (node .fragment .many)]
      (node .method) := by
  intro w frame h
  cases hasDesignator with
  | false =>
      refine .pure_bind ?_
      refine .bind (ensures_popParameters h) fun _ _ h => ?_
      exact ensures_updateMethod h
  | true =>
      refine .bind (ensures_popFragments h) fun _ _ h => ?_
      refine .bind (ensures_withReporter h.2).map fun _ _ h => ?_
      refine .bind (ensures_popParameters h) fun _ _ h => ?_
      exact ensures_updateMethod h

theorem turns_aroundHeaderName {hasReturnType : Bool} :
    Turns plain (aroundHeaderName f hasReturnType)
      [modifiers, provided hasReturnType type, word] (node .method) := by
  intro w frame h
  refine .bind (ensures_popIdentifier h) fun keyword _ h => ?_
  have hfinish : ∀ (returnType : TypeRef) w', w'.Fits plain (modifiers.atop frame) →
      Ensures plain w' (do
        let modifiers ← popModifiers
        pushAdvice keyword returnType modifiers f.newAroundAdvice)
        fun _ w' => w'.Fits plain ((node .method).atop frame) := by
    intro returnType w' h
    refine .bind (ensures_popModifiers h) fun _ _ h => ?_
    exact ensures_pushNode h trivial
  cases hasReturnType with
  | false => exact .bind (ensures_report h) fun _ _ h => .pure_bind (hfinish _ _ h)
  | true => exact .bind (ensures_popType h) hfinish

theorem turns_adviceHeaderName {after : Bool} :
    Turns plain (adviceHeaderName f after) [modifiers, word] (node .method) := by
  intro w frame h
  refine .bind (ensures_popIdentifier h) fun _ _ h => ?_
  refine .bind (ensures_popModifiers h) fun _ _ h => ?_
  exact ensures_pushNode h trivial

theorem turns_extraParameter {formal : Bool} :
    Turns plain (extraParameter formal) [word, provided formal (node .parameter)]
      (node .extraParameter) := by
  intro w frame h
  have hfinish : ∀ (parameter : Option Parameter) w', w'.Fits plain (word.atop frame) →
      Ensures plain w' (do
        let name ← popIdentifier
        pushNode (.extraParameter ⟨name, parameter⟩))
        fun _ w' => w'.Fits plain ((node .extraParameter).atop frame) := by
    intro parameter w' h
    refine .bind (ensures_popIdentifier h) fun _ _ h => ?_
    exact ensures_pushNode h trivial
  cases formal with
  | false => exact .pure_bind (hfinish none w h)
  | true => exact .bind (ensures_popParameter h).map hfinish

theorem turns_adviceHeader {hasExtra : Bool} :
    Turns plain (adviceHeader f hasExtra c)
      [node .method, node .parameter .many, provided hasExtra (node .extraParameter .optional),
        type .type .many, node .fragment .many]
      (node .method) := by
  intro w frame h
  refine .bind (ensures_popFragments h) fun tokens _ h => ?_
  refine .bind (ensures_popTypes h.2) fun throws _ h => ?_
  have hfinish : ∀ (extra : Option ExtraParameter) w',
      w'.Fits plain ((node .parameter .many).atop ((node .method).atop frame)) →
      Ensures plain w' (completeAdvice f tokens throws extra c)
        fun _ w' => w'.Fits plain ((node .method).atop frame) := by
    intro extra w' h
    refine .bind (ensures_popParameters h) fun _ _ h => ?_
    refine .bind (ensures_withReporter h) fun _ _ h => ?_
    refine .bind (ensures_methodOnTop h) fun _ _ h => ?_
    cases extra with
    | none => exact .pure_bind (ensures_replaceTop h trivial)
    | some extra =>
        refine .bind (ensures_withReporter h) fun _ _ h => ?_
        exact ensures_replaceTop h trivial
  cases hasExtra with
  | false => exact .pure_bind (hfinish none _ h)
  | true =>
      refine .bind (ensures_popOptionalNode h) fun extra _ hextra => ?_
      cases extra with
      | none => exact .pure_bind (hfinish none _ hextra.2)
      | some n =>
          obtain ⟨found, hfound, _⟩ := NodeRole.exists_extraParameter (hextra.1 n rfl)
          exact .bind (ensures_expected ⟨found, hfound⟩ hextra.2).map hfinish

/-! ### Declare statements -/

theorem turns_declareHeader :
    Turns plain (declareHeader f c) [word, word] (node .fragment .many) := by
  intro w frame h
  refine .bind (ensures_popIdentifier h) fun _ _ h => ?_
  refine .bind (ensures_popIdentifier h) fun _ _ h => ensures_pushNodes h ?_
  simp only [List.forall_mem_cons, List.not_mem_nil, false_implies, implies_true, and_true]
  exact ⟨fun _ => Factory.plain_pseudoToken _ _ _, fun _ => Factory.plain_pseudoToken _ _ _,
    fun _ => Factory.plain_pseudoToken _ _ _⟩

theorem turns_declareAnnotationHeader :
    Turns plain (declareAnnotationHeader f c) [word, word] (node .fragment .many) := by
  intro w frame h
  refine .bind (ensures_popIdentifier h) fun _ _ h => ?_
  refine .bind (ensures_popIdentifier h) fun _ _ h => ensures_pushNodes h ?_
  simp only [List.forall_mem_cons, List.not_mem_nil, false_implies, implies_true, and_true]
  exact ⟨fun _ => Factory.plain_pseudoToken _ _ _, fun _ => Factory.plain_pseudoToken _ _ _,
    fun _ => Factory.plain_pseudoToken _ _ _, fun _ => Factory.plain_pseudoToken _ _ _⟩

/-- The one action that may cut a text: it takes the quotes off the message of the statement. -/
theorem turns_declareDecl :
    Turns plain (declareDecl f c) [node .fragment .many, node .fragment .many]
      (node .method) := by
  intro w frame h
  refine .bind (ensures_popFragments h) fun body _ hbody => ?_
  refine .bind (ensures_popFragments hbody.2) fun header w' hheader => ?_
  have hrun : plain → (f.joinTokens (header ++ body ++
      [f.pseudoToken ";" false (c.span 2)])).Plain := by
    intro hplain
    refine Factory.plain_joinTokens fun x hx => ?_
    rcases List.mem_append.mp hx with hx | hx
    · rcases List.mem_append.mp hx with hx | hx
      · exact hheader.1 x hx hplain
      · exact hbody.1 x hx hplain
    · rw [List.mem_singleton.mp hx]
      exact Factory.plain_pseudoToken _ _ _
  refine .bind (Q := fun seen w'' => seen = w' ∧ w'' = w') ⟨rfl, rfl⟩ fun seen w'' hw => ?_
  obtain ⟨rfl, rfl⟩ := hw
  split
  · rename_i text hdeclare
    exact ⟨fun hplain => Factory.newDeclare_ne_error (hrun hplain) hdeclare, text, rfl⟩
  · rename_i m reporter _
    refine .bind (Q := fun _ w' => w'.Fits plain frame) (hheader.2.of_values rfl rfl) fun _ _ h => ?_
    exact ensures_pushNode h trivial

theorem turns_annotationDeclare {sign : Char} :
    Turns plain (annotationDeclare f sign c)
      [node .fragment .many, node .fragment .many, expr .annotationUse] (node .method) := by
  intro w frame h
  have hannotation : Ensures plain w
      (do expectNode .expression .annotationUse (← popExpr).annotationUse?) fun _ w' =>
        w'.Fits plain ((node .fragment .many).atop ((node .fragment .many).atop frame)) := by
    refine .bind (ensures_popExprAs h) fun e _ he => ?_
    cases e with
    | annotationUse use => exact ensures_expected ⟨use, rfl⟩ he.2
    | _ => exact absurd he.1 id
  refine .chain hannotation fun _ _ h => ?_
  refine .bind (ensures_popFragments h) fun _ _ h => ?_
  refine .bind (ensures_popFragments h.2) fun _ _ h => ?_
  refine .bind (ensures_withReporter h.2) fun _ _ h => ?_
  exact ensures_pushNode h trivial

/-! ### Inter-type members -/

theorem ensures_reportTargetForm {w : Workspace} {p : Profile} {pattern : TargetForm}
    (h : w.Fits plain p) :
    Ensures plain w (reportTargetForm pattern c) fun _ w' => w'.Fits plain p := by
  cases pattern with
  | plain => exact .pure h
  | starSegment | starOnly | plus => exact ensures_report h

theorem turns_interTypeFieldHeader {pattern : TargetForm} :
    Turns plain (interTypeFieldHeader f pattern c)
      [modifiers, type, word .some, provided (pattern ≠ .starOnly) word] (node .method) := by
  intro w frame h
  have hfinish : ∀ (name : Identifier) w',
      w'.Fits plain ((word .some).atop (type.atop (modifiers.atop frame))) →
      Ensures plain w' (do
        reportTargetForm pattern c
        let onType ← popName
        let type ← popType
        let modifiers ← popModifiers
        let field := { f.newInterTypeField (.ofName onType) with selector := name.name }
        let field := { f.setDeclaredModifiers modifiers.flags field with returnType := some type }
        pushNode (.method (headMethod name.span modifiers field)))
        fun _ w' => w'.Fits plain ((node .method).atop frame) := by
    intro name w' h
    refine .bind (ensures_reportTargetForm h) fun _ _ h => ?_
    refine .bind (ensures_popName h) fun _ _ h => ?_
    refine .bind (ensures_popType h) fun _ _ h => ?_
    refine .bind (ensures_popModifiers h) fun _ _ h => ?_
    exact ensures_pushNode h trivial
  cases pattern with
  | starOnly => exact .pure_bind (hfinish _ w h)
  | plain | starSegment | plus => exact .bind (ensures_popIdentifier h) hfinish

theorem turns_interTypeFieldBody {hasInitializer : Bool} :
    Turns plain (interTypeFieldBody f hasInitializer)
      [node .method, provided hasInitializer expr] (node .method) := by
  intro w frame h
  cases hasInitializer with
  | false => exact .pure h
  | true =>
      refine .bind (ensures_popExpr h) fun _ _ h => ?_
      exact ensures_updateMethod h

theorem turns_interTypeFieldDecl :
    Turns plain (interTypeFieldDecl c) [node .method] (node .method) :=
  fun _ _ h => ensures_updateMethod h

theorem turns_interTypeMethodHeaderName {pattern : TargetForm} :
    Turns plain (interTypeMethodHeaderName f pattern c) [modifiers, type, word .some, word]
      (node .method) := by
  intro w frame h
  refine .bind (ensures_popIdentifier h) fun _ _ h => ?_
  refine .bind (ensures_reportTargetForm h) fun _ _ h => ?_
  refine .bind (ensures_popName h) fun _ _ h => ?_
  refine .bind (ensures_popType h) fun _ _ h => ?_
  refine .bind (ensures_popModifiers h) fun _ _ h => ?_
  exact ensures_pushNode h trivial

theorem turns_interTypeConstructorHeaderName {plus : Bool} :
    Turns plain (interTypeConstructorHeaderName f plus c) [modifiers, word .some]
      (node .method) := by
  intro w frame h
  have hfinish : ∀ w', w'.Fits plain ((word .some).atop (modifiers.atop frame)) →
      Ensures plain w' (do
        let onType ← popName
        let modifiers ← popModifiers
        let keyword := c.span (if plus then 4 else 3)
        let constructor :=
          { f.setTarget (.ofName onType) f.newInterTypeConstructor with
            selector := onType.join "_" ++ "_new" }
        let constructor := f.setDeclaredModifiers modifiers.flags constructor
        pushNode (.method (headMethod keyword modifiers constructor)))
        fun _ w' => w'.Fits plain ((node .method).atop frame) := by
    intro w' h
    refine .bind (ensures_popName h) fun _ _ h => ?_
    refine .bind (ensures_popModifiers h) fun _ _ h => ?_
    exact ensures_pushNode h trivial
  cases plus with
  | false => exact .pure_bind (hfinish w h)
  | true => exact .bind (ensures_report h) fun _ w' h => hfinish w' h

theorem turns_interTypeClassHeaderName :
    Turns plain (interTypeClassHeaderName f) [modifiers, word .some, word] (node .type) := by
  intro w frame h
  refine .bind (ensures_popIdentifier h) fun _ _ h => ?_
  refine .bind (ensures_popName h) fun _ _ h => ?_
  refine .bind (ensures_popModifiers h) fun _ _ h => ?_
  exact ensures_pushNode h trivial

/-! ### Pseudo tokens -/

theorem turns_literalToken : Turns plain (literalToken f) [expr .literal] (node .fragment) := by
  intro w frame h
  refine .bind (ensures_popExprAs h) fun e _ he => ?_
  cases e with
  | literal kind text span =>
      exact ensures_pushNode he.2 fun hplain => Factory.plain_literalToken span (he.1 hplain)
  | _ => exact absurd he.1 id

end AspectLang.Work
