import AspectLang.Proofs.Parse.AspectActionsInPlace
import AspectLang.Proofs.Parse.BaseActionsSeated

/-! # Where the actions of aspect constructs seat what they build

Factories put no statements into declarations, and report problems of runs of tokens that lie in
the text; so these actions seat what they build as those of the base language do.
`Work.seats_act` is the fact for all actions but those that change a declaration below the right
side, for which `Work.seats_below` says that they take the values of the right side away.
`Handle.Serves` tells which symbols have to cover text for that. -/

namespace AspectLang

/-! ### What actions rely on -/

namespace SemanticAction

/-- Whether an action changes the declaration below its right side, and leaves nothing else. -/
def changesBelow : SemanticAction → Bool
  | .superclass | .interfaces | .classBody | .aspect .headerRest
  | .aspect (.interTypeFieldBody _) => true
  | _ => false

/-- Whether the right side of an action may cover no text. -/
def mayCoverNothing : SemanticAction → Bool
  | .none | .emptyNodes | .emptyExprs | .emptyTypes | .emptyModifiers | .dimsZero
  | .compilationUnit | .aspect (.interTypeFieldBody false) => true
  | _ => false

/-- The symbol whose range an action takes for a range of its own. -/
def spot? : SemanticAction → Option Nat
  | .emptyMethodBody | .emptyStatement | .thisExpr | .fieldAccess true | .callOnSuper => some 0
  | .localVariablesStatement => some 1
  | _ => Option.none

/-- Whether an action makes an expression of its first symbol, which stands in front of the
others. -/
def leads : SemanticAction → Bool
  | .fieldAccess true | .callOnSuper => true
  | _ => false

end SemanticAction

/-- The symbols of a right side are as an action relies on, which takes values in given places. -/
structure Handle.Serves (g : Spacing) (c : Handle) (place : Nat → Place)
    (action : SemanticAction) : Prop where
  whole : action.mayCoverNothing = false → c.whole?.isSome = true
  spot : ∀ i, action.spot? = some i → (c.spans.getD i none).isSome = true
  leading : action.leads = true → ∀ i, Place.Precedes g.gap (c.spans.getD 0 none) (place i)
  closing : action = .localVariablesStatement →
    (place 0).Precedes g.gap (c.spans.getD 1 none)

/-! ### Factories and statements -/

namespace Factory

variable {f : Factory} {m : MethodDecl}

theorem statements_setDesignator (fragment : Fragment) :
    (f.setDesignator fragment m).statements = m.statements := by
  unfold setDesignator
  dsimp only
  split <;> rfl

theorem statements_setExtra (parameter : Parameter) :
    (f.setExtra parameter m).statements = m.statements := by
  unfold setExtra
  split <;> rfl

theorem statements_narrowAfter (kind : AdviceKind) :
    (f.narrowAfter kind m).statements = m.statements := by
  unfold narrowAfter
  split
  · split <;> rfl
  · rfl

theorem statements_updateInterType (change : InterTypeMember → InterTypeMember) :
    (f.updateInterType change m).statements = m.statements := by
  unfold updateInterType
  split <;> rfl

theorem statements_newDeclare {run : Fragment} {r r' : Reporter}
    (h : f.newDeclare run r = .ok (m, r')) : m.statements = none := by
  cases f with
  | placeholder =>
      cases h
      rfl
  | aspects =>
      unfold newDeclare at h
      dsimp only at h
      split at h <;> cases h <;> rfl

theorem statements_newAnnotationDeclare {run : Fragment} {annotationUse : AnnotationUse}
    {sign : Char} {r : Reporter} :
    (f.newAnnotationDeclare run annotationUse sign r).1.statements = none := by
  cases f with
  | placeholder => rfl
  | aspects =>
      unfold newAnnotationDeclare
      dsimp only
      split <;> rfl

end Factory

namespace Work

open Profile

variable {g : Spacing} {c : Handle} {f : Factory} {w : Workspace} {l : List Seat}

theorem statements_applyExtra {extra : ExtraParameter} {m : MethodDecl} {r : Reporter} :
    (applyExtra f extra m r).1.statements = m.statements := by
  unfold applyExtra
  dsimp only
  split
  · rfl
  · split
    · rfl
    · rename_i narrowed hnarrowed
      have hstatements : narrowed.statements = m.statements := by
        split at hnarrowed
        · exact Option.some.inj hnarrowed ▸ Factory.statements_narrowAfter _
        · exact Option.some.inj hnarrowed ▸ Factory.statements_narrowAfter _
        · cases hnarrowed
      split
      · rw [Factory.statements_setExtra]
        exact hstatements
      · exact hstatements

theorem endsBy_applyExtra {extra : ExtraParameter} {m : MethodDecl} {r : Reporter} {limit : Nat}
    (hextra : extra.name.span.EndsBy limit) (hr : r.EndsBy limit) :
    (applyExtra f extra m r).2.EndsBy limit := by
  unfold applyExtra
  dsimp only
  split
  · exact hr.report hextra
  · split
    · exact hr.report hextra
    · split <;> exact hr

theorem sits_factoryFor {dialect : Dialect} {construct : String} {span : Span} (h : w.Sits g l)
    (hspan : span.EndsBy g.limit) :
    Yields w (factoryFor dialect construct span) fun _ w' => w'.Sits g l := by
  unfold factoryFor
  cases dialect with
  | enabled f => exact .pure h
  | disabled =>
      refine .bind yields_get fun seen w' hw => ?_
      obtain ⟨rfl, rfl⟩ := hw
      split
      · intro f w' hok
        cases hok
        exact h.of_values rfl rfl rfl rfl (h.reporter.report hspan)
      · exact .pure h

/-! ### Aspects -/

theorem sits_popAspectModifiers {privileged : Bool} {σ τ υ : Place} (hc : c.Tidy g)
    (h : w.Sits g (⟨.exprs, σ⟩ :: cond privileged [⟨.words, τ⟩, ⟨.exprs, υ⟩] [] ++ l)) :
    Yields w (popAspectModifiers privileged c) fun _ w' => w'.Sits g l := by
  refine .bind (sits_popModifiers h) fun inner _ hinner => ?_
  cases privileged with
  | false => exact .pure hinner.2
  | true =>
      refine .bind (sits_popIdentifier hinner.2) fun _ _ h => ?_
      refine .bind (sits_popModifiers h.2) fun outer _ h => ?_
      unfold joinModifiers
      split
      · exact .bind (sits_report h.2 (hc.endsBy_span 2)) fun _ _ h => .pure h
      · exact .pure h.2

theorem seats_aspectHeaderName {privileged typeParameters : Bool} :
    Seats g c (aspectHeaderName f privileged typeParameters c)
      [privilege privileged, modifiers, word, word,
        provided typeParameters (type .parameter .many)]
      (node .type) := by
  intro place hc w frame h
  obtain ⟨σ, τ, υ, φ, ψ, hrow⟩ : ∃ σ τ υ φ ψ : Place, w.Sits g (⟨.words, σ⟩ :: ⟨.words, τ⟩ ::
      ⟨.exprs, υ⟩ :: (cond privileged [⟨.words, φ⟩, ⟨.exprs, ψ⟩] [] ++ frame)) := by
    cases privileged with
    | false => cases typeParameters <;> exact ⟨_, _, _, none, none, h⟩
    | true => cases typeParameters <;> exact ⟨_, _, _, _, _, h⟩
  refine .bind (sits_popTypeParameters hrow) fun _ _ h => ?_
  refine .bind (sits_popIdentifier h) fun _ _ h => ?_
  refine .bind (sits_popIdentifier h.2) fun _ _ h => ?_
  refine .bind (sits_popAspectModifiers hc.tidy h.2) fun _ _ h => sits_pushNode h ?_
  cases f <;> exact Member.lies_type nofun

theorem seats_headerRest :
    Seats g c (headerRest f c) [node .fragment, provided (c.arity = 2) (node .fragment .many)]
      {} := by
  intro place hc w frame h
  have hfinish : ∀ (rest : List Fragment) w', (∀ x ∈ rest, x.EndsBy g.limit) ∧
      w'.Sits g (⟨.nodes true, place 0⟩ :: frame) →
      Yields w' (do
        let first ← popFragment
        let run := f.joinTokens (first :: rest ++ [f.pseudoToken "\x7b" false c.lookahead])
        let aspect ← typeOnTop .aspect
        let aspect ← withReporter (f.setDominates run aspect)
        let aspect ← withReporter (f.setPerClause run aspect)
        replaceTop (.type (reachTo run.span.stop aspect)))
        fun _ w' => w'.Sits g frame := by
    intro rest w' h
    refine .bind (sits_popFragment h.2) fun first _ hfirst => ?_
    have hrun : (f.joinTokens (first :: rest ++
        [f.pseudoToken "\x7b" false c.lookahead])).IsRun g.limit :=
      Factory.isRun_joinTokens (List.forall_mem_cons.mpr ⟨hfirst.1, h.1⟩) hc.tidy.lookahead
        (.inr rfl)
    refine .bind (sits_typeOnTop hfirst.2) fun t _ ht => ?_
    refine .bind (sits_withReporter ht.2 fun _ hr => Factory.endsBy_setDominates hrun hr)
      fun t₁ _ h₁ => ?_
    obtain ⟨⟨reporter₁, rfl⟩, h₁⟩ := h₁
    refine .bind (sits_withReporter h₁ fun _ hr => Factory.endsBy_setPerClause hrun hr)
      fun t₂ _ h₂ => ?_
    obtain ⟨⟨reporter₂, rfl⟩, h₂⟩ := h₂
    refine sits_replaceDecl h₂ fun _ => ht.1.of_members ?_
    exact (Factory.setPerClause_keeps _ reporter₂).1.trans
      (Factory.setDominates_keeps _ reporter₁).1
  unfold headerRest
  by_cases harity : c.arity = 2
  · rw [decide_eq_true harity] at h
    rw [if_pos harity]
    exact .bind (sits_popFragments h) hfinish
  · rw [decide_eq_false harity] at h
    rw [if_neg harity]
    exact .pure_bind (hfinish [] w ⟨nofun, h⟩)

/-! ### Pointcuts and advice -/

theorem seats_pointcutHeader :
    Seats g c (pointcutHeader f) [modifiers, word, word] (node .method) := by
  intro place hc w frame h
  refine .bind (sits_popIdentifier h) fun _ _ h => ?_
  refine .bind (sits_popIdentifier h.2) fun _ _ h => ?_
  refine .bind (sits_popModifiers h.2) fun _ _ h => sits_pushNode h.2 ?_
  cases f <;> exact Member.lies_bodiless rfl

theorem seats_pointcutDecl {hasDesignator : Bool} :
    Seats g c (pointcutDecl f hasDesignator c)
      [node .method, node .parameter .many, provided hasDesignator (node .fragment .many)]
      (node .method) := by
  intro place hc w frame h
  have hfinish : ∀ (change : List Parameter → MethodDecl → MethodDecl) w',
      (∀ parameters m, (change parameters m).statements = m.statements) →
      w'.Sits g (⟨.nodes false, place 1⟩ :: ⟨.nodes true, place 0⟩ :: frame) →
      Yields w' (do
        let parameters ← popParameters
        updateMethod (change parameters))
        fun _ w' => w'.Sits g (⟨.nodes true, c.whole?⟩ :: frame) := by
    intro change w' hchange h
    refine .bind (sits_popParameters h) fun parameters _ h => ?_
    exact sits_updateMethod (h.top (hc.within 0)) fun m hm =>
      hm.of_statements (hchange parameters m)
  cases hasDesignator with
  | false => exact .pure_bind (hfinish _ w (fun _ _ => rfl) h)
  | true =>
      refine .bind (sits_popFragments h) fun tokens _ htokens => ?_
      have hrun := Factory.isRun_joinTokens (f := f) htokens.1
        (hc.tidy.endsBy_span (c.arity - 1)) (.inl rfl)
      refine .bind (.mapped (sits_withReporter htokens.2 fun r =>
        Factory.endsBy_designator hrun) fun _ _ => And.right) fun designator w' h =>
          hfinish _ w' (fun parameters m => ?_) h
      cases designator with
      | none => rfl
      | some d => exact Factory.statements_setDesignator d

theorem seats_aroundHeaderName {hasReturnType : Bool} :
    Seats g c (aroundHeaderName f hasReturnType) [modifiers, provided hasReturnType type, word]
      (node .method) := by
  intro place hc w frame h
  have hrow : w.Sits g (⟨.words, place 1⟩ :: ⟨.exprs, place 0⟩ :: frame) := by
    cases hasReturnType <;> exact h
  refine .bind (sits_popIdentifier hrow) fun keyword _ hname => ?_
  have hfinish : ∀ (returnType : TypeRef) w', w'.Sits g (⟨.exprs, place 0⟩ :: frame) →
      Yields w' (do
        let modifiers ← popModifiers
        pushAdvice keyword returnType modifiers f.newAroundAdvice)
        fun _ w' => w'.Sits g (⟨.nodes true, c.whole?⟩ :: frame) := by
    intro returnType w' h
    refine .bind (sits_popModifiers h) fun _ _ h => sits_pushNode h.2 ?_
    cases f <;> exact Member.lies_bodiless rfl
  cases hasReturnType with
  | false =>
      exact .bind (sits_report hname.2 (hc.endsBy hname.1)) fun _ _ h => .pure_bind (hfinish _ _ h)
  | true => exact .bind (sits_popType hname.2) hfinish

theorem seats_adviceHeaderName {after : Bool} :
    Seats g c (adviceHeaderName f after) [modifiers, word] (node .method) := by
  intro place hc w frame h
  refine .bind (sits_popIdentifier h) fun _ _ h => ?_
  refine .bind (sits_popModifiers h.2) fun _ _ h => sits_pushNode h.2 ?_
  cases f <;> cases after <;> exact Member.lies_bodiless rfl

theorem seats_extraParameter {formal : Bool} :
    Seats g c (extraParameter formal) [word, provided formal (node .parameter)]
      (node .extraParameter) := by
  intro place hc w frame h
  have hfinish : ∀ (parameter : Option Parameter) w', w'.Sits g (⟨.words, place 0⟩ :: frame) →
      Yields w' (do
        let name ← popIdentifier
        pushNode (.extraParameter ⟨name, parameter⟩))
        fun _ w' => w'.Sits g (⟨.nodes true, c.whole?⟩ :: frame) := by
    intro parameter w' h
    refine .bind (sits_popIdentifier h) fun _ _ h => ?_
    exact sits_pushNode h.2 (hc.endsBy h.1)
  cases formal with
  | false => exact .pure_bind (hfinish none w h)
  | true => exact .bind (.mapped (sits_popParameter h) fun _ _ => And.right) hfinish

theorem seats_adviceHeader {hasExtra : Bool} :
    Seats g c (adviceHeader f hasExtra c)
      [node .method, node .parameter .many, provided hasExtra (node .extraParameter .optional),
        type .type .many, node .fragment .many]
      (node .method) := by
  intro place hc w frame h
  obtain ⟨σ, τ, hrow⟩ : ∃ σ τ : Place, w.Sits g (⟨.nodes false, σ⟩ ::
      (cond hasExtra [⟨.nodes false, τ⟩] [] ++
        ⟨.nodes false, place 1⟩ :: ⟨.nodes true, place 0⟩ :: frame)) := by
    cases hasExtra with
    | false => exact ⟨_, none, h⟩
    | true => exact ⟨_, _, h⟩
  refine .bind (sits_popFragments hrow) fun tokens _ htokens => ?_
  refine .bind (sits_popTypes htokens.2) fun throws _ h => ?_
  have hrun := Factory.isRun_joinTokens (f := f) htokens.1 hc.tidy.lookahead (.inr rfl)
  have hfinish : ∀ (extra : Option ExtraParameter) w',
      (∀ e ∈ extra, e.name.span.EndsBy g.limit) ∧
        w'.Sits g (⟨.nodes false, place 1⟩ :: ⟨.nodes true, place 0⟩ :: frame) →
      Yields w' (completeAdvice f tokens throws extra c)
        fun _ w' => w'.Sits g (⟨.nodes true, c.whole?⟩ :: frame) := by
    intro extra w' hextra
    refine .bind (sits_popParameters hextra.2) fun parameters _ h => ?_
    refine .bind (sits_withReporter h fun _ hr => Factory.endsBy_designator hrun hr)
      fun designator _ h => ?_
    refine .bind (sits_methodOnTop (h.2.top (hc.within 0))) fun m _ hm => ?_
    have hlies : Member.Lies g (.method (f.setDesignator designator
        { m with parameters, throws, extent.declaration.stop := c.whole.stop })) :=
      hm.1.of_statements (Factory.statements_setDesignator _)
    cases extra with
    | none => exact .pure_bind (sits_replaceDecl hm.2 fun _ => hlies)
    | some extra =>
        refine .bind (sits_withReporter hm.2 fun _ => endsBy_applyExtra (hextra.1 extra rfl))
          fun m' _ hm' => ?_
        obtain ⟨⟨reporter, rfl⟩, hm'⟩ := hm'
        exact sits_replaceDecl hm' fun _ => hlies.of_statements statements_applyExtra
  cases hasExtra with
  | false => exact .pure_bind (hfinish none _ ⟨nofun, h⟩)
  | true =>
      refine .bind (sits_popOptionalNode h) fun extra _ hextra => ?_
      cases extra with
      | none => exact .pure_bind (hfinish none _ ⟨nofun, hextra.2⟩)
      | some n =>
          refine .bind (sits_present (yields_expectNode fun e he => ⟨?_, hextra.2⟩)) hfinish
          have hn := hextra.1 n rfl
          cases n <;> cases he
          exact hn

/-! ### Declare statements -/

theorem seats_declareHeader :
    Seats g c (declareHeader f c) [word, word] (node .fragment .many) := by
  intro place hc w frame h
  refine .bind (sits_popIdentifier h) fun _ _ hkind => ?_
  refine .bind (sits_popIdentifier hkind.2) fun _ _ h => sits_pushNodes h.2 ?_
  simp only [List.forall_mem_cons, List.not_mem_nil, false_implies, implies_true, and_true]
  exact ⟨Factory.endsBy_pseudoToken (hc.endsBy h.1), Factory.endsBy_pseudoToken (hc.endsBy hkind.1),
    Factory.endsBy_pseudoToken (hc.tidy.endsBy_span 2)⟩

theorem seats_declareAnnotationHeader :
    Seats g c (declareAnnotationHeader f c) [word, word] (node .fragment .many) := by
  intro place hc w frame h
  refine .bind (sits_popIdentifier h) fun _ _ hkind => ?_
  refine .bind (sits_popIdentifier hkind.2) fun _ _ h => sits_pushNodes h.2 ?_
  simp only [List.forall_mem_cons, List.not_mem_nil, false_implies, implies_true, and_true]
  exact ⟨Factory.endsBy_pseudoToken (hc.endsBy h.1),
    Factory.endsBy_pseudoToken (hc.tidy.endsBy_span 1),
    Factory.endsBy_pseudoToken (hc.endsBy hkind.1),
    Factory.endsBy_pseudoToken (hc.tidy.endsBy_span 3)⟩

theorem seats_declareDecl :
    Seats g c (declareDecl f c) [node .fragment .many, node .fragment .many] (node .method) := by
  intro place hc w frame h
  refine .bind (sits_popFragments h) fun body _ hbody => ?_
  refine .bind (sits_popFragments hbody.2) fun header w' hheader => ?_
  have hrun := Factory.isRun_joinTokens (f := f)
    (List.forall_mem_append.mpr ⟨hheader.1, hbody.1⟩) (hc.tidy.endsBy_span 2) (.inl rfl)
  refine .bind yields_get fun seen w'' hw => ?_
  obtain ⟨rfl, rfl⟩ := hw
  split
  · intro _ _ hok
    cases hok
  · rename_i m reporter hnew
    have hreporter := Factory.endsBy_newDeclare hrun hheader.2.reporter hnew
    have hbodiless : m.statements = none := Factory.statements_newDeclare hnew
    refine .bind (sits_set (hheader.2.of_values rfl rfl rfl rfl hreporter)) fun _ _ h => ?_
    exact sits_pushNode h (Member.lies_bodiless hbodiless)

theorem seats_annotationDeclare {sign : Char} :
    Seats g c (annotationDeclare f sign c)
      [node .fragment .many, node .fragment .many, expr .annotationUse] (node .method) := by
  intro place hc w frame h
  have hannotation : Yields w
      (do expectNode .expression .annotationUse (← popExpr).annotationUse?) fun _ w' =>
        w'.Sits g (⟨.nodes false, place 1⟩ :: ⟨.nodes false, place 0⟩ :: frame) :=
    .bind (sits_popExpr h) fun _ _ h => yields_expectNode fun _ _ => h.2
  refine .chain hannotation fun _ _ h => ?_
  refine .bind (sits_popFragments h) fun pattern _ hpattern => ?_
  refine .bind (sits_popFragments hpattern.2) fun header _ hheader => ?_
  have hrun := Factory.isRun_joinTokens (f := f)
    (List.forall_mem_append.mpr ⟨hheader.1, hpattern.1⟩)
    (hc.tidy.endsBy_span (c.arity - 1)) (.inl rfl)
  refine .bind (sits_withReporter hheader.2 fun _ hr => Factory.endsBy_newAnnotationDeclare hrun hr)
    fun m _ hm => ?_
  obtain ⟨⟨reporter, rfl⟩, hm⟩ := hm
  refine sits_pushNode hm (Member.lies_bodiless ?_)
  exact Factory.statements_newAnnotationDeclare

/-! ### Inter-type members -/

theorem sits_reportTargetForm {pattern : TargetForm} (hc : c.Tidy g) (h : w.Sits g l) :
    Yields w (reportTargetForm pattern c) fun _ w' => w'.Sits g l := by
  cases pattern with
  | plain => exact .pure h
  | starSegment | starOnly => exact sits_report h (hc.endsBy_span 4)
  | plus => exact sits_report h (hc.endsBy_span 3)

theorem seats_interTypeFieldHeader {pattern : TargetForm} :
    Seats g c (interTypeFieldHeader f pattern c)
      [modifiers, type, word .some, provided (pattern ≠ .starOnly) word] (node .method) := by
  intro place hc w frame h
  have hfinish : ∀ (name : Identifier) w',
      w'.Sits g (⟨.words, place 1⟩ :: ⟨.exprs, place 0⟩ :: frame) →
      Yields w' (do
        reportTargetForm pattern c
        let onType ← popName
        let type ← popType
        let modifiers ← popModifiers
        let field := { f.newInterTypeField (.ofName onType) with selector := name.name }
        let field := { f.setDeclaredModifiers modifiers.flags field with returnType := some type }
        pushNode (.method (headMethod name.span modifiers field)))
        fun _ w' => w'.Sits g (⟨.nodes true, c.whole?⟩ :: frame) := by
    intro name w' h
    refine .bind (sits_reportTargetForm hc.tidy h) fun _ _ h => ?_
    refine .bind (sits_popName h) fun _ _ h => ?_
    refine .bind (sits_popType h.2) fun _ _ h => ?_
    refine .bind (sits_popModifiers h) fun _ _ h => sits_pushNode h.2 ?_
    cases f <;> exact Member.lies_bodiless rfl
  cases pattern with
  | starOnly => exact .pure_bind (hfinish _ w h)
  | plain | starSegment | plus =>
      exact .bind (sits_popIdentifier h) fun name w' h => hfinish name w' h.2

theorem seats_interTypeFieldBody {hasInitializer : Bool} :
    Seats g c (interTypeFieldBody f hasInitializer) [provided hasInitializer expr] {} := by
  intro place hc w frame h
  cases hasInitializer with
  | false => exact .pure h
  | true =>
      refine .bind (sits_popExpr h) fun _ _ h => ?_
      exact sits_updateMethod h.2 fun _ hm =>
        hm.of_statements (Factory.statements_updateInterType _)

theorem seats_interTypeFieldDecl : Seats g c (interTypeFieldDecl c) [node .method] (node .method) :=
  fun _ hc _ _ h => sits_updateMethod (h.top (hc.within 0)) fun _ hm => hm.of_statements rfl

theorem seats_interTypeMethodHeaderName {pattern : TargetForm} :
    Seats g c (interTypeMethodHeaderName f pattern c) [modifiers, type, word .some, word]
      (node .method) := by
  intro place hc w frame h
  refine .bind (sits_popIdentifier h) fun _ _ h => ?_
  refine .bind (sits_reportTargetForm hc.tidy h.2) fun _ _ h => ?_
  refine .bind (sits_popName h) fun _ _ h => ?_
  refine .bind (sits_popType h.2) fun _ _ h => ?_
  refine .bind (sits_popModifiers h) fun _ _ h => sits_pushNode h.2 ?_
  cases f <;> exact Member.lies_bodiless rfl

theorem seats_interTypeConstructorHeaderName {plus : Bool} :
    Seats g c (interTypeConstructorHeaderName f plus c) [modifiers, word .some]
      (node .method) := by
  intro place hc w frame h
  have hfinish : ∀ w', w'.Sits g (⟨.words, place 1⟩ :: ⟨.exprs, place 0⟩ :: frame) →
      Yields w' (do
        let onType ← popName
        let modifiers ← popModifiers
        let keyword := c.span (if plus then 4 else 3)
        let constructor :=
          { f.setTarget (.ofName onType) f.newInterTypeConstructor with
            selector := onType.join "_" ++ "_new" }
        let constructor := f.setDeclaredModifiers modifiers.flags constructor
        pushNode (.method (headMethod keyword modifiers constructor)))
        fun _ w' => w'.Sits g (⟨.nodes true, c.whole?⟩ :: frame) := by
    intro w' h
    refine .bind (sits_popName h) fun _ _ h => ?_
    refine .bind (sits_popModifiers h.2) fun _ _ h => sits_pushNode h.2 ?_
    cases f <;> exact Member.lies_bodiless rfl
  cases plus with
  | false => exact .pure_bind (hfinish w h)
  | true => exact .bind (sits_report h (hc.tidy.endsBy_span 2)) fun _ w' h => hfinish w' h

theorem seats_interTypeClassHeaderName :
    Seats g c (interTypeClassHeaderName f) [modifiers, word .some, word] (node .type) := by
  intro place hc w frame h
  refine .bind (sits_popIdentifier h) fun _ _ h => ?_
  refine .bind (sits_popName h.2) fun _ _ h => ?_
  refine .bind (sits_popModifiers h.2) fun _ _ h => sits_pushNode h.2 ?_
  cases f <;> exact Member.lies_type nofun

/-! ### Pseudo tokens -/

theorem seats_symbolToken {value : String} :
    Seats g c (pushNode (.fragment (f.pseudoToken value false (c.span 0)))) [] (node .fragment) :=
  fun _ hc _ _ h => sits_pushNode h (Factory.endsBy_pseudoToken (hc.tidy.endsBy_span 0))

theorem seats_literalToken : Seats g c (literalToken f) [expr .literal] (node .fragment) := by
  intro place hc w frame h
  refine .bind (sits_popExpr h) fun e _ he => ?_
  split
  · exact sits_pushNode he.2 (Factory.endsBy_setLiteralKind (hc.endsBy he.1.holds))
  · intro _ _ hok
    cases hok

/-- An action of an aspect construct that leaves the declaration below it alone. -/
theorem seats_aspectAction (dialect : Dialect) (action : AspectAction)
    (hbelow : (SemanticAction.aspect action).changesBelow = false) :
    Seats g c (aspectAction dialect c action) (action.effect c.arity).1
      (action.effect c.arity).2 := by
  intro place hc w frame h
  refine .bind (sits_factoryFor h hc.tidy.endsBy_whole) fun f w' h => ?_
  cases action with
  | headerRest | interTypeFieldBody _ => cases hbelow
  | aspectHeaderName privileged typeParameters =>
      exact seats_aspectHeaderName place hc w' frame h
  | pointcutHeader => exact seats_pointcutHeader place hc w' frame h
  | pointcutDecl designator => exact seats_pointcutDecl place hc w' frame h
  | aroundHeaderName returnType => exact seats_aroundHeaderName place hc w' frame h
  | adviceHeaderName after => exact seats_adviceHeaderName place hc w' frame h
  | adviceHeader extra => exact seats_adviceHeader place hc w' frame h
  | extraParameter formal => exact seats_extraParameter place hc w' frame h
  | declareHeader => exact seats_declareHeader place hc w' frame h
  | declareDecl => exact seats_declareDecl place hc w' frame h
  | declareAnnotationHeader => exact seats_declareAnnotationHeader place hc w' frame h
  | annotationDeclare sign => exact seats_annotationDeclare place hc w' frame h
  | interTypeFieldHeader pattern => exact seats_interTypeFieldHeader place hc w' frame h
  | interTypeFieldDecl => exact seats_interTypeFieldDecl place hc w' frame h
  | interTypeMethodHeaderName pattern =>
      exact seats_interTypeMethodHeaderName place hc w' frame h
  | interTypeConstructorHeaderName plus =>
      exact seats_interTypeConstructorHeaderName place hc w' frame h
  | interTypeClassHeaderName => exact seats_interTypeClassHeaderName place hc w' frame h
  | symbolToken kind => exact seats_symbolToken place hc w' frame h
  | identifierToken =>
      refine .bind (sits_popIdentifier h) fun _ _ h => ?_
      exact sits_pushNode h.2 (Factory.endsBy_pseudoToken (hc.endsBy h.1))
  | literalToken => exact seats_literalToken place hc w' frame h
  | modifierToken =>
      refine .bind (sits_popModifiers h) fun _ _ h => ?_
      exact seats_symbolToken place hc _ frame h.2
  | primitiveTypeToken =>
      refine .bind (sits_popType h) fun _ _ h => ?_
      exact seats_symbolToken place hc _ frame h
  | guardToken =>
      refine .bind (sits_popExpr h) fun _ _ h => ?_
      exact sits_pushNode h.2 (Factory.endsBy_guardToken hc.tidy.endsBy_whole)

/-- **Every action seats what it leaves in the place of the whole right side**, but for those that
change a declaration below it. -/
theorem seats_act (dialect : Dialect) {out : Profile} (hout : out.kinds.length ≤ 1)
    {action : SemanticAction} (hbelow : action.changesBelow = false) {place : Nat → Place}
    (hc : c.Spreads g place) (hs : c.Serves g place action) :
    SeatsAt g c place (act dialect c action) (action.effect c.arity out).1
      (action.effect c.arity out).2 := by
  have hwhole := hs.whole
  have hspot := hs.spot
  have hleading := hs.leading
  cases action with
  | superclass | interfaces | classBody => cases hbelow
  | none => exact seats_none hout place hc
  | emptyNodes => exact fun _ _ h => sits_pushNoNodes h
  | emptyExprs => exact fun _ _ h => sits_pushNoExprs h
  | emptyTypes => exact fun _ _ h => sits_pushNoTypes h
  | concatNodes => exact seats_concatNodes place hc
  | concatExprs => exact seats_concatExprs place hc
  | concatTypes => exact seats_concatTypes place hc
  | concatIdentifiers => exact seats_concatIdentifiers place hc
  | compilationUnit => exact seats_compilationUnit place hc
  | packageDecl => exact seats_packageDecl place hc
  | importDecl isStatic onDemand => exact seats_importDecl place hc
  | primitiveType name => exact fun _ _ h => sits_pushType h
  | namedType => exact seats_namedType place hc
  | qualifiedGenericType => exact seats_qualifiedGenericType place hc
  | genericType => exact seats_genericType place hc
  | arrayType => exact seats_arrayType place hc
  | dimsOne | dimsZero => exact fun _ _ h => sits_pushInt h
  | dimsMore => exact seats_dimsMore place hc
  | wildcard kind => exact seats_wildcard place hc
  | typeParameter bounded additional => exact seats_typeParameter place hc
  | emptyModifiers | modifierKeyword flag => exact seats_noAnnotations place hc
  | annotationModifier => exact seats_annotationModifier place hc
  | concatModifiers => exact seats_concatModifiers place hc
  | annotationMarker => exact seats_annotationMarker (hwhole rfl) place hc
  | annotationSingleMember => exact seats_annotationSingleMember (hwhole rfl) place hc
  | typeHeaderName kind typeParameters => exact seats_typeHeaderName place hc
  | fieldDecl => exact seats_fieldDecl place hc
  | declaratorId => exact seats_declaratorId (hwhole rfl) place hc
  | declaratorInitializer => exact seats_declaratorInitializer place hc
  | methodHeaderName typeParameters => exact seats_methodHeaderName place hc
  | constructorHeaderName => exact seats_constructorHeaderName place hc
  | methodHeader => exact seats_methodHeader place hc
  | methodDecl => exact seats_methodDecl place hc
  | emptyMethodBody | emptyStatement => exact seats_emptyStatement (hspot 0 rfl) place hc
  | formalParameter hasModifiers varargs => exact seats_formalParameter place hc
  | initializerBlock => exact seats_initializerBlock place hc
  | block => exact seats_blockStatement (hwhole rfl) place hc
  | localVariables hasModifiers => exact seats_localVariables (hwhole rfl) place hc
  | localVariablesStatement =>
      exact seats_localVariablesStatement (hspot 1 rfl) hc (hs.closing rfl)
  | expressionStatement =>
      exact seats_exprStatement (hwhole rfl) (fun _ => rfl) (fun _ => rfl) place hc
  | throwStatement =>
      exact seats_exprStatement (hwhole rfl) (fun _ => rfl) (fun _ => rfl) place hc
  | labeledStatement => exact seats_labeledStatement (hwhole rfl) place hc
  | ifStatement hasElse => exact seats_ifStatement (hwhole rfl) place hc
  | whileStatement => exact seats_whileStatement (hwhole rfl) place hc
  | doStatement => exact seats_doStatement (hwhole rfl) place hc
  | forStatement => exact seats_forStatement (hwhole rfl) place hc
  | forInitExpressions => exact seats_forInitExpressions place hc
  | forEachStatement hasModifiers => exact seats_forEachStatement (hwhole rfl) place hc
  | returnStatement => exact seats_returnStatement (hwhole rfl) place hc
  | breakStatement label | continueStatement label =>
      exact seats_jump (hwhole rfl) (fun _ => rfl) (fun _ => rfl) place hc
  | tryStatement final => exact seats_tryStatement (hwhole rfl) place hc
  | catchClause => exact seats_catchClause (hwhole rfl) place hc
  | assertStatement message => exact seats_assertStatement (hwhole rfl) place hc
  | constructorCall isSuper => exact seats_constructorCall (hwhole rfl) place hc
  | thisExpr => exact seats_thisExpr (hspot 0 rfl) place hc
  | parenthesized =>
      exact seats_operand (hwhole rfl) (fun _ => rfl) (fun _ => rfl) (fun _ => rfl) place hc
  | allocation => exact seats_allocation (hwhole rfl) place hc
  | fieldAccess isSuper =>
      refine seats_fieldAccess (hwhole rfl) (fun hsuper => ?_) hc
      subst hsuper
      exact ⟨hspot 0 rfl, hleading rfl⟩
  | callByName => exact seats_callByName (hwhole rfl) place hc
  | callOnPrimary => exact seats_callOn (hwhole rfl) nofun hc
  | callOnSuper =>
      have hcall : SeatsAt g c place (callOn true c)
          [provided (!true) expr, word, expr .expr .many] expr :=
        seats_callOn (hwhole rfl) (fun _ => ⟨hspot 0 rfl, hleading rfl⟩) hc
      exact fun w frame h => hcall w frame h
  | nameExpr => exact seats_nameExpr place hc
  | unary operator =>
      exact seats_operand (hwhole rfl) (fun _ => rfl) (fun _ => rfl) (fun _ => rfl) place hc
  | binary operator => exact seats_binary (hwhole rfl) place hc
  | instanceOf => exact seats_instanceOf (hwhole rfl) place hc
  | conditional => exact seats_conditional (hwhole rfl) place hc
  | assignmentOperator operator => exact fun _ _ h => sits_pushInt h
  | assignment => exact seats_assignment (hwhole rfl) place hc
  | aspect action => exact seats_aspectAction dialect action hbelow place hc

/-- An action that changes the declaration below it takes the values of the right side away. -/
theorem seats_below (dialect : Dialect) (out : Profile) {action : SemanticAction}
    (hbelow : action = .none ∨ action.changesBelow = true) {place : Nat → Place}
    (hc : c.Spreads g place) :
    SeatsAt g c place (act dialect c action) (action.effect c.arity out).1.tail {} := by
  rcases hbelow with rfl | hbelow
  · exact fun _ _ h => .pure h
  · cases action with
    | superclass => exact fun _ _ h => sits_superclass h
    | interfaces => exact fun _ _ h => sits_interfaces h
    | classBody => exact fun _ _ h => sits_classBody h
    | aspect action =>
        intro w frame h
        refine .bind (sits_factoryFor h hc.tidy.endsBy_whole) fun f w' h => ?_
        cases action with
        | headerRest => exact seats_headerRest place hc w' frame h
        | interTypeFieldBody hasInitializer => exact seats_interTypeFieldBody place hc w' frame h
        | _ => cases hbelow
    | _ => cases hbelow

end Work

end AspectLang
