import AspectLang.Proofs.Parse.Effects
import AspectLang.Proofs.Parse.Seats

/-! # Where the actions of the base language seat what they build

One lemma per action: where the values of its right side sit in places one behind the other, the
value of its left side sits in the place of the whole right side (`Seats`).  An expression, a
statement or a handler that covers its right side lies there, around its parts
(`Handle.Tidy.liesIn`); only local variables, names and the clauses of a loop have other ranges. -/

namespace AspectLang

/-! ### Kinds of segments -/

/-- Whether a count asks for just one value. -/
def Count.isOne : Count → Bool
  | .one => true
  | _ => false

/-- The segments with a seat that a symbol leaves, in the order of the text. -/
def Profile.kinds (p : Profile) : List SegmentKind :=
  p.exprs.map (fun _ => .exprs) ++ p.identifiers.map (fun _ => .words) ++
    p.nodes.map fun s => .nodes s.count.isOne

/-! ### What covers its right side -/

namespace Handle

variable {g : Spacing} {c : Handle} {place : Nat → Place} {i j : Nat}

theorem whole?_eq (h : c.whole?.isSome = true) : c.whole? = some c.whole := by
  obtain ⟨whole, hwhole⟩ := Option.isSome_iff_exists.mp h
  unfold Handle.whole
  rw [hwhole]
  rfl

theorem getD_eq (h : (c.spans.getD i none).isSome = true) :
    c.spans.getD i none = some (c.span i) := by
  obtain ⟨s, hs⟩ := Option.isSome_iff_exists.mp h
  unfold Handle.span
  rw [hs]
  rfl

theorem whole_holds {s : Span} (hsome : c.whole?.isSome = true) (h : Place.Holds c.whole? s) :
    c.whole.Holds s := by
  rw [whole?_eq hsome] at h
  exact Place.holds_some.mp h

/-- A part that covers its right side lies there, around its own parts. -/
theorem Tidy.liesIn {p : Part} (h : c.Tidy g) (hsome : c.whole?.isSome = true)
    (hspan : p.span = c.whole) (hwords : p.words = [])
    (hparts : ∀ q ∈ p.parts, q.LiesIn g c.whole?)
    (hapart : p.isExpr = true → p.parts.Pairwise fun a b => a.span.Precedes g.gap b.span) :
    p.LiesIn g c.whole? := by
  refine ⟨hspan ▸ h.holds_whole hsome, .intro (fun w hw => ?_) (fun q hq => ?_) hapart
    fun q hq => (hparts q hq).nested⟩
  · rw [hwords] at hw
    cases hw
  · rw [hspan]
    exact whole_holds hsome (hparts q hq).holds

theorem Tidy.statement {s : Statement} (h : c.Tidy g) (hsome : c.whole?.isSome = true)
    (hspan : s.span = c.whole) (hparts : ∀ q ∈ s.parts, q.LiesIn g c.whole?) :
    (Part.statement s).LiesIn g c.whole? :=
  h.liesIn hsome hspan rfl hparts nofun

theorem Tidy.expr {e : Expr} (h : c.Tidy g) (hsome : c.whole?.isSome = true)
    (hspan : e.span = c.whole) (hwords : e.words = []) (hparts : ExprRow g c.whole? e.parts) :
    (Part.expr e).LiesIn g c.whole? := by
  refine h.liesIn hsome hspan hwords hparts.parts_liesIn fun _ => ?_
  exact List.pairwise_map.mpr (List.pairwise_map.mp hparts.row.apart)

section

variable (h : c.Spreads g place)

include h

theorem Spreads.liesIn {p : Part} (hp : p.LiesIn g (place i)) : p.LiesIn g c.whole? :=
  hp.within (h.within i)

theorem Spreads.all {ps : List Part} (hps : ∀ p ∈ ps, p.LiesIn g (place i)) :
    ∀ p ∈ ps, p.LiesIn g c.whole? := fun p hp => h.liesIn (hps p hp)

theorem Spreads.row {es : List Expr} (hes : ExprRow g (place i) es) : ExprRow g c.whole? es :=
  hes.within (h.within i)

/-- Two rows of expressions, one behind the other. -/
theorem Spreads.rows {below top : List Expr} (hij : i < j) (hbelow : ExprRow g (place i) below)
    (htop : ExprRow g (place j) top) : ExprRow g c.whole? (below ++ top) :=
  hbelow.append htop (h.within i) (h.within j) (h.apart i j hij)

end

end Handle

/-! ### Names -/

section

variable {g : Spacing} {σ : Place}

/-- A name of words in a place lies there, around its words. -/
theorem WordRow.liesIn {name : QualifiedName} (h : WordRow g σ name.segments)
    (hne : name.segments ≠ []) : (Part.expr (.name name)).LiesIn g σ := by
  obtain ⟨span, hspan⟩ : ∃ span, Span.hull name.positions = some span := by
    unfold QualifiedName.positions
    cases hsegments : name.segments with
    | nil => exact absurd hsegments hne
    | cons first rest => exact ⟨_, rfl⟩
  have hname : name.span = span := by
    unfold QualifiedName.span
    rw [hspan]
    rfl
  obtain ⟨first, hfirst, last, hlast, hmerge⟩ := Span.exists_of_hull hspan
  have hholds : σ.Holds name.span := by
    rw [hname, hmerge]
    exact (h.holds first hfirst).merge (h.holds last hlast)
  have hturn : ∀ s ∈ name.positions, s.start ≤ s.stop := by
    intro s hs
    obtain ⟨_, _, hs⟩ := h.holds s hs
    exact hs.2.1
  refine ⟨hholds, .intro (fun w hw => ?_) nofun (fun _ => .nil) nofun⟩
  change name.span.Holds w.span
  rw [hname]
  exact Span.holds_of_hull hturn h.apart hspan w.span (List.mem_map_of_mem hw)

end

/-! ### Declarations -/

section

variable {g : Spacing}

theorem Member.lies_type {t : TypeDecl} (h : ∀ m ∈ t.members, m.Lies g) :
    Member.Lies g (.type t) := by
  intro s hs
  rw [Member.outermost_type, TypeDecl.outermost_eq] at hs
  obtain ⟨m, hm, hs⟩ := mem_outermostOf.mp hs
  exact h m hm s hs

theorem Member.Lies.of_members {t t' : TypeDecl} (h : Member.Lies g (.type t))
    (hmembers : t'.members = t.members) : Member.Lies g (.type t') := by
  intro s hs
  refine h s ?_
  rw [Member.outermost_type, TypeDecl.outermost_eq] at hs ⊢
  rw [← hmembers]
  exact hs

theorem Member.lies_method {m : MethodDecl}
    (h : ∀ statements ∈ m.statements, ∀ s ∈ statements, s.Lies g) :
    Member.Lies g (.method m) := by
  intro s hs
  rw [Member.outermost_method] at hs
  cases hstatements : m.statements with
  | none =>
      rw [hstatements] at hs
      cases hs
  | some statements =>
      rw [hstatements] at hs
      exact h statements hstatements s hs

/-- A method without a body holds no statement. -/
theorem Member.lies_bodiless {m : MethodDecl} (h : m.statements = none) :
    Member.Lies g (.method m) := by
  refine lies_method fun statements hstatements => ?_
  rw [h] at hstatements
  cases hstatements

theorem Member.Lies.of_statements {m m' : MethodDecl} (h : Member.Lies g (.method m))
    (hstatements : m'.statements = m.statements) : Member.Lies g (.method m') := by
  intro s hs
  refine h s ?_
  rw [Member.outermost_method] at hs ⊢
  rw [← hstatements]
  exact hs

theorem Member.lies_field (f : FieldDecl) : Member.Lies g (.field f) := by
  intro s hs
  rw [Member.outermost_field] at hs
  cases hs

theorem Node.Sits.lies {σ : Place} {n : Node} {m : Member} (h : n.Sits g σ)
    (hm : n.member? = some m) : m.Lies g := by
  cases n <;> cases hm <;> exact h

end

namespace Work

/-- A mapped result. -/
theorem Yields.mapped {β γ : Type} {w : Workspace} {a : Work β} {f : β → γ}
    {Q : β → Workspace → Prop} {R : γ → Workspace → Prop} (ha : Yields w a Q)
    (hQ : ∀ b w', Q b w' → R (f b) w') : Yields w (f <$> a) R := by
  rw [map_eq_pure_bind]
  exact ha.bind fun b w' hb => .pure (hQ b w' hb)

/-- A step takes the values of a row of symbols in given places, and seats what it leaves in the
place of the whole right side. -/
def SeatsAt (g : Spacing) (c : Handle) (place : Nat → Place) (a : Work Unit)
    (takes : List Profile) (gives : Profile) : Prop :=
  ∀ w frame, w.Sits g (Seat.followed place frame 0 (takes.flatMap Profile.kinds)) →
    Yields w a fun _ w' => w'.Sits g (gives.kinds.map (⟨·, c.whole?⟩) ++ frame)

/-- A step seats what it leaves in the place of the whole, wherever in it the values are that it
takes. -/
def Seats (g : Spacing) (c : Handle) (a : Work Unit) (takes : List Profile) (gives : Profile) :
    Prop :=
  ∀ place, c.Spreads g place → SeatsAt g c place a takes gives

open Profile

variable {g : Spacing} {c : Handle}

/-! ### Parts that may be absent -/

theorem followed_succ (place : Nat → Place) (frame : List Seat) (i : Nat)
    (kinds : List SegmentKind) :
    Seat.followed place frame (i + 1) kinds =
      Seat.followed (fun j => place (j + 1)) frame i kinds := by
  induction kinds generalizing frame i with
  | nil => rfl
  | cons k kinds ih => exact ih _ (i + 1)

/-- The first symbol may be absent; it stands in front of the others if it is there. -/
theorem exists_leading {w : Workspace} {frame : List Seat} {place : Nat → Place} {present : Bool}
    {p : Profile} {k : SegmentKind} {rest : List Profile} (hk : p.kinds = [k])
    (hc : c.Spreads g place)
    (h : w.Sits g (Seat.followed place frame 0
      ((provided present p :: rest).flatMap Profile.kinds))) :
    ∃ σ behind, σ.Within c.whole? ∧ (∀ i, σ.Precedes g.gap (behind i)) ∧ c.Spreads g behind ∧
      w.Sits g (Seat.followed behind ((provided present p).kinds.map (⟨·, σ⟩) ++ frame) 0
        (rest.flatMap Profile.kinds)) := by
  cases present with
  | false => exact ⟨none, place, nofun, nofun, hc, h⟩
  | true =>
      refine ⟨place 0, fun i => place (i + 1), hc.within 0, fun i => hc.apart 0 (i + 1) (by omega),
        ⟨hc.tidy, fun i => hc.within (i + 1), fun i j hij => hc.apart _ _ (by omega)⟩, ?_⟩
      rw [← followed_succ]
      simp only [provided, cond_true, List.flatMap_cons, hk] at h ⊢
      exact h

theorem sits_present {β : Type} {w : Workspace} {l : List Seat} {P : β → Prop} {a : Work β}
    (ha : Yields w a fun b w' => P b ∧ w'.Sits g l) :
    Yields w (some <$> a) fun b w' => (∀ x ∈ b, P x) ∧ w'.Sits g l :=
  ha.mapped fun _ _ hb => ⟨fun _ hx => Option.some.inj hx ▸ hb.1, hb.2⟩

/-! ### Lists -/

/-- What a rule with one symbol leaves is in the place of that symbol. -/
theorem seats_none {out : Profile} (hout : out.kinds.length ≤ 1) :
    Seats g c (pure ()) [out] out := by
  intro place hc w frame h
  rw [List.flatMap_singleton] at h
  match hkinds : out.kinds, hout with
  | [], _ =>
      rw [hkinds] at h
      exact .pure h
  | [k], _ =>
      rw [hkinds] at h
      exact .pure (h.top (hc.within 0))

theorem seats_concatNodes {k : NodeRole} :
    Seats g c (onStacks (.onNodes SegmentStack.concat)) [node k .many, node k .many]
      (node k .many) := by
  intro place hc w frame h
  refine .mono (Q := fun _ w' => True ∧ w'.Sits g (⟨.nodes false, c.whole?⟩ :: frame))
    (sits_onNodes h (fun _ s hok => ⟨trivial, ?_⟩) rfl rfl) fun _ _ => And.right
  refine h.nodes.of_concat (fun below top hbelow htop => .of_forall fun n hn => ?_) hok
  rcases List.mem_append.mp hn with hn | hn
  · exact (hbelow.sits n hn).within (hc.within 0)
  · exact (htop.sits n hn).within (hc.within 1)

theorem seats_concatExprs {k : ExprRole} :
    Seats g c (onStacks (.onExprs SegmentStack.concat)) [expr k .many, expr k .many]
      (expr k .many) := by
  intro place hc w frame h
  refine .mono (Q := fun _ w' => True ∧ w'.Sits g (⟨.exprs, c.whole?⟩ :: frame))
    (sits_onExprs h (fun _ s hok => ⟨trivial, ?_⟩) rfl rfl) fun _ _ => And.right
  exact h.exprs.of_concat (fun _ _ => hc.rows Nat.zero_lt_one) hok

theorem seats_concatTypes {k : TypeRole} :
    Seats g c (onStacks (.onTypes SegmentStack.concat)) [type k .many, type k .many]
      (type k .many) :=
  fun _ _ _ _ h => sits_onTypes h

theorem seats_concatIdentifiers :
    Seats g c (onStacks (.onIdentifiers SegmentStack.concat)) [word .some, word] (word .some) := by
  intro place hc w frame h
  refine .mono (Q := fun _ w' => True ∧ w'.Sits g (⟨.words, c.whole?⟩ :: frame))
    (sits_onIdentifiers h (fun _ s hok => ⟨trivial, ?_⟩) rfl rfl) fun _ _ => And.right
  refine h.words.of_concat (fun below top hbelow htop => ?_) hok
  unfold WordRow
  rw [List.map_append]
  exact hbelow.append htop (hc.within 0) (hc.within 1) (hc.apart 0 1 Nat.zero_lt_one)

/-! ### Compilation units -/

theorem seats_compilationUnit :
    Seats g c (compilationUnit c)
      [node .package .optional, node .importDecl .many, node .type .many] { unit := true } := by
  intro place hc w frame h
  refine .chain (sits_popNodesAs (P := fun t => Member.Lies g (.type t))
    (fun n t hn ht => by cases n <;> cases ht; exact hn) h) fun types _ htypes => ?_
  refine .chain (sits_popNodesAs (P := fun _ => True) (fun _ _ _ _ => trivial) htypes.2)
    fun imports _ himports => ?_
  refine .bind (sits_popOptionalNode himports.2) fun package _ hpackage => ?_
  have hfinish : ∀ (found : Option PackageDecl) w', w'.Sits g frame →
      Yields w' (modify fun w => { w with unit := some ⟨found, imports, types, c.whole⟩ })
        fun _ w' => w'.Sits g frame := by
    intro found w' hw' _ w'' hok
    cases hok
    refine ⟨hw'.nodes, hw'.exprs, hw'.words, fun u hu s hs => ?_, hw'.reporter⟩
    obtain rfl := Option.some.inj hu
    obtain ⟨t, ht, hs⟩ := List.mem_flatMap.mp hs
    refine htypes.1 t ht s ?_
    rw [Member.outermost_type]
    exact hs
  cases package with
  | none => exact .pure_bind (hfinish none _ hpackage.2)
  | some n => exact .bind (.mapped (yields_expectNode fun _ _ => hpackage.2) fun _ _ => id) hfinish

theorem seats_packageDecl : Seats g c (packageDecl c) [word .some] (node .package) := by
  intro place hc w frame h
  refine .bind (sits_popName h) fun _ _ h => ?_
  exact sits_pushNode h.2 trivial

theorem seats_importDecl {isStatic onDemand : Bool} :
    Seats g c (importDecl isStatic onDemand c) [word .some] (node .importDecl) := by
  intro place hc w frame h
  refine .bind (sits_popName h) fun _ _ h => ?_
  exact sits_pushNode h.2 trivial

/-! ### Types -/

theorem seats_namedType : Seats g c namedType [word .some] type := by
  intro place hc w frame h
  refine .bind (sits_popName h) fun _ _ h => ?_
  exact sits_pushType h.2

theorem seats_qualifiedGenericType :
    Seats g c (qualifiedGenericType c) [type, word .some] type := by
  intro place hc w frame h
  refine .bind (sits_popName h) fun _ _ h => ?_
  refine .bind (sits_popType h.2) fun _ _ h => ?_
  exact sits_pushType h

theorem seats_genericType : Seats g c (genericType c) [type, type .argument .many] type := by
  intro place hc w frame h
  refine .bind (sits_popTypeArguments h) fun _ _ h => ?_
  refine .bind (sits_popType h) fun _ _ h => ?_
  exact sits_pushType h

theorem seats_arrayType : Seats g c (arrayType c) [type, int] type := by
  intro place hc w frame h
  refine .bind (sits_popInt h) fun _ _ h => ?_
  refine .bind (sits_popType h) fun _ _ h => ?_
  exact sits_pushType h

theorem seats_dimsMore : Seats g c (discard (onStacks (StackM.addInt 1))) [int] int := by
  intro place hc w frame h b w' hok
  unfold onStacks StackM.addInt at hok
  cases hvalues : w.values.ints with
  | nil =>
      simp only [discard, Functor.discard, Functor.mapConst, EStateM.map, hvalues,
        Function.comp] at hok
      cases hok
  | cons n ints =>
      simp only [discard, Functor.discard, Functor.mapConst, EStateM.map, hvalues, Function.comp,
        Function.const] at hok
      cases hok
      exact ⟨h.nodes, h.exprs, h.words, h.unit, h.reporter⟩

theorem seats_wildcard {kind : WildcardKind} :
    Seats g c (wildcard kind c) [provided (kind ≠ .unbound) type] (type .argument) := by
  intro place hc w frame h
  cases kind with
  | unbound => exact .pure_bind (sits_pushTypeNode h)
  | upper | lower =>
      exact .bind (.mapped (sits_popType h) fun _ _ => id) fun _ _ h => sits_pushTypeNode h

theorem seats_typeParameter {bounded additional : Bool} :
    Seats g c (typeParameter bounded additional c)
      [word, provided bounded type, provided additional (type .type .many)]
      (type .parameter) := by
  intro place hc w frame h
  have hword : w.Sits g (⟨.words, place 0⟩ :: frame) := by
    cases bounded <;> cases additional <;> exact h
  have hname : ∀ (bounds : List TypeRef) w', w'.Sits g (⟨.words, place 0⟩ :: frame) →
      Yields w' (do
        let name ← popIdentifier
        pushTypeNode (.parameter ⟨name.name, bounds, c.whole⟩))
        fun _ w' => w'.Sits g frame := by
    intro bounds w' h
    refine .bind (sits_popIdentifier h) fun _ _ h => ?_
    exact sits_pushTypeNode h.2
  have hbound : ∀ (more : List TypeRef) w', w'.Sits g (⟨.words, place 0⟩ :: frame) →
      Yields w' (do
        let bounds ← if bounded then (· :: more) <$> popType else pure more
        let name ← popIdentifier
        pushTypeNode (.parameter ⟨name.name, bounds, c.whole⟩))
        fun _ w' => w'.Sits g frame := by
    intro more w' hw'
    cases bounded with
    | false => exact .pure_bind (hname more w' hw')
    | true => exact .bind (.mapped (sits_popType hw') fun _ _ => id) hname
  cases additional with
  | false => exact .pure_bind (hbound [] w hword)
  | true => exact .bind (sits_popTypes hword) hbound

/-! ### Modifiers and annotations -/

theorem sits_startModifiers {w : Workspace} {l : List Seat} {flag start : Nat} (h : w.Sits g l) :
    Yields w (startModifiers flag start) fun _ w' => w'.Sits g l :=
  .bind (sits_pushInt h) fun _ _ h => sits_pushInt h

theorem seats_noAnnotations {flag start : Nat} :
    Seats g c (do startModifiers flag start; pushNoExprs) []
      { exprs := [⟨.expr, .none⟩], ints := [(), ()] } :=
  fun _ _ _ _ h => .bind (sits_startModifiers h) fun _ _ h => sits_pushNoExprs h

theorem seats_annotationModifier {flag start : Nat} :
    Seats g c (startModifiers flag start) [expr .annotationUse]
      { exprs := [⟨.annotationUse, .one⟩], ints := [(), ()] } := by
  intro place hc w frame h
  have hwhole : w.Sits g (⟨.exprs, c.whole?⟩ :: frame) := h.top (hc.within 0)
  exact sits_startModifiers hwhole

theorem seats_concatModifiers : Seats g c (concatModifiers c) [modifiers, modifiers] modifiers := by
  intro place hc w frame h
  refine .bind (sits_popInt h) fun _ _ h => ?_
  refine .bind (sits_popInt h) fun flags _ h => ?_
  refine .bind (sits_popInt h) fun start _ h => ?_
  refine .bind (sits_popInt h) fun earlier w' h => ?_
  have hfinish : ∀ w', w'.Sits g (⟨.exprs, place 1⟩ :: ⟨.exprs, place 0⟩ :: frame) →
      Yields w' (do
        pushInt (earlier ||| flags)
        pushInt start
        onStacks (.onExprs SegmentStack.concat))
        fun _ w' => w'.Sits g (⟨.exprs, c.whole?⟩ :: frame) := by
    intro w' h
    refine .bind (sits_pushInt h) fun _ _ h => ?_
    refine .bind (sits_pushInt h) fun _ w'' h => ?_
    exact seats_concatExprs (k := .expr) place hc w'' frame h
  split
  · exact .bind (sits_report h (hc.tidy.endsBy_span 1)) fun _ _ h => hfinish _ h
  · exact .pure_bind (hfinish w' h)

theorem seats_annotationMarker (hsome : c.whole?.isSome = true) :
    Seats g c (annotationMarker c) [word .some] (expr .annotationUse) := by
  intro place hc w frame h
  refine .bind (sits_popName h) fun _ _ h => ?_
  exact sits_pushExpr h.2 (hc.tidy.expr hsome rfl rfl .nil)

theorem seats_annotationSingleMember (hsome : c.whole?.isSome = true) :
    Seats g c (annotationSingleMember c) [word .some, expr] (expr .annotationUse) := by
  intro place hc w frame h
  refine .bind (sits_popExpr h) fun value _ hvalue => ?_
  refine .bind (sits_popName hvalue.2) fun _ _ h => ?_
  exact sits_pushExpr h.2 (hc.tidy.expr hsome rfl rfl (.singleton (hc.liesIn hvalue.1)))

/-! ### Declarations -/

theorem seats_typeHeaderName {kind : TypeKind} {typeParameters : Bool} :
    Seats g c (typeHeaderName kind typeParameters)
      [modifiers, word, provided typeParameters (type .parameter .many)] (node .type) := by
  intro place hc w frame h
  have hword : w.Sits g (⟨.words, place 1⟩ :: ⟨.exprs, place 0⟩ :: frame) := by
    cases typeParameters <;> exact h
  refine .bind (sits_popTypeParameters hword) fun _ _ h => ?_
  refine .bind (sits_popIdentifier h) fun _ _ h => ?_
  refine .bind (sits_popModifiers h.2) fun _ _ h => ?_
  exact sits_pushNode h.2 (Member.lies_type nofun)

theorem sits_superclass {w : Workspace} {l : List Seat} (h : w.Sits g l) :
    Yields w superclass fun _ w' => w'.Sits g l := by
  refine .bind (sits_popType h) fun _ _ h => ?_
  exact sits_updateType h fun _ ht => ht.of_members rfl

theorem sits_interfaces {w : Workspace} {l : List Seat} (h : w.Sits g l) :
    Yields w interfaces fun _ w' => w'.Sits g l := by
  refine .bind (sits_popTypes h) fun types _ h => ?_
  refine sits_updateType h fun _ ht => ht.of_members ?_
  dsimp only
  split <;> rfl

theorem sits_classBody {w : Workspace} {l : List Seat} {single : Bool} {σ : Place}
    (h : w.Sits g (⟨.nodes single, σ⟩ :: l)) :
    Yields w (classBody c) fun _ w' => w'.Sits g l := by
  refine .chain (sits_popNodesAs (fun _ _ => Node.Sits.lies) h) fun members _ hmembers => ?_
  exact sits_updateType hmembers.2 fun _ _ => Member.lies_type hmembers.1

theorem sits_reportVoid {w : Workspace} {l : List Seat} {t : TypeRef} {σ : Place}
    {declarators : List Declarator} (h : w.Sits g l) (hds : ∀ d ∈ declarators, d.LiesIn g σ) :
    Yields w (reportVoid t declarators) fun _ w' => w'.Sits g l := by
  unfold reportVoid
  split
  · induction declarators generalizing w with
    | nil => exact .pure h
    | cons d declarators ih =>
        have hd := (hds d List.mem_cons_self).name
        exact .bind (sits_report h hd) fun _ _ h =>
          ih h fun d hd => hds d (List.mem_cons_of_mem _ hd)
  · exact .pure h

theorem seats_fieldDecl :
    Seats g c (fieldDecl c) [modifiers, type, node .declarator .many] (node .member .many) := by
  intro place hc w frame h
  refine .bind (sits_popDeclarators h) fun declarators _ hdeclarators => ?_
  refine .bind (sits_popType hdeclarators.2) fun type _ h => ?_
  refine .bind (sits_popModifiers h) fun modifiers _ h => ?_
  refine .bind (sits_reportVoid h.2 hdeclarators.1) fun _ _ h => sits_pushNodes h fun n hn => ?_
  obtain ⟨d, _, rfl⟩ := List.mem_map.mp hn
  exact Member.lies_field _

theorem seats_declaratorId (hsome : c.whole?.isSome = true) :
    Seats g c (declaratorId c) [word, int] (node .declarator) := by
  intro place hc w frame h
  refine .bind (sits_popInt h) fun _ _ h => ?_
  refine .bind (sits_popIdentifier h) fun name _ h => ?_
  exact sits_pushNode h.2 ⟨hc.tidy.holds_whole hsome, hc.endsBy h.1, nofun⟩

theorem seats_declaratorInitializer :
    Seats g c declaratorInitializer [node .declarator, expr] (node .declarator) := by
  intro place hc w frame h
  refine .bind (sits_popExpr h) fun value _ hvalue => ?_
  refine .bind (sits_peek hvalue.2) fun n _ hn => ?_
  refine .bind (yields_expectNode (Q := fun d w' => d.LiesIn g (place 0) ∧
    w'.Sits g (⟨.nodes true, place 0⟩ :: frame)) fun d hd => ?_) fun d _ hd => ?_
  · cases n <;> cases hd
    exact hn
  · have hvalueIn := hc.holds hvalue.1.holds
    refine sits_replaceTop hd.2 ⟨(hc.holds hd.1.holds).merge hvalueIn, hd.1.name, fun p hp => ?_⟩
    obtain rfl := List.mem_singleton.mp hp
    obtain ⟨_, _, hturn⟩ := hvalueIn
    refine ⟨⟨_, rfl, ?_⟩, hvalue.1.nested⟩
    exact ⟨Nat.min_le_right .., hturn.2.1, Nat.le_max_right ..⟩

theorem seats_methodHeaderName {typeParameters : Bool} :
    Seats g c (methodHeaderName typeParameters)
      [modifiers, provided typeParameters (type .parameter .many), type, word]
      (node .method) := by
  intro place hc w frame h
  have hword : w.Sits g (⟨.words, place 1⟩ :: ⟨.exprs, place 0⟩ :: frame) := by
    cases typeParameters <;> exact h
  refine .bind (sits_popIdentifier hword) fun _ _ h => ?_
  refine .bind (sits_popType h.2) fun _ _ h => ?_
  refine .bind (sits_popTypeParameters h) fun _ _ h => ?_
  refine .bind (sits_popModifiers h) fun _ _ h => ?_
  exact sits_pushNode h.2 (Member.lies_bodiless rfl)

theorem seats_constructorHeaderName :
    Seats g c constructorHeaderName [modifiers, word] (node .method) := by
  intro place hc w frame h
  refine .bind (sits_popIdentifier h) fun _ _ h => ?_
  refine .bind (sits_popModifiers h.2) fun _ _ h => ?_
  exact sits_pushNode h.2 (Member.lies_bodiless rfl)

theorem seats_methodHeader :
    Seats g c (methodHeader c) [node .method, node .parameter .many, type .type .many]
      (node .method) := by
  intro place hc w frame h
  refine .bind (sits_popTypes h) fun _ _ h => ?_
  refine .bind (sits_popParameters h) fun _ _ h => ?_
  have hwhole := Workspace.Sits.top h (hc.within 0)
  exact sits_updateMethod hwhole fun _ hm => hm.of_statements rfl

theorem seats_methodDecl :
    Seats g c methodDecl [node .method, node .statement] (node .method) := by
  intro place hc w frame h
  refine .bind (sits_popStatement h) fun body _ hbody => ?_
  have hwhole := Workspace.Sits.top hbody.2 (hc.within 0)
  refine sits_updateMethod hwhole fun m _ => Member.lies_method fun statements hstatements s hs => ?_
  obtain ⟨b, hb, rfl⟩ := Option.map_eq_some_iff.mp hstatements
  cases body <;> cases hb
  have hmem : Part.statement s ∈ (Part.statement (.block b)).parts := List.mem_map_of_mem hs
  exact ⟨hbody.1.nested.endsBy (hc.endsBy hbody.1.holds) hmem, hbody.1.nested.part hmem⟩

theorem sits_popModifiersIf {w : Workspace} {l : List Seat} {σ : Place} {present : Bool}
    (h : w.Sits g ((provided present modifiers).kinds.map (⟨·, σ⟩) ++ l)) :
    Yields w (popModifiersIf present) fun m w' =>
      AnnotationsIn g σ m.annotations ∧ w'.Sits g l := by
  cases present with
  | false => exact .pure ⟨nofun, h⟩
  | true => exact sits_popModifiers h

theorem seats_formalParameter {hasModifiers varargs : Bool} :
    Seats g c (formalParameter hasModifiers varargs c)
      [provided hasModifiers modifiers, type, node .declarator] (node .parameter) := by
  intro place hc w frame h
  obtain ⟨σ, behind, hσ, -, hbehind, h⟩ := exists_leading rfl hc h
  refine .bind (sits_popDeclarator h) fun d _ h => ?_
  refine .bind (sits_popType h.2) fun _ _ h => ?_
  refine .bind (sits_popModifiersIf h) fun modifiers _ h => ?_
  exact sits_pushNode h.2 (h.1.within hσ)

theorem seats_initializerBlock :
    Seats g c initializerBlock [modifiers, node .block] (node .member) := by
  intro place hc w frame h
  refine .bind (sits_popBlock h) fun block _ hblock => ?_
  refine .bind (sits_popModifiers hblock.2) fun _ _ h => sits_pushNode h.2 fun s hs => ?_
  rw [Member.outermost_initializer] at hs
  obtain rfl := List.mem_singleton.mp hs
  exact ⟨hc.endsBy hblock.1.holds, hblock.1.nested⟩

/-! ### Statements -/

theorem seats_emptyStatement (hsome : (c.spans.getD 0 none).isSome = true) :
    Seats g c (pushStatement (.empty (c.span 0))) [] (node .statement) :=
  fun _ hc _ _ h => sits_pushStatement h
    ⟨hc.tidy.holds_span hsome, .intro nofun nofun nofun nofun⟩

theorem seats_blockStatement (hsome : c.whole?.isSome = true) :
    Seats g c (blockStatement c) [node .statement .many] (node .block) := by
  intro place hc w frame h
  refine .bind (sits_popStatements h) fun statements _ h => ?_
  exact sits_pushStatement h.2 (hc.tidy.statement hsome rfl (hc.all h.1))

/-- A local variable reaches from the start of its declaration to the end of its declarator. -/
theorem localVariable_liesIn {v : LocalVariable} {d : Declarator} {σ τ : Place}
    (hsome : c.whole?.isSome = true) (hσ : σ.Within c.whole?) (hτ : τ.Within c.whole?)
    (hστ : σ.Precedes g.gap τ) (hannotations : AnnotationsIn g σ v.annotations)
    (hd : d.LiesIn g τ) (hinitializer : v.initializer = d.initializer)
    (hspan : v.span = ⟨c.whole.start, d.span.stop⟩) :
    (Part.statement (.localVariable v)).LiesIn g c.whole? := by
  have hdeclarator := Handle.whole_holds hsome (hd.holds.within hτ)
  -- both kinds of parts begin in the declaration and end before the declarator does
  have hparts : ∀ q ∈ v.parts, q.LiesIn g (some v.span) := by
    intro q hq
    rw [hspan]
    rcases List.mem_append.mp hq with hq | hq
    · have hlies := hannotations q hq
      have hstart := Handle.whole_holds hsome (hlies.holds.within hσ)
      have hbefore : q.span.stop + g.gap ≤ d.span.start :=
        hστ.of_holds hlies.holds hd.holds
      refine ⟨Place.holds_some.mpr ⟨hstart.1, hstart.2.1, ?_⟩, hlies.nested⟩
      exact Nat.le_trans (Nat.le_trans (Nat.le_add_right ..) hbefore) hdeclarator.2.1
    · rw [hinitializer] at hq
      have hvalue := hd.initializer q hq
      have hholds := Place.holds_some.mp hvalue.holds
      exact ⟨Place.holds_some.mpr ⟨Nat.le_trans hdeclarator.1 hholds.1, hholds.2⟩, hvalue.nested⟩
  refine ⟨?_, .intro nofun (fun q hq => Place.holds_some.mp (hparts q hq).holds) nofun
    fun q hq => (hparts q hq).nested⟩
  change Place.Holds c.whole? v.span
  rw [hspan, Handle.whole?_eq hsome]
  exact Place.holds_some.mpr
    ⟨Nat.le_refl _, Nat.le_trans hdeclarator.1 hdeclarator.2.1, hdeclarator.2.2⟩

theorem seats_localVariables {hasModifiers : Bool} (hsome : c.whole?.isSome = true) :
    Seats g c (localVariables hasModifiers c)
      [provided hasModifiers modifiers, type, node .declarator .many]
      (node .statement .many) := by
  intro place hc w frame h
  obtain ⟨σ, behind, hσ, hprecedes, hbehind, h⟩ := exists_leading rfl hc h
  refine .bind (sits_popDeclarators h) fun declarators _ hdeclarators => ?_
  refine .bind (sits_popType hdeclarators.2) fun _ _ h => ?_
  refine .bind (sits_popModifiersIf h) fun modifiers _ hmodifiers => ?_
  refine .bind (sits_reportVoid hmodifiers.2 hdeclarators.1) fun _ _ h =>
    sits_pushNodes h fun n hn => ?_
  obtain ⟨d, hd, rfl⟩ := List.mem_map.mp hn
  exact localVariable_liesIn hsome hσ (hbehind.within 0) (hprecedes 0) hmodifiers.1
    (hdeclarators.1 d hd) rfl rfl

theorem parts_setSpan (s : Statement) (span : Span) : (s.setSpan span).parts = s.parts := by
  cases s <;> rfl

theorem span_setSpan (s : Statement) (span : Span) : (s.setSpan span).span = span := by
  cases s <;> rfl

/-- What lies in a place in front of a token still lies in the right side when it ends with the
token. -/
theorem sits_endAt {σ : Place} {last : Span} {n : Node} (hσ : σ.Within c.whole?)
    (hlast : Place.Holds c.whole? last) (hbefore : σ.Precedes g.gap (some last))
    (h : n.Sits g σ) : (endAt last.stop n).Sits g c.whole? := by
  cases n with
  | statement s =>
      obtain ⟨⟨u, hu, hs⟩, hnested⟩ := h
      obtain ⟨whole, hwhole, hstart⟩ := hσ s.span ⟨u, hu, hs⟩
      obtain ⟨whole', hwhole', hstop⟩ := hlast
      obtain rfl := Option.some.inj (hwhole.symm.trans hwhole')
      have hgrown : s.span.stop ≤ last.stop := by
        have hprecedes : u.stop + g.gap ≤ last.start := hbefore u hu last rfl
        have hend : s.span.stop ≤ u.stop := hs.2.2
        have hturn := hstop.2.1
        omega
      have hholds : ∀ q ∈ s.parts, Span.Holds ⟨s.span.start, last.stop⟩ q.span := by
        intro q hq
        have hq := hnested.holds_part (q := q) hq
        exact ⟨hq.1, hq.2.1, Nat.le_trans hq.2.2 hgrown⟩
      refine ⟨⟨whole, hwhole, ?_⟩, .intro nofun (fun q hq => ?_) nofun fun q hq => ?_⟩
      · change whole.Holds (s.setSpan _).span
        rw [span_setSpan]
        exact ⟨hstart.1, Nat.le_trans hstart.2.1 hgrown, hstop.2.2⟩
      · change (s.setSpan _).span.Holds q.span
        rw [span_setSpan]
        exact hholds q (parts_setSpan s _ ▸ hq)
      · change q ∈ (s.setSpan _).parts at hq
        rw [parts_setSpan] at hq
        exact hnested.part hq
  | _ => exact Node.Sits.within h hσ

theorem seats_localVariablesStatement {place : Nat → Place}
    (hsome : (c.spans.getD 1 none).isSome = true) (hc : c.Spreads g place)
    (hbefore : (place 0).Precedes g.gap (c.spans.getD 1 none)) :
    SeatsAt g c place (localVariablesStatement c) [node .statement .many]
      (node .statement .many) := by
  intro w frame h
  refine .bind (sits_popNodes h) fun ns _ hns => sits_pushNodes hns.2 fun n hn => ?_
  obtain ⟨m, hm, rfl⟩ := List.mem_map.mp hn
  rw [Handle.getD_eq hsome] at hbefore
  exact sits_endAt (hc.within 0) (hc.tidy.holds_span hsome) hbefore (hns.1 m hm)

/-- A statement made of one expression. -/
theorem seats_exprStatement {make : Expr → Statement} (hsome : c.whole?.isSome = true)
    (hspan : ∀ e, (make e).span = c.whole) (hparts : ∀ e, (make e).parts = [.expr e]) :
    Seats g c (do pushStatement (make (← popExpr))) [expr] (node .statement) := by
  intro place hc w frame h
  refine .bind (sits_popExpr h) fun value _ h => ?_
  refine sits_pushStatement h.2 (hc.tidy.statement hsome (hspan value) ?_)
  rw [hparts]
  exact List.forall_mem_singleton.mpr (hc.liesIn h.1)

theorem seats_labeledStatement (hsome : c.whole?.isSome = true) :
    Seats g c (labeledStatement c) [word, node .statement] (node .statement) := by
  intro place hc w frame h
  refine .bind (sits_popStatement h) fun body _ hbody => ?_
  refine .bind (sits_popIdentifier hbody.2) fun label _ h => ?_
  refine sits_pushStatement h.2 (hc.tidy.statement hsome rfl ?_)
  exact List.forall_mem_singleton.mpr (hc.liesIn hbody.1)

theorem seats_ifStatement {hasElse : Bool} (hsome : c.whole?.isSome = true) :
    Seats g c (ifStatement hasElse c) [expr, node .statement, provided hasElse (node .statement)]
      (node .statement) := by
  intro place hc w frame h
  have hfinish : ∀ (elseBranch : Option Statement) w',
      (∀ x ∈ elseBranch, (Part.statement x).LiesIn g (place 2)) ∧
        w'.Sits g (⟨.nodes true, place 1⟩ :: ⟨.exprs, place 0⟩ :: frame) →
      Yields w' (do
        let thenBranch ← popStatement
        let condition ← popExpr
        pushStatement (.ifThen condition thenBranch elseBranch c.whole))
        fun _ w' => w'.Sits g (⟨.nodes true, c.whole?⟩ :: frame) := by
    intro elseBranch w' helse
    refine .bind (sits_popStatement helse.2) fun thenBranch _ hthen => ?_
    refine .bind (sits_popExpr hthen.2) fun condition _ hcondition => ?_
    refine sits_pushStatement hcondition.2 (hc.tidy.statement hsome rfl ?_)
    refine List.forall_mem_cons.mpr ⟨hc.liesIn hcondition.1,
      List.forall_mem_cons.mpr ⟨hc.liesIn hthen.1, List.forall_mem_map.mpr fun s hs => ?_⟩⟩
    exact hc.liesIn (helse.1 s (Option.mem_toList.mp hs))
  cases hasElse with
  | false => exact .pure_bind (hfinish none w ⟨nofun, h⟩)
  | true => exact .bind (sits_present (sits_popStatement h)) hfinish

theorem seats_whileStatement (hsome : c.whole?.isSome = true) :
    Seats g c (whileStatement c) [expr, node .statement] (node .statement) := by
  intro place hc w frame h
  refine .bind (sits_popStatement h) fun body _ hbody => ?_
  refine .bind (sits_popExpr hbody.2) fun condition _ hcondition => ?_
  refine sits_pushStatement hcondition.2 (hc.tidy.statement hsome rfl ?_)
  exact List.forall_mem_cons.mpr ⟨hc.liesIn hcondition.1,
    List.forall_mem_singleton.mpr (hc.liesIn hbody.1)⟩

theorem seats_doStatement (hsome : c.whole?.isSome = true) :
    Seats g c (doStatement c) [node .statement, expr] (node .statement) := by
  intro place hc w frame h
  refine .bind (sits_popExpr h) fun condition _ hcondition => ?_
  refine .bind (sits_popStatement hcondition.2) fun body _ hbody => ?_
  refine sits_pushStatement hbody.2 (hc.tidy.statement hsome rfl ?_)
  exact List.forall_mem_cons.mpr ⟨hc.liesIn hbody.1,
    List.forall_mem_singleton.mpr (hc.liesIn hcondition.1)⟩

theorem seats_forStatement (hsome : c.whole?.isSome = true) :
    Seats g c (forStatement c)
      [node .statement .many, expr .expr .optional, expr .expr .many, node .statement]
      (node .statement) := by
  intro place hc w frame h
  refine .bind (sits_popStatement h) fun body _ hbody => ?_
  refine .bind (sits_popExprs hbody.2) fun update _ hupdate => ?_
  refine .bind (sits_popOptionalExpr hupdate.2) fun condition _ hcondition => ?_
  refine .bind (sits_popStatements hcondition.2) fun init _ hinit => ?_
  refine sits_pushStatement hinit.2 (hc.tidy.statement hsome rfl ?_)
  refine List.forall_mem_append.mpr ⟨List.forall_mem_append.mpr ⟨List.forall_mem_append.mpr
    ⟨hc.all hinit.1, hc.all hcondition.1⟩, hc.all hupdate.1.parts_liesIn⟩, ?_⟩
  exact List.forall_mem_singleton.mpr (hc.liesIn hbody.1)

theorem seats_forInitExpressions :
    Seats g c forInitExpressions [expr .expr .many] (node .statement .many) := by
  intro place hc w frame h
  refine .bind (sits_popExprs h) fun values _ hvalues => sits_pushNodes hvalues.2 fun n hn => ?_
  obtain ⟨e, he, rfl⟩ := List.mem_map.mp hn
  have hlies := hc.liesIn (hvalues.1.liesIn he)
  obtain ⟨_, _, hturn⟩ := hlies.holds
  refine ⟨hlies.holds, .intro nofun ?_ nofun (List.forall_mem_singleton.mpr hlies.nested)⟩
  exact List.forall_mem_singleton.mpr (Span.holds_self hturn.2.1)

theorem seats_forEachStatement {hasModifiers : Bool} (hsome : c.whole?.isSome = true) :
    Seats g c (forEachStatement hasModifiers c)
      [provided hasModifiers modifiers, type, word, expr, node .statement] (node .statement) := by
  intro place hc w frame h
  obtain ⟨σ, behind, hσ, -, hbehind, h⟩ := exists_leading rfl hc h
  refine .bind (sits_popStatement h) fun body _ hbody => ?_
  refine .bind (sits_popExpr hbody.2) fun collection _ hcollection => ?_
  refine .bind (sits_popIdentifier hcollection.2) fun name _ h => ?_
  refine .bind (sits_popType h.2) fun type _ h => ?_
  refine .bind (sits_popModifiersIf h) fun modifiers _ hmodifiers => ?_
  refine sits_pushStatement hmodifiers.2 (hc.tidy.statement hsome rfl ?_)
  refine List.forall_mem_append.mpr ⟨List.forall_mem_append.mpr
    ⟨hmodifiers.1.within hσ, nofun⟩, ?_⟩
  exact List.forall_mem_cons.mpr ⟨hbehind.liesIn hcollection.1,
    List.forall_mem_singleton.mpr (hbehind.liesIn hbody.1)⟩

theorem seats_returnStatement (hsome : c.whole?.isSome = true) :
    Seats g c (do pushStatement (.returning (← popOptionalExpr) c.whole))
      [expr .expr .optional] (node .statement) := by
  intro place hc w frame h
  refine .bind (sits_popOptionalExpr h) fun value _ h => ?_
  exact sits_pushStatement h.2 (hc.tidy.statement hsome rfl (hc.all h.1))

theorem seats_constructorCall {isSuper : Bool} (hsome : c.whole?.isSome = true) :
    Seats g c (do pushStatement (.constructorCall isSuper (← popExprs) c.whole))
      [expr .expr .many] (node .statement) := by
  intro place hc w frame h
  refine .bind (sits_popExprs h) fun arguments _ h => ?_
  exact sits_pushStatement h.2 (hc.tidy.statement hsome rfl (hc.all h.1.parts_liesIn))

/-- A jump has no parts. -/
theorem seats_jump {label : Bool} {make : Option String → Statement}
    (hsome : c.whole?.isSome = true) (hspan : ∀ l, (make l).span = c.whole)
    (hparts : ∀ l, (make l).parts = []) :
    Seats g c (do pushStatement (make (← popLabel label))) [provided label word]
      (node .statement) := by
  intro place hc w frame h
  have hlabel : Yields w (popLabel label) fun _ w' => w'.Sits g frame := by
    cases label with
    | false => exact .pure h
    | true => exact .bind (sits_popIdentifier h) fun _ _ h => .pure h.2
  refine .bind hlabel fun l _ h => sits_pushStatement h (hc.tidy.statement hsome (hspan l) ?_)
  rw [hparts]
  exact nofun

theorem seats_tryStatement {hasFinal : Bool} (hsome : c.whole?.isSome = true) :
    Seats g c (tryStatement hasFinal c)
      [node .block, node .catchClause .many, provided hasFinal (node .block)]
      (node .statement) := by
  intro place hc w frame h
  have hfinish : ∀ (final : Option Block) w',
      (∀ x ∈ final, (Part.statement (.block x)).LiesIn g (place 2)) ∧
        w'.Sits g (⟨.nodes false, place 1⟩ :: ⟨.nodes true, place 0⟩ :: frame) →
      Yields w' (do
        let catches ← expectNode .ast .catchClause ((← popNodes).mapM asCatchClause?)
        let block ← popBlock
        pushStatement (.trying block catches final c.whole))
        fun _ w' => w'.Sits g (⟨.nodes true, c.whole?⟩ :: frame) := by
    intro final w' hfinal
    refine .chain (sits_popNodesAs (P := fun x => (Part.handler x).LiesIn g (place 1))
      (fun n x hn hx => by cases n <;> cases hx; exact hn) hfinal.2) fun catches _ hcatches => ?_
    refine .bind (sits_popBlock hcatches.2) fun block _ hblock => ?_
    refine sits_pushStatement hblock.2 (hc.tidy.statement hsome rfl ?_)
    refine List.forall_mem_append.mpr ⟨List.forall_mem_cons.mpr ⟨hc.liesIn hblock.1,
      List.forall_mem_map.mpr fun x hx => hc.liesIn (hcatches.1 x hx)⟩,
      List.forall_mem_map.mpr fun b hb => ?_⟩
    exact hc.liesIn (hfinal.1 b (Option.mem_toList.mp hb))
  cases hasFinal with
  | false => exact .pure_bind (hfinish none w ⟨nofun, h⟩)
  | true => exact .bind (sits_present (sits_popBlock h)) hfinish

theorem seats_catchClause (hsome : c.whole?.isSome = true) :
    Seats g c (catchClause c) [node .parameter, node .block] (node .catchClause) := by
  intro place hc w frame h
  refine .bind (sits_popBlock h) fun block _ hblock => ?_
  refine .bind (sits_popParameter hblock.2) fun parameter _ hparameter => ?_
  refine sits_pushNode hparameter.2 (hc.tidy.liesIn hsome rfl rfl ?_ nofun)
  exact List.forall_mem_append.mpr ⟨hc.all hparameter.1,
    List.forall_mem_singleton.mpr (hc.liesIn hblock.1)⟩

theorem seats_assertStatement {hasMessage : Bool} (hsome : c.whole?.isSome = true) :
    Seats g c (assertStatement hasMessage c) [expr, provided hasMessage expr]
      (node .statement) := by
  intro place hc w frame h
  have hfinish : ∀ (message : Option Expr) w',
      (∀ x ∈ message, (Part.expr x).LiesIn g (place 1)) ∧
        w'.Sits g (⟨.exprs, place 0⟩ :: frame) →
      Yields w' (do
        let condition ← popExpr
        pushStatement (.assertion condition message c.whole))
        fun _ w' => w'.Sits g (⟨.nodes true, c.whole?⟩ :: frame) := by
    intro message w' hmessage
    refine .bind (sits_popExpr hmessage.2) fun condition _ hcondition => ?_
    refine sits_pushStatement hcondition.2 (hc.tidy.statement hsome rfl ?_)
    refine List.forall_mem_cons.mpr ⟨hc.liesIn hcondition.1,
      List.forall_mem_map.mpr fun e he => ?_⟩
    exact hc.liesIn (hmessage.1 e (Option.mem_toList.mp he))
  cases hasMessage with
  | false => exact .pure_bind (hfinish none w ⟨nofun, h⟩)
  | true => exact .bind (sits_present (sits_popExpr h)) hfinish

/-! ### Expressions -/

theorem seats_thisExpr (hsome : (c.spans.getD 0 none).isSome = true) :
    Seats g c (pushExpr (.this (c.span 0))) [] expr :=
  fun _ hc _ _ h => sits_pushExpr h
    ⟨hc.tidy.holds_span hsome, .intro nofun nofun (fun _ => .nil) nofun⟩

/-- An expression with one operand, which covers its right side. -/
theorem seats_operand {make : Expr → Expr} (hsome : c.whole?.isSome = true)
    (hspan : ∀ e, (make e).span = c.whole) (hwords : ∀ e, (make e).words = [])
    (hparts : ∀ e, (make e).parts = [e]) :
    Seats g c (do pushExpr (make (← popExpr))) [expr] expr := by
  intro place hc w frame h
  refine .bind (sits_popExpr h) fun e _ he => ?_
  refine sits_pushExpr he.2 (hc.tidy.expr hsome (hspan e) (hwords e) ?_)
  rw [hparts]
  exact .singleton (hc.liesIn he.1)

theorem seats_allocation (hsome : c.whole?.isSome = true) :
    Seats g c (allocation c) [type, expr .expr .many] expr := by
  intro place hc w frame h
  refine .bind (sits_popExprs h) fun arguments _ harguments => ?_
  refine .bind (sits_popType harguments.2) fun _ _ h => ?_
  exact sits_pushExpr h (hc.tidy.expr hsome rfl rfl (hc.row harguments.1))

theorem seats_instanceOf (hsome : c.whole?.isSome = true) :
    Seats g c (instanceOf c) [expr, type] expr := by
  intro place hc w frame h
  refine .bind (sits_popType h) fun _ _ h => ?_
  refine .bind (sits_popExpr h) fun value _ hvalue => ?_
  exact sits_pushExpr hvalue.2 (hc.tidy.expr hsome rfl rfl (.singleton (hc.liesIn hvalue.1)))

theorem seats_nameExpr : Seats g c nameExpr [word .some] expr := by
  intro place hc w frame h
  refine .bind (sits_popName h) fun name _ h => ?_
  exact sits_pushExpr h.2 (hc.liesIn (h.1.2.liesIn h.1.1))

theorem seats_binary {operator : BinaryOperator} (hsome : c.whole?.isSome = true) :
    Seats g c (binary operator c) [expr, expr] expr := by
  intro place hc w frame h
  refine .bind (sits_popExpr h) fun right _ hright => ?_
  refine .bind (sits_popExpr hright.2) fun left _ hleft => ?_
  refine sits_pushExpr hleft.2 (hc.tidy.expr hsome rfl rfl ?_)
  exact hc.rows Nat.zero_lt_one (.singleton hleft.1) (.singleton hright.1)

theorem seats_assignment (hsome : c.whole?.isSome = true) :
    Seats g c (assignment c) [expr, int, expr] expr := by
  intro place hc w frame h
  refine .bind (sits_popExpr h) fun value _ hvalue => ?_
  refine .bind (sits_popInt hvalue.2) fun _ _ h => ?_
  refine .bind (sits_popExpr h) fun target _ htarget => ?_
  refine sits_pushExpr htarget.2 (hc.tidy.expr hsome rfl rfl ?_)
  exact hc.rows Nat.zero_lt_one (.singleton htarget.1) (.singleton hvalue.1)

theorem seats_conditional (hsome : c.whole?.isSome = true) :
    Seats g c (conditional c) [expr, expr, expr] expr := by
  intro place hc w frame h
  refine .bind (sits_popExpr h) fun whenFalse _ hfalse => ?_
  refine .bind (sits_popExpr hfalse.2) fun whenTrue _ htrue => ?_
  refine .bind (sits_popExpr htrue.2) fun condition _ hcondition => ?_
  refine sits_pushExpr hcondition.2 (hc.tidy.expr hsome rfl rfl ⟨⟨?_, ?_⟩, ?_⟩)
  · exact List.forall_mem_cons.mpr ⟨hc.holds hcondition.1.holds, List.forall_mem_cons.mpr
      ⟨hc.holds htrue.1.holds, List.forall_mem_singleton.mpr (hc.holds hfalse.1.holds)⟩⟩
  · have h₀₁ := hc.precedes (i := 0) (j := 1) (by omega) hcondition.1.holds htrue.1.holds
    have h₀₂ := hc.precedes (i := 0) (j := 2) (by omega) hcondition.1.holds hfalse.1.holds
    have h₁₂ := hc.precedes (i := 1) (j := 2) (by omega) htrue.1.holds hfalse.1.holds
    exact .cons (List.forall_mem_cons.mpr ⟨h₀₁, List.forall_mem_singleton.mpr h₀₂⟩)
      (.cons (List.forall_mem_singleton.mpr h₁₂) (List.pairwise_singleton ..))
  · exact List.forall_mem_cons.mpr ⟨hcondition.1.nested, List.forall_mem_cons.mpr
      ⟨htrue.1.nested, List.forall_mem_singleton.mpr hfalse.1.nested⟩⟩

/-- The object in front of a dot: in its own place, or the first symbol. -/
theorem sits_popReceiver {w : Workspace} {l : List Seat} {σ : Place} {isSuper : Bool}
    (hc : c.Tidy g) (hsuper : isSuper = true → σ = some (c.span 0) ∧ some (c.span 0) ∈ c.spans)
    (h : w.Sits g ((provided (!isSuper) expr).kinds.map (⟨·, σ⟩) ++ l)) :
    Yields w (popReceiver isSuper c) fun e w' => (Part.expr e).LiesIn g σ ∧ w'.Sits g l := by
  cases isSuper with
  | false => exact sits_popExpr h
  | true =>
      obtain ⟨rfl, hmem⟩ := hsuper rfl
      exact .pure ⟨⟨Place.holds_self (hc.ends _ hmem).1,
        .intro nofun nofun (fun _ => .nil) nofun⟩, h⟩

/-- The object in front of a dot stands in front of all else. -/
theorem exists_receiver {w : Workspace} {frame : List Seat} {place : Nat → Place} {isSuper : Bool}
    {rest : List Profile} (hc : c.Spreads g place)
    (hsuper : isSuper = true → (c.spans.getD 0 none).isSome = true ∧
      ∀ i, Place.Precedes g.gap (c.spans.getD 0 none) (place i))
    (h : w.Sits g (Seat.followed place frame 0
      ((provided (!isSuper) expr :: rest).flatMap Profile.kinds))) :
    ∃ (σ : Place) (behind : Nat → Place), σ.Within c.whole? ∧
      (∀ i, σ.Precedes g.gap (behind i)) ∧ c.Spreads g behind ∧
      (isSuper = true → σ = some (c.span 0) ∧ some (c.span 0) ∈ c.spans) ∧
      w.Sits g (Seat.followed behind ((provided (!isSuper) expr).kinds.map (⟨·, σ⟩) ++ frame) 0
        (rest.flatMap Profile.kinds)) := by
  cases isSuper with
  | false =>
      obtain ⟨σ, behind, hσ, hprecedes, hbehind, h⟩ := exists_leading rfl hc h
      exact ⟨σ, behind, hσ, hprecedes, hbehind, nofun, h⟩
  | true =>
      obtain ⟨hsome, hbefore⟩ := hsuper rfl
      rw [Handle.getD_eq hsome] at hbefore
      refine ⟨some (c.span 0), place, Place.within_of_holds fun s hs => ?_, hbefore, hc,
        fun _ => ⟨rfl, Handle.Tidy.mem_of_getD (Handle.getD_eq hsome)⟩, h⟩
      exact Option.some.inj hs ▸ hc.tidy.holds_span hsome

section

variable {isSuper : Bool} {place : Nat → Place} (hsome : c.whole?.isSome = true)
  (hsuper : isSuper = true → (c.spans.getD 0 none).isSome = true ∧
    ∀ i, Place.Precedes g.gap (c.spans.getD 0 none) (place i)) (hc : c.Spreads g place)

include hsome hsuper hc

theorem seats_fieldAccess :
    SeatsAt g c place (fieldAccess isSuper c) [provided (!isSuper) expr, word] expr := by
  intro w frame h
  obtain ⟨σ, behind, hσ, -, hbehind, hreceiver, h⟩ := exists_receiver hc hsuper h
  refine .bind (sits_popIdentifier h) fun name _ h => ?_
  refine .bind (sits_popReceiver hc.tidy hreceiver h.2) fun receiver _ hreceiver => ?_
  exact sits_pushExpr hreceiver.2
    (hc.tidy.expr hsome rfl rfl (.singleton (hreceiver.1.within hσ)))

theorem seats_callOn :
    SeatsAt g c place (callOn isSuper c) [provided (!isSuper) expr, word, expr .expr .many]
      expr := by
  intro w frame h
  obtain ⟨σ, behind, hσ, hprecedes, hbehind, hreceiver, h⟩ := exists_receiver hc hsuper h
  refine .bind (sits_popExprs h) fun arguments _ harguments => ?_
  refine .bind (sits_popIdentifier harguments.2) fun selector _ h => ?_
  refine .bind (sits_popReceiver hc.tidy hreceiver h.2) fun receiver _ hreceiver => ?_
  refine sits_pushExpr hreceiver.2 (hc.tidy.expr hsome rfl rfl ?_)
  exact (ExprRow.singleton hreceiver.1).append harguments.1 hσ (hbehind.within 1) (hprecedes 1)

end

theorem seats_callByName {dialect : Dialect} (hsome : c.whole?.isSome = true) :
    Seats g c (callByName dialect c) [word .some, expr .expr .many] expr := by
  intro place hc w frame h
  refine .bind (sits_popExprs h) fun arguments _ harguments => ?_
  refine .bind (sits_popIdentifiers harguments.2) fun segments _ hsegments => ?_
  split
  · intro _ _ hok
    cases hok
  · refine sits_pushExpr hsegments.2 (hc.tidy.expr hsome rfl rfl ?_)
    refine hc.rows (i := 0) Nat.zero_lt_one ?_ harguments.1
    -- the words in front of the selector, if there are any, are a name
    have hwords : WordRow g (place 0) segments.dropLast := by
      refine ⟨fun s hs => hsegments.1.holds s ?_, ?_⟩
      · rw [List.map_dropLast] at hs
        exact List.mem_of_mem_dropLast hs
      · rw [List.map_dropLast]
        exact hsegments.1.apart.sublist (List.dropLast_sublist _)
    split
    · exact .nil
    · rename_i words hne
      have hname : (Part.expr (.name ⟨segments.dropLast⟩)).LiesIn g (place 0) :=
        WordRow.liesIn hwords hne
      exact .singleton hname

end Work

end AspectLang
