import AspectLang.Proofs.Parse.PlaceholderActions
import AspectLang.Proofs.Parse.SideBySide

/-! # Units without aspect constructs

A dialect does not interfere with a unit that has no aspect construct: where parsing without a
dialect reports no construct as unavailable, parsing with the dialect of aspects takes the same
steps, repairs alike, and leaves the same tree, up to the calls of `proceed` that it marks.  The
first construct that is met is reported, and the report stays (`stays_act`); up to then the two
machines hold the same values and no node that would forbid a repair (`Machine.paired_aspects`). -/

namespace AspectLang

/-! ### Trees of abandoned units -/

namespace Salvage

variable {f : Factory}

/-- The parts of an abandoned unit with their calls of `proceed` marked. -/
def markProceeds (f : Factory) (s : Salvage) : Salvage where
  unit := s.unit.markProceeds f
  openTypes := s.openTypes.map (TypeDecl.markProceeds f)
  openMethod := s.openMethod.map (MethodDecl.markProceeds f)

theorem addMember_markProceeds (m : Member) (t : TypeDecl) :
    addMember (m.markProceeds f) (t.markProceeds f) = (addMember m t).markProceeds f := by
  rw [TypeDecl.markProceeds_eq, TypeDecl.markProceeds_eq]
  simp [addMember]

theorem place_markProceeds (m : Member) (s : Salvage) :
    (s.markProceeds f).place (m.markProceeds f) = (s.place m).markProceeds f := by
  obtain ⟨unit, openTypes, openMethod⟩ := s
  cases openTypes with
  | cons t outer =>
      simp only [place, markProceeds, List.map_cons, addMember_markProceeds]
  | nil =>
      cases m with
      | type t => simp [place, markProceeds, Member.markProceeds, CompilationUnit.markProceeds]
      | field _ | method _ | initializer _ => rfl

theorem closeMethod_markProceeds (s : Salvage) :
    (s.markProceeds f).closeMethod = s.closeMethod.markProceeds f := by
  unfold closeMethod
  cases hmethod : s.openMethod with
  | none =>
      have hmarked : (s.markProceeds f).openMethod = none := by
        rw [markProceeds, hmethod]
        rfl
      rw [hmarked]
  | some m =>
      have hmarked : (s.markProceeds f).openMethod = some (m.markProceeds f) := by
        rw [markProceeds, hmethod]
        rfl
      rw [hmarked]
      dsimp only
      have hplace := place_markProceeds (f := f) (.method m) s
      change (s.markProceeds f).place (.method (m.markProceeds f)) = _ at hplace
      rw [hplace]
      rfl

theorem isOpen_markProceeds (t : TypeDecl) : (t.markProceeds f).isOpen = t.isOpen := by
  cases t
  rfl

theorem add_markProceeds (s : Salvage) (n : Node) :
    (s.markProceeds f).add (n.markProceeds f) = (s.add n).markProceeds f := by
  cases n with
  | package _ | importDecl _ => rfl
  | statement stmt =>
      simp only [add, Node.markProceeds, markProceeds, Option.map_map]
      congr 2
      funext m
      cases hstatements : m.statements <;>
        simp [MethodDecl.markProceeds, hstatements]
  | type t =>
      simp only [add, Node.markProceeds, isOpen_markProceeds]
      split
      · rw [closeMethod_markProceeds]
        rfl
      · exact place_markProceeds (.type t) s
  | method m =>
      simp only [add, Node.markProceeds]
      change (if m.isOpen then _ else _) = _
      split
      · rw [closeMethod_markProceeds]
        rfl
      · exact place_markProceeds (.method m) s
  | field d => exact place_markProceeds (.field d) s
  | initializer d => exact place_markProceeds (.initializer d) s
  | parameter _ | catchClause _ | declarator _ | extraParameter _ | fragment _ => rfl

theorem closeTypes_markProceeds (unit : CompilationUnit) (types : List TypeDecl) :
    closeTypes (unit.markProceeds f) (types.map (TypeDecl.markProceeds f)) =
      (closeTypes unit types).markProceeds f := by
  fun_induction closeTypes unit types with
  | case1 => rw [List.map_nil, closeTypes]
  | case2 t => simp [closeTypes, CompilationUnit.markProceeds]
  | case3 inner outer rest ih =>
      rw [← ih, List.map_cons, List.map_cons, List.map_cons, closeTypes,
        ← addMember_markProceeds]
      rfl

/-- What is kept of marked nodes is what is kept of the nodes, marked. -/
theorem ofNodes_markProceeds (span : Span) (nodes : List Node) :
    ofNodes span (nodes.map (Node.markProceeds f)) = (ofNodes span nodes).markProceeds f := by
  have hfold : ∀ s : Salvage, (nodes.map (Node.markProceeds f)).foldl add (s.markProceeds f) =
      (nodes.foldl add s).markProceeds f := by
    induction nodes with
    | nil => exact fun _ => rfl
    | cons n nodes ih =>
        intro s
        rw [List.map_cons, List.foldl_cons, List.foldl_cons, add_markProceeds, ih]
  have hstart := hfold { unit := ⟨none, [], [], span⟩ }
  unfold ofNodes close
  change closeTypes ((nodes.map (Node.markProceeds f)).foldl add
    ({ unit := ⟨none, [], [], span⟩ : Salvage }.markProceeds f)).closeMethod.unit
      ((nodes.map (Node.markProceeds f)).foldl add
        ({ unit := ⟨none, [], [], span⟩ : Salvage }.markProceeds f)).closeMethod.openTypes = _
  rw [hstart, closeMethod_markProceeds]
  exact closeTypes_markProceeds _ _

end Salvage

/-! ### Reports stay -/

/-- A construct was reported as unavailable. -/
def Workspace.Unavailable (w : Workspace) : Prop := w.reporter.has .featureUnavailable = true

theorem Reporter.has_error {r : Reporter} {id : ProblemKind} (h : r.has id = true)
    (other : ProblemKind) (span : Span) (arguments : List String) :
    (r.error other span arguments).has id = true := by
  unfold has at h ⊢
  rw [Array.any_eq_true'] at h ⊢
  obtain ⟨d, hd, hid⟩ := h
  exact ⟨d, Array.mem_push_of_mem _ hd, hid⟩

theorem Reporter.has_error_self (r : Reporter) (id : ProblemKind) (span : Span)
    (arguments : List String) : (r.error id span arguments).has id = true := by
  unfold has
  rw [Array.any_eq_true']
  exact ⟨.of id span arguments, Array.mem_push_self, beq_self_eq_true id⟩

namespace Work

open Workspace

/-- That a construct was reported is kept by errors. -/
theorem keptByErrors_unavailable :
    KeptByErrors fun l _ => l.1.has .featureUnavailable = true :=
  fun _ _ id span arguments h => Reporter.has_error h id span arguments

/-- What is in step with something else, whatever was reported, keeps a report. -/
theorem stays_of_inStep {x y : Work Unit}
    (h : InStep (Agrees fun l _ => l.1.has .featureUnavailable = true) Eq x y) :
    Stays Unavailable x := by
  intro w hw
  have hresult := h w w ⟨rfl, rfl, hw⟩
  generalize x w = r, y w = r' at hresult
  cases hresult with
  | ok _ h => exact .ok h.log
  | error h => exact .error h.log

/-- Without a dialect the base language is built as with the placeholder factory. -/
theorem agrees_baseAction {L : Reporter × Bool → Reporter × Bool → Prop} (hL : KeptByErrors L)
    (c : Handle) (action : SemanticAction) :
    InStep (Agrees L) Eq (baseAction .disabled c action)
      (baseAction (.enabled .placeholder) c action) := by
  intro w w' hw
  have hresult := inStep_baseAction hL c action w w' (mirrors_placeholder_iff.mpr hw)
  generalize baseAction .disabled c action w = r, baseAction _ c action w' = r' at hresult
  cases hresult with
  | ok h hw => exact .ok h (mirrors_placeholder_iff.mp hw)
  | error hw => exact .error (mirrors_placeholder_iff.mp hw)

theorem stays_baseAction (c : Handle) (action : SemanticAction) :
    Stays Unavailable (baseAction .disabled c action) :=
  stays_of_inStep (agrees_baseAction keptByErrors_unavailable c action)

/-- Without a dialect, a construct is reported, or another one was before. -/
theorem factoryFor_disabled (construct : String) (span : Span) {w : Workspace}
    (hw : w.unavailableReported = false ∨ w.Unavailable) :
    ∃ w', factoryFor .disabled construct span w = .ok .placeholder w' ∧ w'.Unavailable := by
  obtain ⟨values, reporter, unit, reported⟩ := w
  cases reported with
  | false =>
      exact ⟨⟨values, reporter.error .featureUnavailable span [construct], unit, true⟩, rfl,
        Reporter.has_error_self reporter .featureUnavailable span [construct]⟩
  | true => exact ⟨⟨values, reporter, unit, true⟩, rfl, hw.resolve_left Bool.noConfusion⟩

/-- After the action of an aspect construct, a construct was reported. -/
theorem unavailable_aspectAction (c : Handle) (action : AspectAction) {w : Workspace}
    (hw : w.unavailableReported = false ∨ w.Unavailable) :
    Ends Unavailable (aspectAction .disabled c action w) := by
  obtain ⟨build, hbind, heven⟩ := aspectAction_eq_bind c action
  obtain ⟨w', hfactory, hw'⟩ := factoryFor_disabled action.constructWords c.whole hw
  have hstays := stays_of_inStep (heven _ keptByErrors_unavailable)
  rw [hbind]
  change Ends Unavailable (EStateM.bind _ build w)
  unfold EStateM.bind
  rw [hfactory]
  exact hstays w' hw'

/-- An action is one of an aspect construct or one of the base language. -/
theorem act_cases (action : SemanticAction) :
    (∃ a, ∀ dialect c, act dialect c action = aspectAction dialect c a) ∨
      ∀ dialect c, act dialect c action = baseAction dialect c action := by
  cases action with
  | aspect a => exact .inl ⟨a, fun _ _ => rfl⟩
  | _ => exact .inr fun _ _ => rfl

theorem stays_act (c : Handle) (action : SemanticAction) :
    Stays Unavailable (act .disabled c action) := by
  rcases act_cases action with ⟨a, hact⟩ | hact
  · rw [hact]
    exact fun w hw => unavailable_aspectAction c a (.inr hw)
  · rw [hact]
    exact stays_baseAction c action

end Work

namespace Machine

variable {settings : Settings}

theorem unavailable_report {m : Machine} (h : m.work.Unavailable) (id : ProblemKind) (span : Span)
    (arguments : List String) : (m.report id span arguments).work.Unavailable :=
  Reporter.has_error h id span arguments

theorem unavailable_passOver {m : Machine} (h : m.work.Unavailable) (maxFailures : Nat)
    (t : Token) : (m.passOver maxFailures t).2.work.Unavailable := by
  have hreported : (m.reportUnexpected t).work.Unavailable := unavailable_report h _ _ _
  unfold passOver
  dsimp only
  split
  · exact unavailable_report hreported _ _ _
  · split
    · exact unavailable_report hreported _ _ _
    · exact hreported

theorem unavailable_recover {p : ParserSetup} {m : Machine} (h : m.work.Unavailable) (t : Token) :
    (recover p t m).2.work.Unavailable := by
  unfold recover
  split
  · exact h
  · split
    · exact unavailable_report h _ _ _
    · split
      · exact unavailable_report (unavailable_report h _ _ _) _ _ _
      · dsimp only
        split
        · exact unavailable_report h _ _ _
        · exact unavailable_report h _ _ _
        · exact unavailable_passOver h _ t

/-! ### Two machines -/

/-- Logs that are the same, without a report of a missing dialect. -/
def SilentLogs (l l' : Reporter × Bool) : Prop := l' = l ∧ l.2 = false

theorem keptByErrors_silentLogs : KeptByErrors SilentLogs := by
  rintro l _ id span arguments ⟨rfl, hl⟩
  exact ⟨rfl, hl⟩

/-- A token leaves the same value in both machines. -/
theorem pushValue_markProceeds (f : Factory) (t : Token) (s : ValueStacks) :
    pushValue t (s.markProceeds f) = (pushValue t s).markProceeds f := by
  unfold pushValue
  split
  · rfl
  · split <;> rfl

open Workspace (Mirrors)

/-- Repairs do not look at the marks, and no node forbids one. -/
theorem beside_recover (t : Token) {m m' : Machine}
    (h : m.Beside (Mirrors .aspects SilentLogs) m') :
    (recover ⟨settings, .enabled .aspects⟩ t m').1 = (recover ⟨settings, .disabled⟩ t m).1 ∧
      Beside (Mirrors .aspects SilentLogs) (recover ⟨settings, .disabled⟩ t m).2
        (recover ⟨settings, .enabled .aspects⟩ t m').2 := by
  obtain ⟨heq, hvalues, hunit, hrepairable, hlog, hsilent⟩ := h
  have hallows : m'.allowsRepair (.enabled .aspects) = m.allowsRepair .disabled := by
    refine List.all_eq_true.mpr fun n hn => ?_
    rw [hvalues] at hn
    obtain ⟨n', hn', rfl⟩ := List.mem_map.mp hn
    rw [Node.allowsRepair_markProceeds]
    exact hrepairable n' hn'
  have hwith : m' = m.withValues m'.work.values m'.work.unit := by
    obtain ⟨hreporter, hreported⟩ := Prod.mk.inj hlog
    rw [heq]
    unfold withValues
    dsimp only
    rw [← hreporter, ← hreported]
  rw [hwith] at hallows
  have hsame : recover ⟨settings, .enabled .aspects⟩ t
      (m.withValues m'.work.values m'.work.unit) = _ := recover_withValues t hallows
  rw [← hwith] at hsame
  have hkeeps := keeps_recover ⟨settings, .disabled⟩ t m
  rw [hsame]
  refine ⟨rfl, rfl, ?_, ?_, ?_, rfl, hkeeps.reported.trans hsilent⟩
  · change m'.work.values = _
    rw [hkeeps.values]
    exact hvalues
  · change m'.work.unit = _
    rw [hkeeps.unit]
    exact hunit
  · rw [hkeeps.values]
    exact hrepairable

/-- Without a dialect and with the aspects, the same is done until a construct is reported. -/
theorem paired_aspects (settings : Settings) :
    Paired (fun r => r.has .featureUnavailable = true) (Mirrors .aspects SilentLogs) settings
      .disabled (.enabled .aspects) where
  push t w w' h := by
    refine ⟨?_, h.unit, ?_, h.log⟩
    · change pushValue t w'.values = _
      rw [h.values]
      exact pushValue_markProceeds _ t _
    · change ∀ n ∈ (pushValue t w.values).nodes.items, _
      rw [nodes_pushValue]
      exact h.repairable
  act c action production w w' h := by
    have hbegun : Mirrors .aspects SilentLogs { w with values := w.values.begin production }
        { w' with values := w'.values.begin production } := by
      refine ⟨?_, h.unit, h.repairable, h.log⟩
      change w'.values.begin production = _
      rw [h.values]
      rfl
    rcases Work.act_cases action with ⟨a, hact⟩ | hact
    · rw [hact]
      exact .inl (Work.unavailable_aspectAction c a (.inl hbegun.log.2))
    · rw [hact, hact]
      exact .inr (Work.inStep_baseAction keptByErrors_silentLogs c action _ _ hbegun)
  recovers t _ _ h := .inr (beside_recover t h)
  stays_act := Work.stays_act
  stays_recover t _ h := unavailable_recover h t

end Machine

/-! ### Units -/

/-- The outcome with the calls of `proceed` in its tree marked. -/
def ParseOutcome.markProceeds (f : Factory) (o : ParseOutcome) : ParseOutcome :=
  { o with unit := o.unit.markProceeds f }

namespace Parser

open Machine

open Workspace (Mirrors)

theorem depths_markProceeds (f : Factory) (s : ValueStacks) :
    (s.markProceeds f).depths = s.depths := by
  simp [ValueStacks.depths, ValueStacks.markProceeds, SegmentStack.map, SegmentStack.depth,
    SegmentStack.segmentCount]

theorem diagnostics_of_mirrors {m m' : Machine}
    (h : m.Beside (Mirrors .aspects SilentLogs) m') :
    m'.work.reporter.diagnostics = m.work.reporter.diagnostics := by
  rw [show m'.work.reporter = m.work.reporter from congrArg Prod.fst h.work.log.1]

theorem inStep_finishAccepted (length : Nat) :
    InStep (Beside (Mirrors .aspects SilentLogs)) (fun o o' => o' = o.markProceeds .aspects)
      (finishAccepted length) (finishAccepted length) := by
  intro m m' h
  have hdiagnostics := diagnostics_of_mirrors h
  have hunit := h.work.unit
  have hdepths : m'.work.values.depths = m.work.values.depths := by
    rw [h.work.values]
    exact depths_markProceeds _ _
  have hrecovery : m'.recovery = m.recovery := by rw [h.eq]
  unfold finishAccepted
  cases hfirst : m.work.unit with
  | none =>
      rw [hunit, hfirst]
      exact .error h
  | some unit =>
      rw [hunit, hfirst, Option.map_some]
      dsimp only
      rw [hdepths]
      have hdone : Beside (Mirrors .aspects SilentLogs) { m with work.unit := none }
          { m' with work.unit := none } :=
        h.of_work ⟨h.work.values, rfl, h.work.repairable, h.work.log⟩
      split
      · refine .ok ?_ hdone
        unfold outcome ParseOutcome.markProceeds
        dsimp only
        rw [hdiagnostics, hrecovery]
        rfl
      · exact .error hdone

/-- What is left of abandoned units is the same, up to the marks. -/
theorem outcome_abandoned (span : Span) (m m' : Machine)
    (h : m.Beside (Mirrors .aspects SilentLogs) m') :
    outcome (Salvage.ofNodes span m'.work.values.nodes.toList) true m' =
      (outcome (Salvage.ofNodes span m.work.values.nodes.toList) true m).markProceeds .aspects := by
  have hdiagnostics := diagnostics_of_mirrors h
  have hrecovery : m'.recovery = m.recovery := by rw [h.eq]
  unfold outcome ParseOutcome.markProceeds
  dsimp only
  rw [hdiagnostics, hrecovery, ← Salvage.ofNodes_markProceeds, h.work.values]
  congr 2
  exact List.map_reverse.symm

theorem mirrors_start (settings : Settings) (stream : TokenStream) :
    Beside (Mirrors .aspects SilentLogs) ((Parser.new settings .disabled).start stream)
      ((Parser.new settings (.enabled .aspects)).start stream) := by
  refine ⟨rfl, ?_, rfl, fun n hn => ?_, rfl, rfl⟩
  · dsimp only [start, reset, Parser.new, ValueStacks.markProceeds, ValueStacks.reset,
      SegmentStack.map, List.map_nil]
    rfl
  · cases hn

end Parser

/-- **A dialect does not interfere with a unit that has no aspect construct.**  Parsing without
a dialect reports a construct as unavailable, or parsing with the dialect of aspects gives the
same tree, diagnostics, state and repairs, or the same fault; only the calls named `proceed` that
have no receiver are marked in the tree. -/
theorem aspects_leave_plain_units (settings : Settings) (stream : TokenStream) :
    (∃ d ∈ Parser.produced ((Parser.new settings .disabled).parseStream stream),
      d.id = .featureUnavailable) ∨
    ((Parser.new settings (.enabled .aspects)).parseStream stream).1 =
      ((Parser.new settings .disabled).parseStream stream).1.map
        (ParseOutcome.markProceeds .aspects) := by
  have hunit := Parser.inStepUnless_parseUnit (Machine.paired_aspects settings)
    Parser.inStep_finishAccepted Parser.outcome_abandoned stream.endOffset _ _
    (Parser.mirrors_start settings stream)
  have hreported : ∀ r : Reporter, r.has .featureUnavailable = true →
      ∃ d ∈ r.diagnostics.toList, d.id = .featureUnavailable := by
    intro r h
    obtain ⟨d, hd, hid⟩ := Array.any_eq_true'.mp h
    exact ⟨d, Array.mem_toList_iff.mpr hd, beq_iff_eq.mp hid⟩
  rw [Parser.parseStream_eq, Parser.parseStream_eq]
  change Ends _ (Parser.parseUnit (Parser.new settings .disabled).setup _ _) ∨
    Alike _ _ (Parser.parseUnit (Parser.new settings .disabled).setup _ _)
      (Parser.parseUnit (Parser.new settings (.enabled .aspects)).setup _ _) at hunit
  cases hplain : Parser.parseUnit (Parser.new settings .disabled).setup stream.endOffset
      ((Parser.new settings .disabled).start stream) with
  | ok o m =>
      rw [hplain] at hunit
      rcases hunit with hunit | hunit
      · cases hunit with
        | ok h =>
            refine .inl ?_
            unfold Parser.produced
            dsimp only
            rw [Parser.diagnostics_of_parseUnit hplain]
            exact hreported m.work.reporter h
      · generalize Parser.parseUnit (Parser.new settings (.enabled .aspects)).setup _ _ = r
          at hunit
        cases hunit with
        | ok ho _ => exact .inr (congrArg Except.ok ho)
  | error e m =>
      rw [hplain] at hunit
      rcases hunit with hunit | hunit
      · cases hunit with
        | error h => exact .inl (hreported m.work.reporter h)
      · generalize Parser.parseUnit (Parser.new settings (.enabled .aspects)).setup _ _ = r
          at hunit
        cases hunit with
        | error _ => exact .inr rfl

end AspectLang
