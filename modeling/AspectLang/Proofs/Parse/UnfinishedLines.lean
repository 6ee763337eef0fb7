import AspectLang.Proofs.Parse.ViewedMachines
import AspectLang.Proofs.Parse.WholeDeclarations
import AspectLang.Tree.Printer

/-! # Lines of declarations that were never finished

In the listing of a unit the line of a type is marked as incomplete just when the type is open.  The
line of a method would be marked if the method was open behind the start of its body, which no
method is: no method is ever marked (`open_types_marked`), also where it was never finished
(`open_constructor_unmarked`). -/

namespace AspectLang

/-! ### Lines -/

/-- The words at the end of the line of a declaration that was not finished. -/
def incompleteMark : String := " (incomplete)"

/-- The line of a type or a method, without what is indented below it. -/
def Node.headline? : Node → Option String
  | .type t => some t.headline
  | .method m => some m.headline
  | _ => none

/-- Whether a line ends with the words for a declaration that was not finished. -/
def IsMarkedIncomplete (line : String) : Prop := incompleteMark.toList <:+ line.toList

theorem isMarkedIncomplete_append (front : String) : IsMarkedIncomplete (front ++ incompleteMark) := by
  unfold IsMarkedIncomplete
  rw [String.toList_append]
  exact List.suffix_append _ _

/-- What ends with a range is not marked. -/
theorem not_isMarkedIncomplete_range (front : String) (e : Extent) :
    ¬ IsMarkedIncomplete (front ++ rangeText e ++ "") := by
  unfold IsMarkedIncomplete rangeText incompleteMark
  rintro ⟨before, h⟩
  have hmark : " (incomplete)".toList = " (incomplete".toList ++ [')'] := by decide
  have hrange : (front ++ (" [" ++ e.declaration.render ++ "]") ++ "").toList =
      (front ++ " [" ++ e.declaration.render).toList ++ [']'] := by
    simp [String.toList_append]
  rw [hmark, hrange, ← List.append_assoc] at h
  have hlast := congrArg List.getLast? h
  rw [List.getLast?_concat, List.getLast?_concat] at hlast
  cases hlast

theorem TypeDecl.isMarkedIncomplete_headline (t : TypeDecl) :
    IsMarkedIncomplete t.headline ↔ t.isOpen = true := by
  unfold TypeDecl.headline
  cases hopen : t.isOpen with
  | true => exact iff_of_true (isMarkedIncomplete_append _) rfl
  | false => exact iff_of_false (not_isMarkedIncomplete_range _ _) (by simp)

theorem MethodDecl.isMarkedIncomplete_headline (m : MethodDecl) :
    IsMarkedIncomplete m.headline ↔ m.shownIncomplete = true := by
  unfold MethodDecl.headline
  cases hshown : m.shownIncomplete with
  | true => exact iff_of_true (isMarkedIncomplete_append _) rfl
  | false => exact iff_of_false (not_isMarkedIncomplete_range _ _) (by simp)

mutual

/-- Every type and method that a type declares has its line in the listing. -/
theorem TypeDecl.exists_line {n : Node} {line : String} (hline : n.headline? = some line)
    (owners : List TypeDecl) (depth : Nat) : ∀ t : TypeDecl,
    n ∈ (t.placed owners).map Placed.node → ∃ d, listingLine d line ∈ t.listing depth
  | ⟨_, _, _, _, _, _, _, members, _, _, _, _⟩ => by
    intro hn
    unfold TypeDecl.placed at hn
    unfold TypeDecl.listing
    rcases List.mem_cons.mp hn with rfl | hn
    · obtain rfl := Option.some.inj hline
      exact ⟨depth, List.mem_cons_self⟩
    · obtain ⟨d, hd⟩ := exists_line_of_members hline _ (depth + 1) members hn
      exact ⟨d, List.mem_cons_of_mem _ hd⟩

theorem exists_line_of_members {n : Node} {line : String} (hline : n.headline? = some line)
    (owners : List TypeDecl) (depth : Nat) : ∀ members : List Member,
    n ∈ (placedMembers owners members).map Placed.node →
      ∃ d, listingLine d line ∈ membersListing depth members
  | [] => by
    intro hn
    rw [placedMembers] at hn
    cases hn
  | m :: rest => by
    intro hn
    rw [placedMembers, List.map_append] at hn
    rw [membersListing]
    rcases List.mem_append.mp hn with hn | hn
    · obtain ⟨d, hd⟩ := Member.exists_line hline owners depth m hn
      exact ⟨d, List.mem_append_left _ hd⟩
    · obtain ⟨d, hd⟩ := exists_line_of_members hline owners depth rest hn
      exact ⟨d, List.mem_append_right _ hd⟩

theorem Member.exists_line {n : Node} {line : String} (hline : n.headline? = some line)
    (owners : List TypeDecl) (depth : Nat) : ∀ m : Member,
    n ∈ (m.placed owners).map Placed.node → ∃ d, listingLine d line ∈ m.listing depth
  | .field _ | .initializer _ => by
    intro hn
    rw [Member.placed] at hn
    obtain rfl := List.mem_singleton.mp hn
    cases hline
  | .method m => by
    intro hn
    rw [Member.placed] at hn
    obtain rfl := List.mem_singleton.mp hn
    obtain rfl := Option.some.inj hline
    exact ⟨depth, List.mem_cons_self⟩
  | .type t => by
    intro hn
    rw [Member.placed] at hn
    exact TypeDecl.exists_line hline owners depth t hn

end

/-- Every type and method of a unit has its line in the listing. -/
theorem CompilationUnit.exists_line {u : CompilationUnit} {n : Node} {line : String}
    (hn : n ∈ u.declares) (hline : n.headline? = some line) :
    ∃ depth, listingLine depth line ∈ u.lines := by
  obtain ⟨x, hx, rfl⟩ := List.mem_map.mp hn
  unfold placed at hx
  unfold lines
  rcases List.mem_append.mp hx with hx | hx
  · rcases List.mem_append.mp hx with hx | hx <;>
      (obtain ⟨_, _, rfl⟩ := List.mem_map.mp hx; cases hline)
  · obtain ⟨t, ht, hx⟩ := List.mem_flatMap.mp hx
    obtain ⟨d, hd⟩ := t.exists_line hline [] 0 (List.mem_map_of_mem hx)
    exact ⟨d, List.mem_append_right _ (List.mem_flatMap.mpr ⟨t, ht, hd⟩)⟩

/-- **Open types are marked as incomplete, and nothing else is.**  Every type and every method of a
unit has its line in the listing of the unit.  The line ends with the words for an incomplete
declaration if and only if it is that of a type which is open: the line of a method never does.  In
a unit that was read to its end no declaration is open. -/
theorem open_types_marked {p : Parser} {stream : TokenStream} {o : ParseOutcome}
    (hok : (p.parseStream stream).1 = .ok o) :
    (∀ n ∈ o.unit.declares, ∀ line ∈ n.headline?,
      (∃ depth, listingLine depth line ∈ o.unit.lines) ∧
        (IsMarkedIncomplete line ↔ n.isOpen = true ∧ ∃ t, n = .type t)) ∧
      (o.isAbandoned = false → ∀ n ∈ o.unit.declares, n.isOpen = false) := by
  refine ⟨fun n hn line hline => ⟨CompilationUnit.exists_line hn hline, ?_⟩,
    fun hparsing => Parser.isOpen_of_parsing hok hparsing⟩
  cases n with
  | type t =>
      obtain rfl := Option.some.inj hline
      rw [t.isMarkedIncomplete_headline]
      exact (and_iff_left ⟨t, rfl⟩).symm
  | method m =>
      obtain rfl := Option.some.inj hline
      rw [m.isMarkedIncomplete_headline]
      refine iff_of_false (fun hshown => ?_) fun ⟨_, _, h⟩ => nomatch h
      unfold MethodDecl.shownIncomplete at hshown
      simp only [Bool.and_eq_true] at hshown
      obtain ⟨⟨hopen, _⟩, hstart⟩ := hshown
      rw [Parser.bodyStart_of_open hok hn hopen] at hstart
      cases hstart
  | _ => cases hline

/-! ### A constructor that was never finished -/

/-- Whether a kind fits nowhere, if views settle that. -/
def Outlook.misfits (o : Outlook) (k : TokenKind) (views : List View) : Bool :=
  match o.turn? k views with
  | some .rejected => true
  | _ => false

/-- Whether the next token fits nowhere when no error may be reported any more, and no reduction
waits for a closing brace. -/
def Viewed.isGivenUp (v : Viewed) : Bool :=
  match v.machine.rest with
  | [] => false
  | t :: _ =>
    Language.outlook.misfits t.kind v.views && decide (t.split = .whole) &&
      decide (v.machine.recovery.phase ≠ .abandoned) && v.machine.work.reporter.isOutOfBudget &&
        Language.outlook.misfits .rBrace v.views

section

open AspectLang.Language Machine

theorem Outlook.action_of_misfits {k : TokenKind} {views : List View} {states : List Nat}
    (hshow : Show grammar views states) (hkind : k ∈ TokenKind.all)
    (h : outlook.misfits k views = true) :
    ∃ top below, states = top :: below ∧ tables.action top k = .error := by
  unfold misfits at h
  split at h
  · rename_i hturn
    exact holds_turn? fits_outlook wellFormed_grammar startIsolated_grammar hkind hshow hturn
  · cases h

/-- A machine that is viewed where it is given up stops there, and nothing more is reduced. -/
theorem Viewed.Shows.abandons {v : Viewed} {states : List Nat} (p : ParserSetup)
    (h : v.Shows states) (hgiven : v.isGivenUp = true) :
    ∃ m, Machine.step p (v.on states) = .ok .abandoned m ∧ m.pending? = none ∧
      m.work.values.nodes = v.machine.work.values.nodes := by
  unfold isGivenUp at hgiven
  split at hgiven
  · cases hgiven
  · rename_i t rest hrest
    simp only [Bool.and_eq_true, decide_eq_true_eq] at hgiven
    obtain ⟨⟨⟨⟨hmisfits, hwhole⟩, hphase⟩, hbudget⟩, hbrace⟩ := hgiven
    obtain ⟨top, below, rfl, haction⟩ :=
      Outlook.action_of_misfits h.views (h.kinds t (hrest ▸ List.mem_cons_self)) hmisfits
    obtain ⟨top', below', hstates, haction'⟩ :=
      Outlook.action_of_misfits h.views (by decide) hbrace
    obtain ⟨rfl, rfl⟩ := List.cons.inj hstates
    have hrecover : recover p t (v.on (top :: below)) =
        (.abandoned, (v.on (top :: below)).abandon t.span "too many errors") := by
      unfold recover
      rw [if_neg (by exact hphase), if_pos (by exact hbudget)]
    refine ⟨(v.on (top :: below)).abandon t.span "too many errors", ?_, ?_, rfl⟩
    · have hseeks := seeksRepair_of_error (m := v.on (top :: below)) rfl hrest haction hwhole
      rw [step_of_seeksRepair hseeks hrest, hrecover]
    · have hsame : ((v.on (top :: below)).abandon t.span "too many errors").states =
          top :: below := rfl
      unfold pending?
      rw [hsame, List.head?_cons, Option.bind_some, haction']

end

theorem Parser.start_congr (p : Parser) {stream other : TokenStream}
    (htokens : stream.tokens = other.tokens) (herrors : stream.errors = other.errors)
    (hend : stream.endOffset = other.endOffset) : p.start stream = p.start other := by
  unfold start reportLexical
  rw [htokens, herrors, hend]

/-- A text with a lexical error in the parameters of a constructor. -/
def constructorSource : String := "class A \x7b A ( int # \x7d"

/-- The tokens of the text. -/
def constructorStream : TokenStream where
  pieces := [.ok ⟨.kwClass, ⟨0, 4⟩, "class"⟩, .ok ⟨.identifier, ⟨6, 6⟩, "A"⟩,
    .ok ⟨.lBrace, ⟨8, 8⟩, "\x7b"⟩, .ok ⟨.identifier, ⟨10, 10⟩, "A"⟩,
    .ok ⟨.lParen, ⟨12, 12⟩, "("⟩, .ok ⟨.kwInt, ⟨14, 16⟩, "int"⟩, .error ⟨⟨18, 18⟩, "#"⟩,
    .ok ⟨.rBrace, ⟨20, 20⟩, "\x7d"⟩]
  endOffset := 21

theorem stream_constructorSource :
    (Scanner.stream constructorSource).tokens = constructorStream.tokens ∧
      (Scanner.stream constructorSource).errors = constructorStream.errors ∧
        (Scanner.stream constructorSource).endOffset = constructorStream.endOffset := by
  unfold Scanner.stream Scanner.scan
  rw [Scanner.scanFrom_eq_within (n := 21) (by decide)]
  decide +kernel

/-- Whether a viewed machine is given up with the constructor on top, without its end. -/
def Viewed.leavesConstructor (v : Viewed) : Bool :=
  v.isGivenUp && match v.machine.work.values.nodes.items with
    | .method m :: _ => m.isOpen && !m.shownIncomplete
    | _ => false

theorem follow_constructor : (Language.startView?.bind fun v =>
    Viewed.steps? strictParser.setup 15 ⟨[v], strictParser.start constructorStream⟩).map
      Viewed.leavesConstructor = some true := by
  decide +kernel

/-- The unit is given up, and the constructor is on top then. -/
theorem run_constructorSource : ∃ m c rest,
    Machine.run strictParser.setup Parser.stepLimit Parser.stepLimit
      (strictParser.start (Scanner.stream constructorSource)) = .ok .abandoned m ∧
      m.pending? = none ∧ m.work.values.nodes.items = .method c :: rest ∧ c.isOpen = true ∧
        c.shownIncomplete = false := by
  obtain ⟨htokens, herrors, hend⟩ := stream_constructorSource
  have hstart := strictParser.start_congr htokens herrors hend
  obtain ⟨v, hfollow, hleaves⟩ := Option.map_eq_some_iff.mp follow_constructor
  obtain ⟨first, hfirst, hsteps⟩ := Option.bind_eq_some_iff.mp hfollow
  have hkinds : ∀ t ∈ (strictParser.start constructorStream).rest, t.kind ∈ TokenKind.all := by
    decide
  have hshows : Viewed.Shows ⟨[first], strictParser.start constructorStream⟩ [0] :=
    ⟨Language.show_start hfirst, hkinds⟩
  obtain ⟨states, hwalks, hshows⟩ := hshows.walks hsteps
  obtain ⟨hgiven, hconstructor⟩ := Bool.and_eq_true_iff.mp hleaves
  obtain ⟨m, hstep, hpending, hnodes⟩ := hshows.abandons strictParser.setup hgiven
  rw [hstart]
  have hgas : 15 < Parser.stepLimit := by decide
  have hrun := Machine.run_of_walks_ok hwalks hstep nofun hgas Parser.stepLimit
  rw [← hnodes] at hconstructor
  split at hconstructor
  · rename_i c rest hitems
    simp only [Bool.and_eq_true, Bool.not_eq_true'] at hconstructor
    exact ⟨m, c, rest, hrun, hpending, hitems, hconstructor⟩
  · cases hconstructor

/-- What is on top when a unit is given up is declared in it, if nothing stands behind it. -/
theorem mem_placedAbove_concat (below nodes : List Node) (c : MethodDecl) :
    .method c ∈ (placedAbove below (nodes ++ [.method c])).map Placed.node := by
  induction nodes generalizing below with
  | nil =>
      have hsame : (Node.method c).completed [] = .method c := by
        change Node.method (if c.isOpen then c.continued [] else c) = .method c
        split <;> rfl
      rw [List.nil_append, placedAbove, hsame]
      exact List.mem_cons_self
  | cons n nodes ih =>
      rw [List.cons_append, placedAbove, List.map_append]
      exact List.mem_append_right _ (ih _)

theorem parse_constructorSource : ∃ o c, (strictParser.parse constructorSource).1 = .ok o ∧
    o.isAbandoned = true ∧ .method c ∈ o.unit.declares ∧ c.isOpen = true ∧
      c.shownIncomplete = false := by
  obtain ⟨m, c, rest, hrun, hpending, hitems, hopen, hshown⟩ := run_constructorSource
  have hok := Parser.parseStream_of_pending hrun hpending
  refine ⟨_, c, hok, rfl, ?_, hopen, hshown⟩
  obtain ⟨φ, halong⟩ := Parser.exists_along_of_settle hrun (Machine.settle_of_pending hpending _ _ _)
  unfold CompilationUnit.declares
  change _ ∈ (CompilationUnit.placed (Salvage.ofNodes _ m.work.values.nodes.toList)).map _
  rw [Salvage.placed_ofNodes _ halong]
  unfold SegmentStack.toList
  rw [hitems, List.reverse_cons]
  exact mem_placedAbove_concat _ _ _

/-- The constructor was never finished, and its line does not say so. -/
theorem open_constructor_unmarked : ∃ o c, (strictParser.parse constructorSource).1 = .ok o ∧
    .method c ∈ o.unit.declares ∧ c.isOpen = true ∧ ¬ IsMarkedIncomplete c.headline := by
  obtain ⟨o, c, hok, _, hmem, hopen, hshown⟩ := parse_constructorSource
  refine ⟨o, c, hok, hmem, hopen, fun hmarked => ?_⟩
  rw [c.isMarkedIncomplete_headline, hshown] at hmarked
  cases hmarked

/-- The line of the constructor is in the listing of its unit. -/
theorem open_constructor_listed : ∃ o c, (strictParser.parse constructorSource).1 = .ok o ∧
    o.isAbandoned = true ∧ c.isOpen = true ∧
      (∃ depth, listingLine depth (MethodDecl.headline c) ∈ o.unit.lines) ∧
        ¬ (IsMarkedIncomplete c.headline ↔ c.isOpen = true) := by
  obtain ⟨o, c, hok, habandoned, hmem, hopen, _⟩ := parse_constructorSource
  obtain ⟨hline, hmarked⟩ := (open_types_marked hok).1 _ hmem _ rfl
  refine ⟨o, c, hok, habandoned, hopen, hline, fun hiff => ?_⟩
  obtain ⟨_, _, htype⟩ := hmarked.mp (hiff.mpr hopen)
  cases htype

end AspectLang
