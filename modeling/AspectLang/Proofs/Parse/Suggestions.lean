import AspectLang.Proofs.Parse.SeatedRuns
import AspectLang.Proofs.Parse.TracedRuns

/-! # Tokens that a report suggests

A token that fits nowhere is reported with the first few terminals before which the state on top
has an action (`Machine.suggestions`).  Everything that the automaton takes from the stack is among
these terminals (`Automaton.mem_expected_of_takes`), and a suggestion that is shifted or accepted at
once is taken.  But a state that ends a production has its lookaheads from every way that leads to
it: one that the state reduces before belongs to some canonical set with the same items, which need
not be the one of the stack (`suggestions_of_reports`).  So in `import a package` the eight words
that are suggested are those that may follow the name of an annotation, and none can follow the
name of an import (`suggestion_misleads`). -/

namespace AspectLang

/-! ### Kinds that are taken -/

namespace Automaton

/-- The automaton shifts the kind or accepts, be it after reductions. -/
def Takes (a : Automaton) (states : List Nat) (kind : TokenKind) : Prop :=
  ∃ gas, a.feedWithin kind gas states ≠ .rejected

section

variable {a : Automaton} {states below : List Nat} {kind : TokenKind} {gas top : Nat}

theorem takes_of_shift {target : Nat} (h : a.tables.action top kind = .shift target) :
    a.Takes (top :: below) kind := ⟨1, by rw [feedWithin_of_shift h]; exact nofun⟩

theorem takes_of_accept (h : a.tables.action top kind = .accept) :
    a.Takes (top :: below) kind := ⟨1, by rw [feedWithin_of_accept h]; exact nofun⟩

theorem action_of_takes (h : a.Takes (top :: below) kind) : a.tables.action top kind ≠ .error := by
  obtain ⟨gas, hfed⟩ := h
  intro herror
  cases gas with
  | zero => exact hfed rfl
  | succ gas => exact hfed (feedWithin_of_error herror)

/-- More turns come to the same. -/
theorem feedWithin_of_le {gas' : Nat} (hle : gas ≤ gas')
    (h : a.feedWithin kind gas states ≠ .rejected) :
    a.feedWithin kind gas' states = a.feedWithin kind gas states := by
  induction gas generalizing gas' states with
  | zero => exact absurd rfl h
  | succ gas ih =>
      obtain ⟨gas', rfl⟩ : ∃ n, gas' = n + 1 := ⟨gas' - 1, by omega⟩
      cases states with
      | nil => exact absurd rfl h
      | cons top below =>
          cases haction : a.tables.action top kind with
          | shift target => rw [feedWithin_of_shift haction, feedWithin_of_shift haction]
          | accept => rw [feedWithin_of_accept haction, feedWithin_of_accept haction]
          | error => exact absurd (feedWithin_of_error haction) h
          | reduce production =>
              cases hreduce : a.reduce? (top :: below) production with
              | none =>
                  rw [feedWithin, haction] at h
                  dsimp only at h
                  rw [hreduce] at h
                  exact absurd rfl h
              | some states =>
                  rw [feedWithin_of_reduce haction hreduce] at h ⊢
                  rw [feedWithin_of_reduce haction hreduce]
                  exact ih (by omega) h

theorem not_takes {turns : Nat} (h : ∀ gas, turns ≤ gas → a.feedWithin kind gas states = .rejected) :
    ¬ a.Takes states kind := by
  rintro ⟨gas, hfed⟩
  have hmore := feedWithin_of_le (Nat.le_max_left gas turns) hfed
  exact hfed (hmore.symm.trans (h _ (Nat.le_max_right gas turns)))

end

end Automaton

namespace Language

open Grammar GrammarIndex

section

variable {top : Nat} {kind : TokenKind}

/-- A state that acts before a terminal is one of the automaton, and the terminal has a column. -/
theorem exists_kernel_of_action (h : tables.action top kind ≠ .error) :
    ∃ kernel, grammar.itemGraph.kernels[top]? = some kernel ∧ kind ∈ TokenKind.all := by
  cases hk : grammar.itemGraph.kernels[top]? with
  | none => exact absurd (action_of_no_kernel hk) h
  | some kernel =>
      obtain ⟨hcolumn, _⟩ := action_cases wellFormed_grammar startIsolated_grammar hk h
      exact ⟨kernel, rfl, mem_all_of_column_lt hcolumn⟩

theorem mem_expected_iff : kind ∈ tables.expected top ↔ tables.action top kind ≠ .error := by
  unfold Tables.expected
  rw [List.mem_filter, bne_iff_ne]
  exact ⟨And.right, fun h => ⟨(exists_kernel_of_action h).choose_spec.2, h⟩⟩

theorem expected_pairwise (top : Nat) :
    (tables.expected top).Pairwise fun a b => a.column < b.column := by
  have hall : TokenKind.all.Pairwise fun a b => a.column < b.column := by decide
  exact hall.filter _

theorem firstLanes_ne_zero :
    ∀ id ∈ List.range Nonterminal.all.length, Nat.beq (firstLanes.lane id) 0 = false := by
  decide +kernel

/-- Every nonterminal of the language vanishes or begins with a terminal. -/
theorem allBegin_grammar : grammar.AllBegin := by
  intro id hid
  have hlt : id < Nonterminal.all.length := by simpa [grammar] using hid
  have hne : firstLanes.lane id ≠ 0 :=
    Nat.ne_of_beq_eq_false (firstLanes_ne_zero id (List.mem_range.mpr hlt))
  obtain ⟨c, hbit⟩ := Nat.exists_testBit_of_ne_zero hne
  have hwidth : c < Lanes.width := by
    rw [Lanes.testBit_lane, Bool.and_eq_true, decide_eq_true_eq] at hbit
    exact hbit.1
  rcases Nat.lt_or_eq_of_le (Nat.le_of_lt_succ hwidth) with hcolumn | rfl
  · obtain ⟨k, rfl⟩ := TokenKind.exists_column hcolumn
    exact .inr ⟨k, derives_firstLanes.begins id k hcolumn hbit⟩
  · exact .inl (derives_firstLanes.vanishes id hbit)

/-- The state on top reduces before the kind, and on some way to a state with its items the kind may
follow. -/
def MayFollow (states : List Nat) (kind : TokenKind) : Prop :=
  ∃ top kernel production, states.head? = some top ∧
    grammar.itemGraph.kernels[top]? = some kernel ∧
      tables.action top kind = .reduce production ∧
        grammar.CanonicallyCompletes kernel production kind

theorem takes_or_mayFollow {below : List Nat} (h : tables.action top kind ≠ .error) :
    automaton.Takes (top :: below) kind ∨ MayFollow (top :: below) kind := by
  obtain ⟨kernel, hk, _⟩ := exists_kernel_of_action h
  cases haction : tables.action top kind with
  | error => exact absurd haction h
  | shift target => exact .inl (Automaton.takes_of_shift (a := automaton) haction)
  | accept => exact .inl (Automaton.takes_of_accept (a := automaton) haction)
  | reduce production =>
      obtain ⟨_, follow, hitem, hhas⟩ :=
        completed_of_reduce wellFormed_grammar hk startIsolated_grammar haction
      obtain ⟨I, kernel', hI, hk', hcore, hmem⟩ :=
        (followBound_canonicalAt wellFormed_grammar allBegin_grammar kind).of_mem_stateItems
          wellFormed_grammar hk hitem hhas
      obtain rfl := Option.some.inj (hk.symm.trans hk')
      exact .inr ⟨top, kernel, production, rfl, hk, haction, I, hI, hcore, hmem⟩

end

end Language

/-! ### What is reported -/

namespace Machine

open Reporter (Adds)

/-- The tokens that a report on the next token suggests. -/
def suggestions (m : Machine) : List TokenKind :=
  match m.states with
  | [] => []
  | top :: _ => (Language.tables.expected top).take expectedShown

theorem reportUnexpected_eq (t : Token) (m : Machine) : m.reportUnexpected t =
    m.report .parsingError t.span (t.shownText :: m.suggestions.map TokenKind.grammarName) := by
  unfold reportUnexpected suggestions
  cases m.states <;> rfl

/-- A running machine that has no action for its next token. -/
structure Stuck (p : ParserSetup) (start m : Machine) (t : Token) : Prop where
  reached : ∃ n, course p start n = .ok .running m
  next : m.rest.head? = some t
  noAction : ∀ top, m.states.head? = some top → Language.tables.action top t.kind = .error

/-- The diagnostic reports the next token of a machine, and suggests others. -/
def Reports (m : Machine) (t : Token) (d : Diagnostic) : Prop :=
  d = .of .parsingError t.span (t.shownText :: m.suggestions.map TokenKind.grammarName)

section

variable {p : ParserSetup} {start m : Machine} {t : Token}

/-- Looking for a repair reports no token but the next one. -/
theorem adds_recover (p : ParserSetup) (t : Token) (m : Machine) :
    Adds (fun d => d.id = .parsingError → m.Reports t d) m.work.reporter
      (recover p t m).2.work.reporter := by
  have hgiven : ∀ (span : Span) (arguments : List String),
      (Diagnostic.of .unitAbandoned span arguments).id = .parsingError →
        m.Reports t (.of .unitAbandoned span arguments) := nofun
  have hreport : ∀ m' : Machine, m'.states = m.states → m'.work = m.work →
      Adds (fun d => d.id = .parsingError → m.Reports t d) m.work.reporter
        (m'.reportUnexpected t).work.reporter := by
    intro m' hstates hwork
    have hsame : m'.suggestions = m.suggestions := by
      unfold suggestions
      rw [hstates]
    rw [reportUnexpected_eq, hsame]
    change Adds _ _ (m'.work.reporter.error _ _ _)
    rw [hwork]
    exact .one fun _ => rfl
  unfold recover
  split
  · exact .refl
  · split
    · exact .one (hgiven _ _)
    · split
      · exact .error (hreport m rfl rfl) (hgiven _ _)
      · dsimp only
        split
        · exact .one nofun
        · exact .one nofun
        · unfold passOver
          dsimp only
          split
          · exact .error (hreport _ rfl rfl) (hgiven _ _)
          · split
            · exact .error (hreport _ rfl rfl) (hgiven _ _)
            · exact hreport _ rfl rfl

theorem exists_next_of_seeksRepair (h : m.seeksRepair = true) : ∃ t rest, m.rest = t :: rest ∧
    ∀ top, m.states.head? = some top → Language.tables.action top t.kind = .error := by
  unfold seeksRepair at h
  split at h
  · rename_i state below t rest hstates hrest
    refine ⟨t, rest, hrest, fun top htop => ?_⟩
    rw [hstates, List.head?_cons, Option.some.injEq] at htop
    exact htop ▸ of_decide_eq_true (Bool.and_eq_true_iff.mp h).1
  · cases h

/-- The steps of a run report a token that fits nowhere only where the machine is stuck. -/
theorem adds_course (p : ParserSetup) (start : Machine) (n : Nat) :
    Adds (fun d => d.id = .parsingError → ∃ m t, Stuck p start m t ∧ m.Reports t d)
      start.work.reporter (left (course p start n)).work.reporter := by
  induction n with
  | zero => exact .refl
  | succ n ih =>
      by_cases hrunning : ∃ m, course p start n = .ok .running m
      · obtain ⟨m, hm⟩ := hrunning
        rw [hm] at ih
        rw [course_succ_of_running hm]
        refine ih.trans ?_
        cases hseeks : m.seeksRepair with
        | false =>
            exact (quiet_step p hseeks).left.adds.mono
              fun d hd hid => absurd hid (OfAction.id_ne hd).2
        | true =>
            obtain ⟨t, rest, hrest, haction⟩ := exists_next_of_seeksRepair hseeks
            rw [step_of_seeksRepair hseeks hrest]
            refine (adds_recover p t m).mono fun d hd hid => ⟨m, t, ⟨⟨n, hm⟩, ?_, haction⟩, hd hid⟩
            rw [hrest, List.head?_cons]
      · have hstopped := fun m hm => hrunning ⟨m, hm⟩
        rw [course_succ, goOn_of_stopped hstopped]
        exact ih

end

end Machine

/-- Every report of a token that fits nowhere comes from a step at which the machine is stuck. -/
theorem Parser.exists_stuck {p : Parser} {stream : TokenStream} {o : ParseOutcome}
    (h : (p.parseStream stream).1 = .ok o) {d : Diagnostic} (hd : d ∈ o.diagnostics)
    (hid : d.id = .parsingError) :
    ∃ m t, Machine.Stuck p.setup (p.start stream) m t ∧ m.Reports t d := by
  cases hrun : Machine.run p.setup stepLimit stepLimit (p.start stream) with
  | error e m => rw [parseStream_of_error hrun] at h; cases h
  | ok progress m =>
      cases hfinish : finish p.setup.dialect stream.endOffset progress m with
      | error e m' => rw [parseStream_of_finish_error hrun hfinish] at h; cases h
      | ok o' m' =>
          rw [parseStream_of_finish_ok hrun hfinish] at h
          obtain rfl := Except.ok.inj h
          obtain ⟨⟨r, hdiagnostics, hfinished⟩, _⟩ := adds_finish hfinish
          have hcourse := Machine.adds_course p.setup (p.start stream) stepLimit
          rw [Machine.course_of_run hrun] at hcourse
          have hadds := hcourse.trans (hfinished.mono
            fun d hd hid => absurd hid (Machine.OfAction.id_ne hd).2)
          rw [hdiagnostics] at hd
          refine (hadds.mem hd).elim (fun hstart => ?_) fun hnew => hnew hid
          have hnone : (p.start stream).work.reporter.count .parsingError = 0 :=
            count_reportLexical (by decide) ..
          have hcount := List.countP_eq_zero.mp hnone d hstart
          rw [hid] at hcount
          exact absurd rfl hcount

/-- **What a report suggests is taken, or may follow on another way to the same state.**  Every
token that a parser reports as fitting nowhere is the next one of a machine that has no action for
it, and what the report suggests are the first few terminals before which the state on top has one.
Each of them is taken from the stack, or the state reduces before it because it may follow on some
way to a state with the same items.  Of all that is taken nothing is left out but for the limit. -/
theorem suggestions_of_reports (p : Parser) (source : String) :
    match (p.parse source).1 with
    | .ok o => ∀ d ∈ o.diagnostics, d.id = .parsingError →
        ∃ m t, Machine.Stuck p.setup (p.start (Scanner.stream source)) m t ∧
          d.span = t.span ∧
          d.arguments = t.shownText :: m.suggestions.map TokenKind.grammarName ∧
          (∀ kind ∈ m.suggestions, Language.automaton.Takes m.states kind ∨
            Language.MayFollow m.states kind) ∧
          ∀ kind, Language.automaton.Takes m.states kind → kind ∈ m.suggestions ∨
            m.suggestions.length = Machine.expectedShown ∧
              ∀ other ∈ m.suggestions, other.column < kind.column
    | .error _ => True := by
  cases hparse : (p.parse source).1 with
  | error e => trivial
  | ok o =>
      intro d hd hid
      obtain ⟨m, t, hstuck, hreports⟩ := Parser.exists_stuck hparse hd hid
      refine ⟨m, t, hstuck, congrArg Diagnostic.span hreports,
        congrArg Diagnostic.arguments hreports, fun kind hkind => ?_, fun kind htakes => ?_⟩
      · unfold Machine.suggestions at hkind
        cases hstates : m.states with
        | nil => rw [hstates] at hkind; cases hkind
        | cons top below =>
            rw [hstates] at hkind
            exact Language.takes_or_mayFollow
              (Language.mem_expected_iff.mp (List.mem_of_mem_take hkind))
      · cases hstates : m.states with
        | nil =>
            rw [hstates] at htakes
            obtain ⟨gas, hfed⟩ := htakes
            cases gas <;> exact absurd rfl hfed
        | cons top below =>
            rw [hstates] at htakes
            have haction : Language.tables.action top kind ≠ .error :=
              Automaton.action_of_takes (a := Language.automaton) htakes
            have hmem := Language.mem_expected_iff.mpr haction
            have hpairwise := Language.expected_pairwise top
            have hsuggestions : m.suggestions =
                (Language.tables.expected top).take Machine.expectedShown := by
              unfold Machine.suggestions
              rw [hstates]
            rw [hsuggestions]
            generalize Language.tables.expected top = expected at hmem hpairwise
            rw [← List.take_append_drop Machine.expectedShown expected] at hmem hpairwise
            refine (List.mem_append.mp hmem).imp_right fun hdrop => ⟨?_, fun other hother => ?_⟩
            · have hlt : 0 < (expected.drop Machine.expectedShown).length :=
                List.length_pos_of_mem hdrop
              rw [List.length_drop] at hlt
              rw [List.length_take]
              omega
            · exact (List.pairwise_append.mp hpairwise).2.2 other hother kind hdrop

/-! ### Behind the name of an import -/

/-- An import before a word that cannot follow its name. -/
def misledSource : String := "import a package"

theorem stream_misledSource : (Scanner.stream misledSource).tokens =
      [⟨.kwImport, ⟨0, 5⟩, "import"⟩, ⟨.identifier, ⟨7, 7⟩, "a"⟩, ⟨.kwPackage, ⟨9, 15⟩, "package"⟩] ∧
    (Scanner.stream misledSource).errors = [] ∧
      (Scanner.stream misledSource).endOffset = 16 := by
  unfold Scanner.stream Scanner.scan
  rw [Scanner.scanFrom_eq_within (n := 16) (by decide)]
  decide +kernel

namespace Outlook

/-- Whether a kind is known to be rejected. -/
def rejects (o : Outlook) (k : TokenKind) (views : List View) : Bool :=
  match o.feed? k feedTurns views with
  | some .rejected => true
  | _ => false

end Outlook

namespace Language

open Grammar Outlook

section

variable {views : List View} {states : List Nat} {k : TokenKind}

theorem not_takes_of_rejects (hkind : k ∈ TokenKind.all) (hshow : Show grammar views states)
    (h : outlook.rejects k views = true) : ¬ automaton.Takes states k := by
  unfold Outlook.rejects at h
  split at h
  · rename_i hfed
    refine Automaton.not_takes fun gas (hgas : feedTurns ≤ gas) => ?_
    exact feedWithin_of_feed? fits_outlook wellFormed_grammar startIsolated_grammar hkind hgas hshow hfed
  · cases h

end

/-- The rule of a package that is not there. -/
def noPackageRule : Rule := ⟨.packageDeclarationOpt, [], .emptyNodes⟩

/-- What views tell of an import and its name, and of the name of an annotation: the states are the
same, and an annotation goes on with a modifier. -/
def misleads : Bool :=
  match startView? with
  | none => false
  | some start =>
    match outlook.turn? .kwImport [start], outlook.feed? .atSign feedTurns [start] with
    | some (.reduced number true unit), some (.shifted annotation) =>
      match outlook.turn? .kwImport unit, outlook.feed? .identifier feedTurns annotation with
      | some (.shifted behind), some (.shifted (other :: _)) =>
        match outlook.turn? .identifier behind, outlook.move? other .kwAbstract with
        | some (.shifted (top :: below)), some (.reduce _ _ _ true) =>
          match outlook.turn? .kwPackage (top :: below) with
          | some .rejected =>
            number == numberOf noPackageRule &&
              top.kernel.map Prospect.item == other.kernel.map Prospect.item &&
              outlook.rejects .kwAbstract (top :: below) &&
              outlook.mendsNot .kwPackage .eof (top :: below)
          | _ => false
        | _, _ => false
      | _, _ => false
    | _, _ => false

theorem misleads_settles : misleads = true := by
  decide +kernel

/-- **The name of an import leads to a state that goes on before a modifier, and a modifier is
rejected there.**  There is no repair before a word for a package either. -/
theorem exists_misled_stack : ∃ unit behind name : Nat,
    tables.action 0 .kwImport = .reduce (numberOf noPackageRule) ∧
    tables.goto? 0 Nonterminal.packageDeclarationOpt.index = some unit ∧
    tables.action unit .kwImport = .shift behind ∧
    tables.action behind .identifier = .shift name ∧
    tables.action name .kwPackage = .error ∧ tables.action name .kwAbstract ≠ .error ∧
    ¬ automaton.Takes [name, behind, unit, 0] .kwAbstract ∧
    automaton.repair? 4 [name, behind, unit, 0] [.kwPackage, .eof] = none := by
  have hsettles := misleads_settles
  unfold misleads at hsettles
  split at hsettles
  · cases hsettles
  · rename_i start hstart
    split at hsettles
    · rename_i number unitViews annotation hnoPackage hat
      split at hsettles
      · rename_i behindViews other otherBelow himport hword
        split at hsettles
        · rename_i top below _ _ _ hname hmove
          split at hsettles
          · rename_i hpackage
            rw [Bool.and_eq_true, Bool.and_eq_true, Bool.and_eq_true] at hsettles
            obtain ⟨⟨⟨hnumber, hitems⟩, hrejects⟩, hmends⟩ := hsettles
            have hturns : ∀ {k : TokenKind} {views : List View} {states : List Nat}
                {turned : Turned}, k ∈ TokenKind.all → Show grammar views states →
                  outlook.turn? k views = some turned → turned.Holds grammar states k :=
              fun hkind => holds_turn? fits_outlook wellFormed_grammar startIsolated_grammar hkind
            have hfeeds : ∀ {k : TokenKind} {views : List View} {states : List Nat} {fed : Fed},
                k ∈ TokenKind.all → Show grammar views states →
                  outlook.feed? k feedTurns views = some fed →
                    fed.Holds grammar (automaton.feed states k) :=
              fun hkind => feed_of_feed? fits_outlook wellFormed_grammar startIsolated_grammar hkind
            -- the way of the import
            obtain ⟨_, _, production, _, _, unit, hzero, hreduce, hp, hdrop, hgoto, hunit⟩ :=
              hturns (by decide) (show_start hstart) hnoPackage
            obtain ⟨rfl, rfl⟩ := List.cons.inj hzero
            obtain rfl : number = numberOf noPackageRule := eq_of_beq hnumber
            obtain rfl : production = noPackageRule.production := by
              rw [productions_of_rule (ruleArray_numberOf (by decide))] at hp
              exact (Option.some.inj hp).symm
            obtain ⟨rfl, rfl⟩ := List.cons.inj hdrop
            obtain ⟨_, _, behind, hunit', hshift, hbehind⟩ := hturns (by decide) hunit himport
            obtain ⟨rfl, rfl⟩ := List.cons.inj hunit'
            obtain ⟨_, _, name, hbehind', hshiftName, hshow⟩ := hturns (by decide) hbehind hname
            obtain ⟨rfl, rfl⟩ := List.cons.inj hbehind'
            obtain ⟨_, _, hname', herror⟩ := hturns (by decide) hshow hpackage
            obtain ⟨rfl, rfl⟩ := List.cons.inj hname'
            -- the way of an annotation
            obtain ⟨_, _, hannotation⟩ := hfeeds (by decide) (show_start hstart) hat
            obtain ⟨_, _, hother⟩ := hfeeds (by decide) hannotation hword
            cases hother with
            | cons hotherTop _ =>
              cases hshow with
              | cons htop hbelow =>
                obtain rfl := htop.eq_of_items wellFormed_grammar hotherTop (eq_of_beq hitems)
                obtain ⟨_, hof⟩ := hotherTop
                have hmoves := hof.holds_move? fits_outlook wellFormed_grammar
                  startIsolated_grammar (by decide) hmove
                have hacts := hmoves.1.resolve_right (by simp)
                have hreduces := hreduce.resolve_right (by simp)
                refine ⟨unit, behind, _, hreduces, hgoto, hshift, hshiftName, herror,
                  hacts.trans_ne (by simp), ?_, ?_⟩
                · exact not_takes_of_rejects (by decide) (.cons htop hbelow) hrejects
                · exact repair?_eq_none (by decide) (by decide) (by decide) (.cons htop hbelow)
                    hmends 4 []
          · cases hsettles
        · cases hsettles
      · cases hsettles
    · cases hsettles

end Language

/-- A parser with the usual settings. -/
def plainParser : Parser := .new {} .disabled

section

open AspectLang.Language Machine

theorem Machine.course_of_walks {s : ParserSetup} {n : Nat} {m m' : Machine} (h : Walks s n m m') :
    course s m n = .ok .running m' := by
  induction h with
  | zero => rfl
  | succ hstep _ ih =>
      unfold course
      rw [Function.iterate_succ_apply]
      change (goOn s)^[_] (step s _) = _
      rw [hstep]
      exact ih

/-- The first of all terminals is suggested where the state on top has an action for it. -/
theorem Machine.kwAbstract_mem_suggestions {m : Machine} {top : Nat} {below : List Nat}
    (hstates : m.states = top :: below) (h : tables.action top .kwAbstract ≠ .error) :
    TokenKind.kwAbstract ∈ m.suggestions := by
  have hall : TokenKind.all = .kwAbstract :: TokenKind.all.tail := by decide
  have hbne : (tables.action top .kwAbstract != .error) = true := bne_iff_ne.mpr h
  have hshown : expectedShown = 7 + 1 := rfl
  have hsuggestions : m.suggestions = (tables.expected top).take expectedShown := by
    unfold suggestions
    rw [hstates]
  -- `take` is unfolded by a lemma, since the filter before it must not be evaluated
  rw [hsuggestions, hshown]
  unfold Tables.expected
  rw [hall, List.filter_cons, if_pos hbne, List.take_succ_cons]
  exact List.mem_cons_self

theorem reporter_start_misledSource :
    (plainParser.start (Scanner.stream misledSource)).work.reporter = .new 100 := by
  change Parser.reportLexical (Scanner.stream misledSource) plainParser.reset.reporter = _
  unfold Parser.reportLexical
  rw [stream_misledSource.2.1]
  rfl

/-- The parser comes to the misleading stack with the word for a package left. -/
theorem known_misledSource : ∃ m unit behind name,
    Known plainParser.setup (plainParser.start (Scanner.stream misledSource)) 3
      [name, behind, unit, 0] (({} : SegmentStack Node).pushLength 0)
      (SegmentStack.push ⟨"a", ⟨7, 7⟩⟩ {}) [⟨.kwPackage, ⟨9, 15⟩, "package"⟩, .eof 16] m ∧
    tables.action name .kwPackage = .error ∧ tables.action name .kwAbstract ≠ .error ∧
    ¬ automaton.Takes [name, behind, unit, 0] .kwAbstract ∧
    automaton.repair? 4 [name, behind, unit, 0] [.kwPackage, .eof] = none := by
  obtain ⟨htokens, _, hend⟩ := stream_misledSource
  obtain ⟨unit, behind, name, hnoPackage, hgoto, himport, hname, herror, hacts, hnot, hrepair⟩ :=
    exists_misled_stack
  have hstart : Known plainParser.setup (plainParser.start (Scanner.stream misledSource)) 0 [0] {} {}
      [⟨.kwImport, ⟨0, 5⟩, "import"⟩, ⟨.identifier, ⟨7, 7⟩, "a"⟩,
        ⟨.kwPackage, ⟨9, 15⟩, "package"⟩, .eof 16]
      (plainParser.start (Scanner.stream misledSource)) := by
    refine ⟨.zero, rfl, rfl, rfl, ?_, rfl, rfl⟩
    change (Scanner.stream misledSource).tokens ++
      [Token.eof (Scanner.stream misledSource).endOffset] = _
    rw [htokens, hend]
    rfl
  obtain ⟨m, _, hreduced⟩ := hstart.reduce (r := noPackageRule)
    (fun _ => ({} : SegmentStack Node).pushLength 0) {} hnoPackage
    (ruleArray_numberOf (by decide)) rfl hgoto
    fun c w hnodes hwords => ⟨_, rfl, by rw [← hnodes], hwords, rfl⟩
  have hword := (hreduced.shift himport).shift hname
  exact ⟨_, unit, behind, name, hword, herror, hacts, hnot, hrepair⟩

/-- **A report that suggests what cannot follow.**  Behind the name of an import the parser reports
a word for a package, and suggests a modifier; but a modifier is rejected there. -/
theorem suggestion_misleads : ∃ n m m' d,
    course plainParser.setup (plainParser.start (Scanner.stream misledSource)) n = .ok .running m ∧
    step plainParser.setup m = .ok .running m' ∧
    m.work.reporter.diagnostics = #[] ∧ m'.work.reporter.diagnostics = #[d] ∧
    d.id = .parsingError ∧ TokenKind.kwAbstract.grammarName ∈ d.arguments.tail ∧
    ¬ automaton.Takes m.states .kwAbstract := by
  obtain ⟨m, unit, behind, name, hknown, herror, hacts, hnot, hrepair⟩ := known_misledSource
  have hreporter := hknown.reporter.trans reporter_start_misledSource
  have hsuggests := kwAbstract_mem_suggestions hknown.states hacts
  -- the token is passed over for want of a repair
  have hrecover : recover plainParser.setup ⟨.kwPackage, ⟨9, 15⟩, "package"⟩ m =
      passOver 8 ⟨.kwPackage, ⟨9, 15⟩, "package"⟩ { m with recovery.phase := .recovering } := by
    have hmay : m.mayRepair plainParser.setup = true := by
      unfold mayRepair
      rw [hknown.recovery, hreporter]
      rfl
    refine recover_of_no_repair hmay ?_
    rw [hknown.states, hknown.rest]
    exact hrepair
  have hstep := step_of_seeksRepair (p := plainParser.setup)
    (seeksRepair_of_error hknown.states hknown.rest herror rfl) hknown.rest
  rw [hrecover] at hstep
  unfold passOver at hstep
  rw [reportUnexpected_eq] at hstep
  dsimp only at hstep
  rw [if_neg (by decide), if_neg ?_] at hstep
  refine ⟨3, m, _, .of .parsingError ⟨9, 15⟩ ("package" :: m.suggestions.map TokenKind.grammarName),
    course_of_walks hknown.walks, hstep, ?_, ?_, rfl, ?_, ?_⟩
  · rw [hreporter]
    rfl
  · change (m.work.reporter.error _ _ _).diagnostics = _
    rw [hreporter]
    rfl
  · exact List.mem_map_of_mem hsuggests
  · rw [hknown.states]
    exact hnot
  · change ¬ 8 ≤ m.recovery.failures + 1
    rw [hknown.recovery]
    decide

end

end AspectLang
