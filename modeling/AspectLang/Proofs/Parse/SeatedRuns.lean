import AspectLang.Proofs.Parse.RecoveryBudgets
import AspectLang.Proofs.Parse.Containment
import AspectLang.Proofs.Parse.StackSeats
import AspectLang.Proofs.Token.Scanning
import AspectLang.Proofs.Parse.ViewedMachines

/-! # Runs that keep values in their seats

A machine is `Seated` when the symbols on its stack stand one behind the other in the text, so far
apart as told, its values sit in the places of these symbols, and the tokens that are left stand
behind.  A shift seats the value of a token there, a reduction seats the value of its left side in
the place of the right side, and a split leaves the halves of a token in its place.  Tokens that a
repair inserts cover bytes of others, so a machine stays seated in a step that looks for a repair
only if symbols may touch each other (`Machine.seated_step`). -/

namespace AspectLang

namespace Machine

variable {g : Spacing} {p : ParserSetup} {m m' : Machine} {symbols : List Symbol} {offset : Nat}

/-- The values sit where the symbols stand that the states spell, and the tokens that are left stand
behind an offset. -/
structure SeatedAt (g : Spacing) (m : Machine) (symbols : List Symbol) (offset : Nat) : Prop where
  spells : Language.grammar.Spells m.states symbols
  length : m.spans.length = m.states.length
  filled : Filled symbols m.spans
  spaced : Spaced g offset m.spans
  sits : m.work.Sits g (stackSeats symbols m.spans)
  previous : ∀ t ∈ m.previous, t.span.stop + g.gap = offset
  apart : Token.Apart g.gap g.limit offset m.rest

/-- The values of a machine sit where they should. -/
def Seated (g : Spacing) (m : Machine) : Prop := ∃ symbols offset, m.SeatedAt g symbols offset

/-! ### Shifting -/

/-- The value of a token sits where the token stands. -/
theorem sits_pushValue {t : Token} {w : Workspace} {seats : List Seat} (h : w.Sits g seats)
    (ht : t.span.start ≤ t.span.stop) :
    Workspace.Sits g { w with values := pushValue t w.values }
      (t.kind.profile.kinds.map (⟨·, some t.span⟩) ++ seats) := by
  have hself := Place.holds_self ht
  unfold pushValue TokenKind.profile
  split
  · exact ⟨h.nodes, h.exprs, h.words.push (.singleton hself), h.unit, h.reporter⟩
  · cases t.kind.literalKind? with
    | none =>
        rw [if_neg (by simp)]
        exact h
    | some kind =>
        rw [if_pos Option.isSome_some]
        refine ⟨h.nodes, h.exprs.push (.singleton ⟨hself, ?_⟩), h.words, h.unit, h.reporter⟩
        exact .intro nofun nofun (fun _ => .nil) nofun

theorem seated_afterShift {state target : Nat} {below : List Nat} {t : Token} {rest : List Token}
    (h : m.Seated g) (hstates : m.states = state :: below) (hrest : m.rest = t :: rest)
    (haction : Language.tables.action state t.kind = .shift target) :
    (m.afterShift p t rest target).Seated g := by
  obtain ⟨symbols, offset, hspells, hlength, hfilled, hspaced, hsits, _, hapart⟩ := h
  rw [hstates] at hspells
  have hshift := hspells.shift Language.wellFormed_grammar Language.startIsolated_grammar haction
  rw [← hstates] at hshift
  rw [hrest] at hapart
  have hturn := hapart.start_le_stop
  obtain ⟨hstart, _, hlimit, hbehind⟩ := hapart
  refine ⟨.terminal t.kind :: symbols, t.span.stop + g.gap, hshift, congrArg (· + 1) hlength,
    hfilled.shift _ _, hspaced.shift hstart ⟨hturn, hlimit⟩, ?_, ?_, hbehind⟩
  · exact (stackSeats_cons (.t t.kind) symbols (some t.span) m.spans).symm ▸
      sits_pushValue hsits hturn
  · intro u hu
    cases hu
    rfl

/-! ### Reducing -/

/-- A reduction seats the value of the left side in the place of the right side. -/
theorem seated_reduce {dialect : Dialect} {lookahead : Span} {state production : Nat}
    {below : List Nat} {kind : TokenKind} (h : m.Seated g) (hstates : m.states = state :: below)
    (haction : Language.tables.action state kind = .reduce production)
    (hlookahead : lookahead.EndsBy g.limit)
    (hreduce : reduce dialect production lookahead m = .ok () m') : m'.Seated g := by
  obtain ⟨symbols, offset, hspells, hlength, hfilled, hspaced, hsits, hprevious, hapart⟩ := h
  have hsymbols := hspells.length_eq
  obtain ⟨rule, origin, rest, before, target, hrule, hdrop, rfl, hgoto, _, hafter⟩ :=
    exists_rule hspells hstates haction
  have harity : rule.rhs.length ≤ m.spans.length := by
    rw [List.length_append, List.length_reverse, List.length_map] at hsymbols
    omega
  have hready : (m.popped rule.rhs.length production).work.AtReduction g rule before m.spans
      lookahead :=
    ⟨Language.mem_rules hrule, harity, hfilled, hspaced.tidy rule.rhs.length hlookahead,
      hsits.of_values rfl rfl rfl rfl hsits.reporter⟩
  rw [reduce_eq hrule hdrop hgoto] at hreduce
  split at hreduce
  · cases hreduce
  · rename_i u w hact
    cases hreduce
    refine ⟨_, offset, hafter, ?_, hfilled.reduced hready.isRule harity lookahead,
      hspaced.reduced rule.rhs.length lookahead, hready.yields_act dialect u w hact, hprevious,
      hapart⟩
    have hdropped := congrArg List.length hdrop
    simp only [List.length_cons, List.length_drop] at hdropped ⊢
    omega

/-! ### Repairing -/

/-- What looking for a repair reports lies in the text, if the token and the place in front of it
do. -/
theorem endsBy_recover {limit : Nat} {t : Token} (h : m.work.reporter.EndsBy limit)
    (ht : t.span.EndsBy limit) (hplace : (Span.point (m.insertionPlace t)).EndsBy limit) :
    (recover p t m).2.work.reporter.EndsBy limit := by
  unfold recover
  split
  · exact h
  · split
    · exact h.report ht
    · split
      · exact (h.report ht).report ht
      · dsimp only
        split
        · unfold insert
          refine h.report ?_
          unfold insertionPlace at hplace
          cases hprevious : m.previous with
          | none =>
              rw [hprevious] at hplace
              exact hplace
          | some previous =>
              rw [hprevious] at hplace
              exact hplace
        · exact h.report ht
        · unfold passOver
          dsimp only
          split
          · exact (h.report ht).report ht
          · split
            · exact (h.report ht).report ht
            · exact h.report ht

/-- Where symbols may touch each other, a repair keeps the values in their seats. -/
theorem seated_recover {t : Token} {rest : List Token} (h : m.Seated g) (hgap : g.gap = 0)
    (hrest : m.rest = t :: rest) : (recover p t m).2.Seated g := by
  obtain ⟨symbols, offset, hspells, hlength, hfilled, hspaced, hsits, hprevious, hapart⟩ := h
  rw [hgap] at hapart
  have hprevious' : ∀ u ∈ m.previous, u.span.stop = offset := by
    intro u hu
    have hstop := hprevious u hu
    rwa [hgap] at hstop
  have ht : t.span.EndsBy g.limit ∧ offset ≤ t.span.start := by
    rw [hrest] at hapart
    exact ⟨⟨hapart.start_le_stop, hapart.2.2.1⟩, hapart.1⟩
  have hoffset : offset ≤ g.limit := Nat.le_trans ht.2 (Nat.le_trans ht.1.1 ht.1.2)
  have hplace : (Span.point (m.insertionPlace t)).EndsBy g.limit := by
    refine Span.endsBy_point ?_
    unfold insertionPlace
    cases hlast : m.previous with
    | none => exact Nat.le_trans ht.1.1 ht.1.2
    | some last => exact (hprevious' last hlast).trans_le hoffset
  have hkeeps := keeps_recover p t m
  have hleft : Token.Apart g.gap g.limit offset (recover p t m).2.rest := by
    rw [hgap]
    exact (queued_recover hrest hprevious' (hapart.queued hoffset)).apart
  refine ⟨symbols, offset, ?_⟩
  rw [← hkeeps.spans] at hlength hfilled hspaced hsits
  rw [← hkeeps.states] at hspells hlength
  rw [← (recover_cases p t m).1] at hprevious
  refine ⟨hspells, hlength, hfilled, hspaced, ?_, hprevious, hleft⟩
  exact hsits.of_values (congrArg _ hkeeps.values) (congrArg _ hkeeps.values)
    (congrArg _ hkeeps.values) hkeeps.unit (endsBy_recover hsits.reporter ht.1 hplace)

/-! ### Steps and runs -/

/-- **A step keeps the values in their seats**, if symbols may touch each other in a step that looks
for a repair. -/
theorem seated_step {progress : Progress} (h : m.Seated g) (hgap : g.gap ≤ 1)
    (hseeks : m.seeksRepair = true → g.gap = 0) (hstep : step p m = .ok progress m') :
    m'.Seated g := by
  obtain ⟨symbols, offset, hseated⟩ := id h
  obtain ⟨state, below, hstates⟩ := List.exists_cons_of_ne_nil hseated.spells.ne_nil
  have hapart := hseated.apart
  cases hrest : m.rest with
  | nil =>
      rw [step_of_no_tokens hstates hrest] at hstep
      cases hstep
  | cons t rest =>
      rw [hrest] at hapart
      have hsplits : ∀ first second, t.split = .halves first second →
          Seated g { m with rest := first :: second :: rest } := fun first second hsplit =>
        ⟨symbols, offset, { hseated with apart := hapart.halves hgap hsplit }⟩
      cases stepped_of_step hstates hrest hstep with
      | shift haction => exact seated_afterShift h hstates hrest haction
      | reduce haction hreduce =>
          exact seated_reduce h hstates haction ⟨hapart.start_le_stop, hapart.2.2.1⟩ hreduce
      | accept => exact h
      | split _ hsplit => exact hsplits _ _ hsplit
      | repair haction =>
          cases hquiet : m.seeksRepair with
          | true => exact seated_recover h (hseeks hquiet) hrest
          | false =>
              obtain ⟨first, second, hsplit, -, heq⟩ :=
                split_of_quiet hstates hrest haction hquiet hstep
              rw [heq]
              exact hsplits first second hsplit

/-- What some steps come to has its values in their seats, if symbols may touch each other wherever
one of these steps looks for a repair. -/
theorem seated_course {start : Machine} {n : Nat} {progress : Progress} (h : start.Seated g)
    (hgap : g.gap ≤ 1)
    (hseeks : ∀ k < n, ∀ m, course p start k = .ok .running m → m.seeksRepair = true → g.gap = 0)
    (hcourse : course p start n = .ok progress m) : m.Seated g := by
  induction n generalizing progress m with
  | zero =>
      cases hcourse
      exact h
  | succ n ih =>
      cases hlast : course p start n with
      | error e last =>
          rw [course_succ, hlast] at hcourse
          cases hcourse
      | ok before last =>
          have hseated := ih (fun k hk => hseeks k (Nat.lt_succ_of_lt hk)) hlast
          cases before with
          | running =>
              rw [course_succ_of_running hlast] at hcourse
              exact seated_step hseated hgap (hseeks n (Nat.lt_succ_self n) last hlast) hcourse
          | accepted | abandoned =>
              rw [course_succ, hlast] at hcourse
              cases hcourse
              exact hseated

/-- A run that succeeds comes to what its course comes to. -/
theorem course_of_run {start : Machine} {limit gas : Nat} {progress : Progress}
    (hrun : run p limit gas start = .ok progress m) : course p start gas = .ok progress m := by
  rw [run_eq_course] at hrun
  cases hcourse : course p start gas with
  | error e last =>
      rw [hcourse] at hrun
      cases hrun
  | ok before last =>
      rw [hcourse] at hrun
      cases before with
      | running => cases hrun
      | accepted | abandoned => exact hrun

/-- The reductions that only waited for a token keep the values in their seats. -/
theorem seated_settle {dialect : Dialect} {gas : Nat} (h : m.Seated g)
    (hbalanced : m.Balanced False) (hsettle : settle dialect g.limit gas m = .ok () m') :
    m'.Seated g :=
  settle_keeps (fun _ _ _ _ _ h _ hstates haction hreduce =>
    seated_reduce h hstates haction (Span.endsBy_point (Nat.le_refl _)) hreduce) h hbalanced hsettle

end Machine

/-! ### Units -/

namespace Scanner

variable {limit offset : Nat} {piece : Except LexicalError Token}
  {pieces : List (Except LexicalError Token)}

theorem Tiles.le_limit (h : Tiles limit offset pieces) : offset ≤ limit := by
  induction pieces generalizing offset with
  | nil => exact Nat.le_of_eq h
  | cons p pieces ih =>
      obtain ⟨_, hstop, hrest⟩ := h
      exact Nat.le_trans hstop (Nat.le_of_succ_le (ih hrest))

/-- Every piece of a text lies in the text. -/
theorem Tiles.endsBy (h : Tiles limit offset pieces) (hpiece : piece ∈ pieces) :
    (spanOf piece).EndsBy limit := by
  induction pieces generalizing offset with
  | nil => cases hpiece
  | cons p pieces ih =>
      obtain ⟨hstart, hstop, hrest⟩ := h
      rcases List.mem_cons.mp hpiece with rfl | hpiece
      · exact ⟨hstart ▸ hstop, Nat.le_of_succ_le hrest.le_limit⟩
      · exact ih hrest hpiece

/-- Lexical errors lie in the text. -/
theorem endsBy_errors {source : String} {e : LexicalError} (he : e ∈ (stream source).errors) :
    e.span.EndsBy (stream source).endOffset := by
  obtain ⟨piece, hpiece, herror⟩ := List.mem_filterMap.mp he
  have hscan : piece ∈ scan source := List.mem_of_mem_filter hpiece
  have htiles := tiles_scanFrom 0 source.toList
  rw [Nat.zero_add] at htiles
  cases piece with
  | ok t => cases herror
  | error e' =>
      cases herror
      exact htiles.endsBy hscan

end Scanner

/-- What was reported of a unit lies in the text, and so do the statements of a unit that was read to
its end, with ranges that nest. -/
structure ParseOutcome.Lies (g : Spacing) (o : ParseOutcome) : Prop where
  diagnostics : ∀ d ∈ o.diagnostics, d.span.EndsBy g.limit
  statements : o.isAbandoned = false → ∀ s ∈ o.unit.outermost, s.Lies g

namespace Parser

variable {g : Spacing} {m m' : Machine} {o : ParseOutcome}

theorem endsBy_reportLexical {limit : Nat} {stream : TokenStream} {r : Reporter}
    (h : r.EndsBy limit) (herrors : ∀ e ∈ stream.errors, e.span.EndsBy limit) :
    (reportLexical stream r).EndsBy limit := by
  unfold reportLexical
  generalize stream.errors = errors at herrors
  induction errors generalizing r with
  | nil => exact h
  | cons e errors ih =>
      exact ih (h.report (herrors e List.mem_cons_self))
        fun e' he' => herrors e' (List.mem_cons_of_mem e he')

/-- The spacing of the symbols that a text gives. -/
def spacing (gap : Nat) (source : String) : Spacing := ⟨gap, (Scanner.stream source).endOffset⟩

theorem seated_start (p : Parser) {gap : Nat} (hgap : gap ≤ 1) (source : String) :
    (p.start (Scanner.stream source)).Seated (spacing gap source) := by
  have hreporter : (reportLexical (Scanner.stream source) p.reset.reporter).EndsBy
      (Scanner.stream source).endOffset :=
    endsBy_reportLexical nofun fun _ => Scanner.endsBy_errors
  refine ⟨[], 0, .start, rfl, nofun, ⟨List.pairwise_singleton .., nofun, nofun⟩,
    ⟨.empty, .empty, .empty, nofun, hreporter⟩, nofun, ?_⟩
  exact (Scanner.apart_stream source).mono hgap (Nat.le_refl _)

theorem lies_of_finishAccepted {length : Nat} (h : m.Seated g)
    (hfinish : finishAccepted length m = .ok o m') : o.Lies g := by
  obtain ⟨symbols, offset, hseated⟩ := h
  unfold finishAccepted at hfinish
  split at hfinish
  · cases hfinish
  · rename_i unit hunit
    dsimp only at hfinish
    split at hfinish
    · cases hfinish
      exact ⟨fun d hd => hseated.sits.reporter d (Array.mem_toList_iff.mp hd),
        fun _ => hseated.sits.unit unit hunit⟩
    · cases hfinish

theorem lies_of_finishAbandoned {dialect : Dialect} (h : m.Seated g) (hbalanced : m.Balanced False)
    (hfinish : finishAbandoned dialect g.limit m = .ok o m') : o.Lies g := by
  unfold finishAbandoned at hfinish
  split at hfinish
  · cases hfinish
  · rename_i last hsettle
    cases hfinish
    obtain ⟨symbols, offset, hseated⟩ := Machine.seated_settle h hbalanced hsettle
    exact ⟨fun d hd => hseated.sits.reporter d (Array.mem_toList_iff.mp hd), nofun⟩

theorem lies_of_finish {dialect : Dialect} {progress : Progress} (h : m.Seated g)
    (hleads : Machine.Leads .nothing progress m)
    (hfinish : finish dialect g.limit progress m = .ok o m') : o.Lies g := by
  cases progress with
  | abandoned => exact lies_of_finishAbandoned h hleads hfinish
  | running | accepted => exact lies_of_finishAccepted h hfinish

/-- What parsing a text gives lies in the text, if symbols may touch each other wherever a step looks
for a repair. -/
theorem lies_parse (p : Parser) {gap : Nat} (hgap : gap ≤ 1) (source : String)
    (hseeks : ∀ k < stepLimit, ∀ m,
      Machine.course p.setup (p.start (Scanner.stream source)) k = .ok .running m →
        m.seeksRepair = true → gap = 0) :
    match (p.parse source).1 with
    | .ok o => o.Lies (spacing gap source)
    | .error _ => True := by
  have hstart := p.seated_start hgap source
  unfold parse spacing at *
  generalize Scanner.stream source = stream at hseeks hstart ⊢
  cases hrun : Machine.run p.setup stepLimit stepLimit (p.start stream) with
  | error e m =>
      rw [parseStream_of_error hrun]
      trivial
  | ok progress m =>
      have hseated := Machine.seated_course hstart hgap hseeks (Machine.course_of_run hrun)
      cases hfinish : finish p.setup.dialect stream.endOffset progress m with
      | error e m' =>
          rw [parseStream_of_finish_error hrun hfinish]
          trivial
      | ok o m' =>
          rw [parseStream_of_finish_ok hrun hfinish]
          exact lies_of_finish hseated (leads_of_run hrun) hfinish

end Parser

end AspectLang

/-! ## The ranges of statements and expressions nest

As long as no step looks for a repair, the tokens of a text do not touch each other, and neither do
the symbols on the stack of a parser.  So a unit that is read to its end has its statements and
expressions in the places of symbols that stand apart.  A unit is given up only in a step that looks
for a repair (`Machine.ne_abandoned_of_quiet`). -/

namespace AspectLang

namespace Machine

variable {p : ParserSetup} {start : Machine}

/-- A unit is given up only where a repair is looked for. -/
theorem ne_abandoned_of_quiet {n : Nat}
    (hquiet : ∀ k < n, ∀ m, course p start k = .ok .running m → m.seeksRepair = false)
    (m : Machine) : course p start n ≠ .ok .abandoned m := by
  intro hcourse
  induction n with
  | zero => cases hcourse
  | succ n ih =>
      cases hlast : course p start n with
      | error e last =>
          rw [course_succ, hlast] at hcourse
          cases hcourse
      | ok before last =>
          cases before with
          | running =>
              have hend := quiet_step p (hquiet n (Nat.lt_succ_self n) last hlast)
              rw [course_succ_of_running hlast] at hcourse
              rw [hcourse] at hend
              cases hend
          | accepted =>
              rw [course_succ, hlast] at hcourse
              cases hcourse
          | abandoned =>
              rw [course_succ, hlast] at hcourse
              cases hcourse
              exact ih (fun k hk => hquiet k (Nat.lt_succ_of_lt hk)) hlast

end Machine

/-- No step on a text looks for a repair. -/
def Parser.NeverRepairs (p : Parser) (source : String) : Prop :=
  ∀ n < stepLimit, ∀ m, Machine.course p.setup (p.start (Scanner.stream source)) n = .ok .running m →
    m.seeksRepair = false

theorem Parser.NeverRepairs.isAbandoned {p : Parser} {source : String}
    (h : p.NeverRepairs source) :
    match (p.parse source).1 with
    | .ok o => o.isAbandoned = false
    | .error _ => True := by
  unfold NeverRepairs at h
  unfold parse
  generalize Scanner.stream source = stream at h ⊢
  cases hrun : Machine.run p.setup stepLimit stepLimit (p.start stream) with
  | error e m =>
      rw [parseStream_of_error hrun]
      trivial
  | ok progress m =>
      have hne : progress ≠ .abandoned := by
        rintro rfl
        exact Machine.ne_abandoned_of_quiet h m (Machine.course_of_run hrun)
      cases hfinish : finish p.setup.dialect stream.endOffset progress m with
      | error e m' =>
          rw [parseStream_of_finish_error hrun hfinish]
          trivial
      | ok o m' =>
          rw [parseStream_of_finish_ok hrun hfinish]
          exact (count_finish hfinish).2.trans (decide_eq_false hne)

/-- **The ranges of statements and expressions nest.**  Unless one of the steps on a text looks for a
repair, the range of every statement and expression in the bodies of methods and initializers holds
the ranges of those directly in it; and the expressions directly in an expression are in the order
of the text, and have no byte in common. -/
theorem ranges_nest (p : Parser) (source : String) :
    p.NeverRepairs source →
    match (p.parse source).1 with
    | .ok o => ∀ s ∈ o.unit.outermost, (Part.statement s).Nested 1
    | .error _ => True := by
  intro hquiet
  have hlies := p.lies_parse (Nat.le_refl 1) source
    fun k hk m hm hseeks => absurd hseeks (Bool.eq_false_iff.mp (hquiet k hk m hm))
  have habandoned := hquiet.isAbandoned
  generalize (p.parse source).1 = result at hlies habandoned
  cases result with
  | error e => trivial
  | ok o => exact fun s hs => (hlies.statements habandoned s hs).nested

/-! ### A block with a statement -/

/-- A class whose initializer assigns a sum. -/
def blockSource : String := "class A \x7b \x7b x = 1 + y; \x7d \x7d"

/-- The tokens of the text. -/
def blockTokens : List Token :=
  [⟨.kwClass, ⟨0, 4⟩, "class"⟩, ⟨.identifier, ⟨6, 6⟩, "A"⟩, ⟨.lBrace, ⟨8, 8⟩, "\x7b"⟩,
    ⟨.lBrace, ⟨10, 10⟩, "\x7b"⟩, ⟨.identifier, ⟨12, 12⟩, "x"⟩, ⟨.assign, ⟨14, 14⟩, "="⟩,
    ⟨.integerLiteral, ⟨16, 16⟩, "1"⟩, ⟨.plus, ⟨18, 18⟩, "+"⟩, ⟨.identifier, ⟨20, 20⟩, "y"⟩,
    ⟨.semicolon, ⟨21, 21⟩, ";"⟩, ⟨.rBrace, ⟨23, 23⟩, "\x7d"⟩, ⟨.rBrace, ⟨25, 25⟩, "\x7d"⟩]

theorem stream_blockSource : (Scanner.stream blockSource).tokens = blockTokens ∧
    (Scanner.stream blockSource).errors = [] ∧ (Scanner.stream blockSource).endOffset = 26 := by
  unfold Scanner.stream Scanner.scan
  rw [Scanner.scanFrom_eq_within (n := 26) (by decide)]
  decide +kernel

theorem neverRepairs_blockSource (p : Parser) : p.NeverRepairs blockSource := by
  intro n _ m hcourse
  refine Parser.seeksRepair_of_reads ?_ ?_ hcourse <;> rw [stream_blockSource.1]
  · decide
  · decide +kernel

/-- The text is read to its end, and its block holds an assignment of a sum. -/
theorem reads_blockSource :
    (((Parser.new {} .disabled).follow? blockTokens 26 64).bind (·.outcome? 26)).any (fun o =>
      o.unit.outermost.any fun s => (Part.statement s).parts.any fun a =>
        a.parts.any fun b => b.parts.any fun c => !c.parts.isEmpty) = true := by
  decide +kernel

/-- The sum lies in the assignment, and that in its statement and in the block. -/
theorem ranges_nest_in_block :
    (Parser.new {} .disabled).NeverRepairs blockSource ∧
      ∃ o, ((Parser.new {} .disabled).parse blockSource).1 = .ok o ∧
        (∀ s ∈ o.unit.outermost, (Part.statement s).Nested 1) ∧
        ∃ s ∈ o.unit.outermost, ∃ a ∈ (Part.statement s).parts, ∃ b ∈ a.parts, ∃ c ∈ b.parts,
          c.parts ≠ [] := by
  refine ⟨neverRepairs_blockSource _, ?_⟩
  obtain ⟨o, ho, hparts⟩ := Option.any_eq_true .. |>.mp reads_blockSource
  obtain ⟨htokens, herrors, hend⟩ := stream_blockSource
  have hok : ((Parser.new {} .disabled).parse blockSource).1 = .ok o :=
    Parser.parseStream_of_follow? htokens herrors (by decide) (by decide) (hend ▸ ho)
  have hnest := ranges_nest (Parser.new {} .disabled) blockSource (neverRepairs_blockSource _)
  rw [hok] at hnest
  refine ⟨o, hok, hnest, ?_⟩
  simpa only [List.any_eq_true, Bool.not_eq_true', List.isEmpty_eq_false_iff] using hparts

end AspectLang
