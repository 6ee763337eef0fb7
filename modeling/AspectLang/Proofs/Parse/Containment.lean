import AspectLang.Proofs.Parse.Placement
import AspectLang.Proofs.Parse.TrialRuns
import AspectLang.Proofs.Token.Scanning

/-! # Declarations contain their names and their members

A machine is `InPlace` when the ranges on its stack are in order, the values lie where the symbols
of the stack do, and the tokens that are left stand behind.  A shift moves the edge over a token; a
reduction keeps it, and turns one layout into another; repairs and splits only change the queue of
tokens (`inPlace_step`).  So a finished unit has every owner around its members, and the nodes of
an abandoned one are nested (`inPlace_run`, `inPlace_settle`).  The main theorem says so of every
declaration that a parser returns. -/

namespace AspectLang

/-! ### The values of a machine -/

namespace Machine

variable {p : ParserSetup} {m m' : Machine} {limit : Nat} {symbols : List Symbol}

/-- The values lie where the symbols do that the states spell, and the tokens that are left stand
behind them, up to a limit. -/
structure Arranged (limit : Nat) (m : Machine) (symbols : List Symbol) : Prop where
  spells : Language.grammar.Spells m.states symbols
  length : m.spans.length = m.states.length
  order : InOrder m.spans
  filled : Filled symbols m.spans
  lies : m.work.Lies (stackLayout symbols m.spans)
  previous : ∀ t ∈ m.previous, t.span.stop = edge m.spans
  queued : Token.Queued limit (edge m.spans) m.rest

/-- The values of a machine lie where they should. -/
def InPlace (limit : Nat) (m : Machine) : Prop := ∃ symbols, m.Arranged limit symbols

/-! ### Shifting -/

/-- The value of a token lies where the token does. -/
theorem lies_pushValue {t : Token} {w : Workspace} {l : Layout} {r : Region} (h : w.Lies l)
    (ht : r.Holds t.span) :
    Workspace.Lies { w with values := pushValue t w.values }
      ((t.kind.profile.placed r true).atop l) := by
  unfold pushValue TokenKind.profile
  split
  · exact ⟨h.nodes, h.exprs, h.identifiers.push ht, h.types, h.ints, h.unit⟩
  · cases t.kind.literalKind? with
    | none =>
        rw [if_neg (by simp)]
        exact h
    | some kind =>
        rw [if_pos Option.isSome_some]
        exact ⟨h.nodes, h.exprs.push ht, h.identifiers, h.types, h.ints, h.unit⟩

theorem inPlace_afterShift {state target : Nat} {below : List Nat} {t : Token}
    {rest : List Token} (h : m.InPlace limit) (hstates : m.states = state :: below)
    (hrest : m.rest = t :: rest) (haction : Language.tables.action state t.kind = .shift target) :
    (m.afterShift p t rest target).InPlace limit := by
  obtain ⟨symbols, hspells, hlength, horder, hfilled, hlies, _, hqueued⟩ := h
  rw [hstates] at hspells
  have hshift := hspells.shift Language.wellFormed_grammar Language.startIsolated_grammar haction
  rw [← hstates] at hshift
  rw [hrest] at hqueued
  have hstart := hqueued.1
  have hstop := hqueued.start_le_stop
  refine ⟨.terminal t.kind :: symbols, hshift, congrArg (· + 1) hlength, ⟨hstart, hstop, horder⟩,
    hfilled.shift _ _, lies_pushValue hlies ⟨hstart, hstop, Nat.le_refl _⟩, ?_,
    hqueued.2.2⟩
  intro u hu
  cases hu
  rfl

/-! ### Reducing -/

/-- A reduction puts the value of the left side where the right side was. -/
theorem inPlace_reduce {dialect : Dialect} {lookahead : Span} {state production : Nat}
    {below : List Nat} {kind : TokenKind} (h : m.InPlace limit)
    (hstates : m.states = state :: below)
    (haction : Language.tables.action state kind = .reduce production)
    (hlookahead : edge m.spans ≤ lookahead.start)
    (hreduce : reduce dialect production lookahead m = .ok () m') : m'.InPlace limit := by
  obtain ⟨symbols, hspells, hlength, horder, hfilled, hlies, hprevious, hqueued⟩ := h
  have hsymbols := hspells.length_eq
  obtain ⟨rule, origin, rest, before, target, hrule, hdrop, rfl, hgoto, hcontext, hafter⟩ :=
    exists_rule hspells hstates haction
  have hready : (m.popped rule.rhs.length production).work.Ready rule before m.spans lookahead := by
    refine ⟨Language.mem_rules hrule, horder, ?_, hfilled, hcontext, hlookahead,
      hlies.nodes, hlies.exprs, hlies.identifiers, hlies.types, hlies.ints, hlies.unit⟩
    rw [List.length_append, List.length_reverse, List.length_map] at hsymbols
    omega
  obtain ⟨horder', hedge⟩ := horder.reduced rule.rhs.length lookahead
  rw [reduce_eq hrule hdrop hgoto] at hreduce
  split at hreduce
  · cases hreduce
  · rename_i u w hact
    cases hreduce
    have hlies' := hready.reduces dialect u w hact
    rw [← stackLayout_reduced horder lookahead] at hlies'
    refine ⟨_, hafter, ?_, horder', hfilled.reduced hready.isRule hready.rhs_le lookahead, hlies',
      fun t ht => (hprevious t ht).trans hedge.symm, hedge.symm ▸ hqueued⟩
    have hdropped := congrArg List.length hdrop
    simp only [List.length_cons, List.length_drop] at hdropped ⊢
    omega

/-! ### Repairing -/

/-- After a repair the tokens that are left still stand behind the edge. -/
theorem queued_recover {t : Token} {rest : List Token} {offset : Nat} (hrest : m.rest = t :: rest)
    (hprevious : ∀ u ∈ m.previous, u.span.stop = offset)
    (hqueued : Token.Queued limit offset m.rest) :
    Token.Queued limit offset (recover p t m).2.rest := by
  rcases (recover_cases p t m).2 with hall | htail | ⟨kinds, hkinds, hfront⟩
  · rw [hall]
    exact hqueued
  · rw [htail, hrest]
    rw [hrest] at hqueued
    exact hqueued.tail
  · -- what is inserted stands at the edge, or where the first token of the text begins
    have hplace : offset ≤ m.insertionPlace t ∧
        Token.Queued limit (m.insertionPlace t) m.rest := by
      unfold insertionPlace
      cases hlast : m.previous with
      | none =>
          rw [hrest] at hqueued ⊢
          exact ⟨hqueued.1, Nat.le_refl _, hqueued.2⟩
      | some last =>
          rw [Option.elim_some, hprevious last hlast]
          exact ⟨Nat.le_refl _, hqueued⟩
    have hone := fun kind hkind => TokenKind.brackets_of_whole (hkinds kind hkind)
    rw [hfront]
    exact (hplace.2.insert hone _).mono hplace.1

theorem inPlace_recover {t : Token} {rest : List Token} (h : m.InPlace limit)
    (hrest : m.rest = t :: rest) : (recover p t m).2.InPlace limit := by
  obtain ⟨symbols, hspells, hlength, horder, hfilled, hlies, hprevious, hqueued⟩ := h
  have hkeeps := keeps_recover p t m
  have hleft : Token.Queued limit (edge m.spans) (recover p t m).2.rest :=
    queued_recover hrest hprevious hqueued
  refine ⟨symbols, ?_⟩
  rw [← hkeeps.spans] at hlength horder hfilled hlies hprevious hleft
  rw [← hkeeps.states] at hspells hlength
  rw [← (recover_cases p t m).1] at hprevious
  exact ⟨hspells, hlength, horder, hfilled, hlies.of_values hkeeps.values hkeeps.unit, hprevious,
    hleft⟩

/-! ### Steps and runs -/

/-- **A step keeps the values in place.** -/
theorem inPlace_step {progress : Progress} (h : m.InPlace limit)
    (hstep : step p m = .ok progress m') : m'.InPlace limit := by
  obtain ⟨symbols, harranged⟩ := h
  obtain ⟨state, below, hstates⟩ := List.exists_cons_of_ne_nil harranged.spells.ne_nil
  have h : m.InPlace limit := ⟨symbols, harranged⟩
  have hqueued := harranged.queued
  cases hrest : m.rest with
  | nil =>
      rw [step_of_no_tokens hstates hrest] at hstep
      cases hstep
  | cons t rest =>
      rw [hrest] at hqueued
      cases stepped_of_step hstates hrest hstep with
      | shift haction => exact inPlace_afterShift h hstates hrest haction
      | reduce haction hreduce => exact inPlace_reduce h hstates haction hqueued.1 hreduce
      | accept => exact h
      | split _ hsplit =>
          exact ⟨symbols, { harranged with queued := hqueued.halves hsplit }⟩
      | repair => exact inPlace_recover h hrest

/-- **A run keeps the values in place.** -/
theorem inPlace_run {gas bound : Nat} {progress : Progress} (h : m.InPlace limit)
    (hrun : run p bound gas m = .ok progress m') : m'.InPlace limit := by
  induction gas generalizing m with
  | zero => cases hrun
  | succ gas ih =>
      rw [run_succ] at hrun
      cases hstep : step p m with
      | error e last =>
          rw [hstep] at hrun
          cases hrun
      | ok next last =>
          rw [hstep] at hrun
          have hlast := inPlace_step h hstep
          cases next with
          | running => exact ih hlast hrun
          | accepted | abandoned =>
              cases hrun
              exact hlast

/-- The reductions that only waited for a token keep the values in place. -/
theorem inPlace_settle {dialect : Dialect} {gas : Nat} (h : m.InPlace limit)
    (hbalanced : m.Balanced False) (hsettle : settle dialect limit gas m = .ok () m') :
    m'.InPlace limit := by
  refine settle_keeps (fun m m' state production below h _ hstates haction hreduce => ?_) h
    hbalanced hsettle
  obtain ⟨_, harranged⟩ := id h
  exact inPlace_reduce h hstates haction harranged.queued.le_limit hreduce

end Machine

/-! ### Units -/

/-- Every declaration is nested; and every owner contains its members, but in abandoned units. -/
def ParseOutcome.Contained (o : ParseOutcome) : Prop :=
  (∀ e ∈ o.unit.extents, e.nested = true) ∧
    (o.isAbandoned = false → ∀ pair ∈ o.unit.ownerships, pair.1.contains pair.2 = true)

namespace Parser

variable {m m' : Machine} {limit : Nat} {o : ParseOutcome}

theorem inPlace_start (p : Parser) (stream : TokenStream)
    (hqueued : Token.Queued limit 0 (stream.tokens ++ [Token.eof stream.endOffset])) :
    (p.start stream).InPlace limit := by
  exact ⟨[], .start, rfl, trivial, nofun, ⟨.empty, .empty, .empty, .empty, .nil, nofun⟩, nofun,
    hqueued⟩

theorem contained_of_finishAccepted (h : m.InPlace limit)
    (hfinish : finishAccepted limit m = .ok o m') : o.Contained := by
  obtain ⟨symbols, harranged⟩ := h
  unfold finishAccepted at hfinish
  split at hfinish
  · cases hfinish
  · rename_i unit hunit
    have hcontained := harranged.lies.unit unit hunit
    dsimp only at hfinish
    split at hfinish
    · cases hfinish
      refine ⟨fun e he => ?_, fun _ pair hpair => ?_⟩
      · obtain ⟨t, ht, he⟩ := List.mem_flatMap.mp he
        exact (hcontained t ht).1 e he
      · obtain ⟨t, ht, hpair⟩ := List.mem_flatMap.mp hpair
        exact (hcontained t ht).2 pair hpair
    · cases hfinish

theorem contained_of_finishAbandoned {dialect : Dialect} (h : m.InPlace limit)
    (hbalanced : m.Balanced False) (hfinish : finishAbandoned dialect limit m = .ok o m') :
    o.Contained := by
  unfold finishAbandoned at hfinish
  split at hfinish
  · cases hfinish
  · rename_i last hsettle
    cases hfinish
    obtain ⟨symbols, harranged⟩ := Machine.inPlace_settle h hbalanced hsettle
    refine ⟨Salvage.nested_ofNodes (fun n hn => ?_) _, nofun⟩
    obtain ⟨_, _, hplace⟩ := harranged.lies.nodes.exists_shape (List.mem_reverse.mp hn)
    exact hplace.lies.nested

theorem contained_of_finish {dialect : Dialect} {progress : Progress} (h : m.InPlace limit)
    (hleads : Machine.Leads .nothing progress m)
    (hfinish : finish dialect limit progress m = .ok o m') : o.Contained := by
  cases progress with
  | abandoned => exact contained_of_finishAbandoned h hleads hfinish
  | running | accepted => exact contained_of_finishAccepted h hfinish

end Parser

/-- **The positions of declarations are contained in each other.**  In the unit that a text gives,
repaired or abandoned as it may be, every declaration at any nesting has its name in its range;
and unless the unit was abandoned, the range of a member lies in the range of its owner. -/
theorem declarations_contained (p : Parser) (source : String) :
    match (p.parse source).1 with
    | .ok o => o.Contained
    | .error _ => True := by
  have hstart := p.inPlace_start _ (Scanner.queued_stream source)
  unfold Parser.parse
  generalize Scanner.stream source = stream at hstart ⊢
  cases hrun : Machine.run p.setup Parser.stepLimit Parser.stepLimit (p.start stream) with
  | error e m =>
      rw [Parser.parseStream_of_error hrun]
      trivial
  | ok progress m =>
      cases hfinish : Parser.finish p.setup.dialect stream.endOffset progress m with
      | error e m' =>
          rw [Parser.parseStream_of_finish_error hrun hfinish]
          trivial
      | ok o m' =>
          rw [Parser.parseStream_of_finish_ok hrun hfinish]
          exact Parser.contained_of_finish (Machine.inPlace_run hstart hrun)
            (Parser.leads_of_run hrun) hfinish

end AspectLang
