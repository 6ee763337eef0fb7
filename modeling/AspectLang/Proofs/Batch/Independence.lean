import AspectLang.Batch
import AspectLang.Proofs.Parse.SideBySide

/-! # The units of a batch are independent

Compiling a batch gives one report for each source, in order, and each report is the one that
the source gets on its own (`Compiler.alone`).  The parser that a worker uses for one unit after
the other does not matter, since every unit starts afresh; nor do the chunks, since a chunk
tells each unit its place in the whole batch.  Where an adapter fails at a step of a unit, the
report of that unit is the failure, and it is all that changes.

All this takes a size for the chunks, which is missing when the sources and the workers together
reach the number of 64-bit words. -/

namespace AspectLang.Compiler

variable {ν : Type} (c : Compiler) (adapter : Adapter ν)

/-! ### One unit -/

/-- A unit after the analysis of its flow, and what the analysis found; an abandoned unit is not
analysed. -/
def flowOf (o : ParseOutcome) : CompilationUnit × UnitFlow :=
  if o.isAbandoned then (o.unit, { reporter := c.reporterOf o }) else o.unit.flow (c.reporterOf o)

/-- The steps of a parsed unit that an adapter is told of, in order. -/
def events (index : Nat) (o : ParseOutcome) : List UnitEvent :=
  let unit := (c.flowOf o).1
  [.beforeProcessing o.unit] ++
    (if o.isAbandoned then [] else [.beforeAnalysing o.unit]) ++
    (if c.resolves then [.beforeResolving unit, .afterResolving unit unit.resolve] else []) ++
    [.afterProcessing unit index]

/-- What a parsed unit is compiled to when the adapter never fails. -/
def compiled (source : SourceUnit) (o : ParseOutcome) : CompiledUnit where
  unit := (c.flowOf o).1
  diagnostics := (c.flowOf o).2.reporter.diagnostics.toList
  isAbandoned := o.isAbandoned
  flow := (c.flowOf o).2.stats
  bindings := if c.resolves then some (c.flowOf o).1.resolve else none
  lines := LineMap.ofSource source.source

/-- The report of a source that is compiled on its own, as the unit at a place of a batch. -/
def alone (index : Nat) (source : SourceUnit) : UnitReport :=
  (c.compileOne adapter c.parser index source).2.1

/-- Why the adapter fails first, if it fails at a step of the unit at a place of a batch. -/
def failure? (index : Nat) (source : SourceUnit) : Option String :=
  match (c.parser.parse source.source).1 with
  | .ok o => (c.events index o).findSome? fun event => (adapter.onUnit event).failure
  | .error _ => none

variable {adapter} {source : SourceUnit} {index : Nat} {o : ParseOutcome}

/-- Processing a unit is telling the adapter of its steps. -/
theorem process_eq : c.process adapter index source o = (do
    (c.events index o).forM (tell adapter source.name)
    return c.compiled source o) := by
  unfold process analyse bind events compiled flowOf
  cases o.isAbandoned <;> cases c.resolves <;> simp [List.forM_cons]

variable (adapter) in
/-- Telling an adapter of steps succeeds, unless it fails at one of them; then the first of its
failures counts. -/
theorem forM_tell (name : String) (events : List UnitEvent) (notes : List ν) :
    ∃ notes', events.forM (tell adapter name) notes =
      match events.findSome? fun event => (adapter.onUnit event).failure with
      | some reason => .error (.internal s!"panic while compiling {name}: {reason}") notes'
      | none => .ok () notes' := by
  induction events generalizing notes with
  | nil => exact ⟨notes, rfl⟩
  | cons event events ih =>
      change ∃ notes', EStateM.bind (tell adapter name event)
        (fun _ => events.forM (tell adapter name)) notes = _
      cases hfailure : (adapter.onUnit event).failure with
      | some reason =>
          refine ⟨notes ++ (adapter.onUnit event).notes, ?_⟩
          have htell : tell adapter name event notes =
              .error (.internal s!"panic while compiling {name}: {reason}")
                (notes ++ (adapter.onUnit event).notes) := by
            unfold tell
            rw [hfailure]
            rfl
          rw [List.findSome?_cons, hfailure]
          unfold EStateM.bind
          rw [htell]
      | none =>
          have htell : tell adapter name event notes =
              .ok () (notes ++ (adapter.onUnit event).notes) := by
            unfold tell
            rw [hfailure]
            rfl
          rw [List.findSome?_cons, hfailure]
          unfold EStateM.bind
          rw [htell]
          exact ih _

variable (adapter) in
/-- Processing a unit gives what it is compiled to, unless the adapter fails. -/
theorem process_result (index : Nat) (source : SourceUnit) (o : ParseOutcome) :
    ∃ notes, c.process adapter index source o [] =
      match (c.events index o).findSome? fun event => (adapter.onUnit event).failure with
      | some reason => .error (.internal s!"panic while compiling {source.name}: {reason}") notes
      | none => .ok (c.compiled source o) notes := by
  obtain ⟨notes, hnotes⟩ := forM_tell adapter source.name (c.events index o) []
  refine ⟨notes, ?_⟩
  rw [process_eq]
  change EStateM.bind ((c.events index o).forM (tell adapter source.name)) _ [] = _
  unfold EStateM.bind
  rw [hnotes]
  cases (c.events index o).findSome? fun event => (adapter.onUnit event).failure <;> rfl

theorem alone_name (index : Nat) (source : SourceUnit) :
    (c.alone adapter index source).name = source.name := by
  unfold alone compileOne
  split
  · rfl
  · split <;> rfl

/-- The result for a unit on its own: the fault of the parser, the first failure of the adapter,
or what the unit is compiled to. -/
theorem alone_result (index : Nat) (source : SourceUnit) :
    (c.alone adapter index source).result =
      match (c.parser.parse source.source).1 with
      | .error e => .error (.ofFault e)
      | .ok o =>
        match c.failure? adapter index source with
        | some reason => .error (.internal s!"panic while compiling {source.name}: {reason}")
        | none => .ok (c.compiled source o) := by
  unfold alone compileOne failure?
  obtain ⟨result, p⟩ := c.parser.parse source.source
  cases result with
  | error e => rfl
  | ok o =>
      obtain ⟨notes, hnotes⟩ := c.process_result adapter index source o
      dsimp only
      rw [hnotes]
      cases (c.events index o).findSome? fun event => (adapter.onUnit event).failure <;> rfl

/-- A failure of the adapter takes the place of the result, and changes nothing else. -/
theorem alone_result_of_failure (index : Nat) (source : SourceUnit) :
    (c.alone adapter index source).result =
      match c.failure? adapter index source with
      | some reason => .error (.internal s!"panic while compiling {source.name}: {reason}")
      | none => (c.alone (Adapter.silent : Adapter ν) index source).result := by
  have hsilent : c.failure? (Adapter.silent : Adapter ν) index source = none := by
    unfold failure?
    split
    · exact List.findSome?_eq_none_iff.mpr fun _ _ => rfl
    · rfl
  rw [alone_result, alone_result, hsilent]
  cases hparse : (c.parser.parse source.source).1 with
  | error e =>
      have hnone : c.failure? adapter index source = none := by
        unfold failure?
        rw [hparse]
      rw [hnone]
  | ok o => rfl

/-! ### Units in a row -/

theorem parse_setup (p : Parser) (text : String) : (p.parse text).2.setup = p.setup := by
  unfold Parser.parse Parser.parseStream
  dsimp only
  split
  · rfl
  · split <;> rfl

variable (adapter) in
theorem compileOne_setup (p : Parser) (index : Nat) (source : SourceUnit) :
    (c.compileOne adapter p index source).1.setup = p.setup := by
  have hsetup := parse_setup p source.source
  unfold compileOne
  split
  · rename_i hparse
    rwa [hparse] at hsetup
  · rename_i hparse
    rw [hparse] at hsetup
    split
    · exact hsetup
    · exact hsetup

/-- What a parser has parsed before does not show in a report. -/
theorem compileOne_of_setup {p q : Parser} (hsetup : p.setup = q.setup) (index : Nat)
    (source : SourceUnit) :
    (c.compileOne adapter p index source).2 = (c.compileOne adapter q index source).2 := by
  have hparse : (p.parse source.source).1 = (q.parse source.source).1 :=
    Parser.parseStream_eq_of_setup q (Scanner.stream source.source) hsetup
  unfold compileOne
  generalize p.parse source.source = r, q.parse source.source = r' at hparse
  obtain ⟨result, p'⟩ := r
  obtain ⟨result', q'⟩ := r'
  obtain rfl : result = result' := hparse
  cases result with
  | error e => rfl
  | ok o =>
      dsimp only
      split <;> rfl

/-- Units that are compiled in turn get what each gets from a new parser. -/
theorem compileInTurn_eq {p : Parser} (hsetup : p.setup = c.parser.setup) (first : Nat)
    (sources : List SourceUnit) :
    c.compileInTurn adapter p first sources =
      sources.mapIdx fun i source => (c.compileOne adapter c.parser (first + i) source).2 := by
  induction sources generalizing p first with
  | nil => rfl
  | cons source sources ih =>
      have hnext := (c.compileOne_setup adapter p first source).trans hsetup
      rw [List.mapIdx_cons]
      unfold compileInTurn
      dsimp only
      rw [ih hnext, c.compileOne_of_setup hsetup]
      congr 2
      funext i
      rw [Nat.add_right_comm, Nat.add_assoc]

/-! ### Chunks -/

/-- A list is numbered through, whether in one piece or in a first chunk and the rest. -/
theorem mapIdx_eq_chunk {α β : Type} (f : Nat → α → β) (first size : Nat) (xs : List α) :
    (xs.mapIdx fun i x => f (first + i) x) =
      ((xs.take size).mapIdx fun i x => f (first + i) x) ++
        (xs.drop size).mapIdx fun i x => f (first + size + i) x := by
  conv_lhs => rw [← List.take_append_drop size xs, List.mapIdx_append]
  rcases Nat.le_total size xs.length with hle | hle
  · rw [List.length_take, Nat.min_eq_left hle]
    congr 2
    funext i x
    rw [Nat.add_assoc, Nat.add_comm size i]
  · rw [List.drop_eq_nil_of_le hle]
    rfl

/-- A batch that is cut into chunks gets what it gets in one piece. -/
theorem compileChunks_eq {size : Nat} (hsize : 0 < size) (number : Nat)
    (sources : List SourceUnit) :
    c.compileChunks adapter size number (chunks size sources) =
      sources.mapIdx fun i source =>
        (c.compileOne adapter c.parser (number * size + i) source).2 := by
  fun_induction chunks size sources generalizing number with
  | case1 _ hzero => exact absurd hzero (Nat.ne_of_gt hsize)
  | case2 => rfl
  | case3 _ source rest ih =>
      unfold compileChunks
      rw [ih, c.compileInTurn_eq rfl, Nat.succ_mul, ← mapIdx_eq_chunk
        fun place source => (c.compileOne adapter c.parser place source).2]

theorem chunkSize?_pos {units : Nat} {threads : UInt64} {size : Nat} (hunits : 0 < units)
    (hthreads : 1 < threads) (h : chunkSize? units threads = some size) : 0 < size := by
  have hone : 1 < threads.toNat := UInt64.lt_iff_toNat_lt.mp hthreads
  unfold chunkSize? at h
  dsimp only at h
  split at h
  · rw [← Option.some.inj h]
    exact Nat.div_pos (by omega) (by omega)
  · cases h

/-- The results of a batch, where there is a size for its chunks. -/
theorem compileUnits_eq (sources : List SourceUnit)
    (hfits : sources.length + c.threads.toNat < UInt64.size ∨ c.threads ≤ 1 ∨ sources.length < 2) :
    c.compileUnits adapter sources =
      some (sources.mapIdx fun i source => (c.compileOne adapter c.parser i source).2) := by
  unfold compileUnits
  split
  · rw [c.compileInTurn_eq rfl]
    simp only [Nat.zero_add]
  · rename_i hmany
    have hsize : chunkSize? sources.length c.threads =
        some ((sources.length + c.threads.toNat - 1) / c.threads.toNat) :=
      if_pos (hfits.resolve_right hmany)
    obtain ⟨hthreads, hunits⟩ := not_or.mp hmany
    have hpos := chunkSize?_pos (by omega) (UInt64.not_le.mp hthreads) hsize
    rw [hsize, Option.map_some, c.compileChunks_eq hpos]
    simp only [Nat.zero_mul, Nat.zero_add]

end AspectLang.Compiler

namespace AspectLang

/-- **The units of a batch are independent of each other and of the number of workers.**  There
is one report for each source, in order, and it is the one that the source gets on its own at
its place in the batch.  If the adapter fails at a step of a unit, the report of that unit is
an internal failure that names it and the reason; if not, it is what the unit gets without an
adapter.  The sources and the workers together must be fewer than the 64-bit words, unless a
single worker compiles the batch. -/
theorem batch_units_independent {ν : Type} (c : Compiler) (adapter : Adapter ν)
    (sources : List SourceUnit)
    (hfits : sources.length + c.threads.toNat < UInt64.size ∨ c.threads ≤ 1 ∨
      sources.length < 2) :
    (∃ notes, c.compile adapter sources = some (⟨sources.mapIdx (c.alone adapter)⟩, notes)) ∧
    ∀ index source, (c.alone adapter index source).name = source.name ∧
      (c.alone adapter index source).result =
        match c.failure? adapter index source with
        | some reason => .error (.internal s!"panic while compiling {source.name}: {reason}")
        | none => (c.alone (Adapter.silent : Adapter ν) index source).result := by
  refine ⟨?_, fun index source =>
    ⟨c.alone_name index source, c.alone_result_of_failure index source⟩⟩
  have hreports : (sources.mapIdx fun i source =>
      (c.compileOne adapter c.parser i source).2).map (·.1) =
        sources.mapIdx (c.alone adapter) := by
    refine List.ext_getElem? fun i => ?_
    rw [List.getElem?_map, List.getElem?_mapIdx, List.getElem?_mapIdx, Option.map_map]
    rfl
  unfold Compiler.compile
  rw [c.compileUnits_eq sources hfits, Option.map_some, hreports]
  exact ⟨_, rfl⟩

/-- Three sources, two workers, and an adapter that fails before a unit is analysed. -/
theorem failing_units_independent :
    let c : Compiler := { settings := {}, dialect := .disabled, threads := 2 }
    let adapter : Adapter Unit :=
      { onUnit := fun
          | .beforeAnalysing _ => { failure := some "no" }
          | _ => {} }
    let sources : List SourceUnit := [⟨"A", "class A \x7b \x7d"⟩, ⟨"B", "class"⟩, ⟨"C", ""⟩]
    sources.length + c.threads.toNat < UInt64.size ∧
      ∃ notes, c.compile adapter sources = some (⟨sources.mapIdx (c.alone adapter)⟩, notes) :=
  ⟨by decide, (batch_units_independent _ _ _ (.inl (by decide))).1⟩

/-- Two sources and all but two of the workers that a 64-bit word counts leave no room for the
sum from which the size of the chunks is computed, though the size itself is one. -/
theorem no_batch_for_all_workers :
    2 + (18446744073709551614 : UInt64).toNat - 1 < UInt64.size ∧
      ({ settings := {}, dialect := .enabled .aspects, threads := 18446744073709551614 } :
        Compiler).compile (Adapter.silent : Adapter Unit)
          [⟨"A.java", "class A \x7b \x7d"⟩, ⟨"B.java", "class B \x7b int x \x7d"⟩] = none := by
  refine ⟨by decide, ?_⟩
  unfold Compiler.compile Compiler.compileUnits
  rw [if_neg (by decide)]
  rfl

end AspectLang
