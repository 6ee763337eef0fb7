import AspectLang.FileTree
import AspectLang.Proofs.Batch.Independence
import AspectLang.Proofs.Flow.ReportRanges
import AspectLang.Proofs.Parse.SeatedRuns

/-! # The reports of files

Each file of a batch of files gets one report: what its text is compiled to on its own, or why it
cannot be read (`Compiler.fileReport`).  The reports of the files that can be read come first, in
order, and those of the others follow, in order (`Compiler.compileFiles_eq`).  So they stand in the
order of the files just when no file that can be read stands behind one that cannot
(`Compiler.readableFirst_iff`). -/

namespace AspectLang

/-- Whether a file can be read as text. -/
def FoundFile.isReadable (f : FoundFile) : Bool := f.source?.isSome

namespace Compiler

variable (c : Compiler) {ν : Type}

/-- What a text is compiled to on its own. -/
def textResult (source : SourceUnit) : Except Failure CompiledUnit :=
  match (c.parser.parse source.source).1 with
  | .ok o => .ok (c.compiled source o)
  | .error e => .error (.ofFault e)

/-- The report of a file: its text compiled on its own, or why it cannot be read. -/
def fileReport (f : FoundFile) : UnitReport where
  name := f.path
  result := match f.text with
    | .ok text => c.textResult ⟨f.path, text⟩
    | .error e => .error (.file e)

/-! ### Single files -/

/-- The adapter that does nothing does not make a text depend on its place. -/
theorem alone_silent (index : Nat) (source : SourceUnit) :
    c.alone (Adapter.silent : Adapter ν) index source = ⟨source.name, c.textResult source⟩ := by
  have hname : (c.alone (Adapter.silent : Adapter ν) index source).name = source.name :=
    c.alone_name index source
  have hresult := @alone_result ν c Adapter.silent index source
  have hquiet : c.failure? (Adapter.silent : Adapter ν) index source = none := by
    unfold failure?
    split
    · exact List.findSome?_eq_none_iff.mpr fun _ _ => rfl
    · rfl
  rw [hquiet] at hresult
  generalize c.alone (Adapter.silent : Adapter ν) index source = report at hname hresult
  obtain ⟨name, result⟩ := report
  obtain rfl : name = source.name := hname
  congr 1
  refine hresult.trans ?_
  unfold textResult
  cases (c.parser.parse source.source).1 <;> rfl

/-- A compiled text never looks like a file that cannot be read. -/
theorem textResult_ne_file (source : SourceUnit) (e : FileFault) :
    c.textResult source ≠ .error (.file e) := by
  unfold textResult
  split
  · nofun
  · rename_i fault _
    cases fault <;> nofun

theorem fileReport_of_source? {f : FoundFile} {source : SourceUnit} (h : f.source? = some source) :
    c.fileReport f = ⟨source.name, c.textResult source⟩ := by
  unfold FoundFile.source? at h
  unfold fileReport
  cases htext : f.text with
  | ok text =>
      rw [htext] at h
      obtain rfl := Option.some.inj h
      rfl
  | error e =>
      rw [htext] at h
      cases h

theorem failure?_eq (f : FoundFile) :
    f.failure? = if f.isReadable then none else some (c.fileReport f) := by
  unfold FoundFile.failure? FoundFile.isReadable FoundFile.source? fileReport
  cases f.text <;> rfl

/-- Whether a report says that a file cannot be read. -/
def saysUnread (r : UnitReport) : Bool :=
  match r.result with
  | .error (.file _) => true
  | _ => false

theorem saysUnread_fileReport (f : FoundFile) : saysUnread (c.fileReport f) = !f.isReadable := by
  unfold FoundFile.isReadable FoundFile.source? saysUnread fileReport
  cases f.text with
  | error e => rfl
  | ok text =>
      dsimp only
      split
      · rename_i e hresult
        exact absurd hresult (c.textResult_ne_file _ e)
      · rfl

/-! ### Lists of files -/

variable (files : List FoundFile)

theorem map_filterMap_source? :
    (files.filterMap FoundFile.source?).map (fun source => ⟨source.name, c.textResult source⟩) =
      (files.filter FoundFile.isReadable).map c.fileReport := by
  induction files with
  | nil => rfl
  | cons f rest ih =>
      cases hsource : f.source? with
      | none =>
          have hnot : ¬ f.isReadable = true := by simp [FoundFile.isReadable, hsource]
          rw [List.filterMap_cons_none hsource, List.filter_cons_of_neg hnot, ih]
      | some source =>
          have hreadable : f.isReadable = true := by simp [FoundFile.isReadable, hsource]
          rw [List.filterMap_cons_some hsource, List.filter_cons_of_pos hreadable, List.map_cons,
            List.map_cons, c.fileReport_of_source? hsource, ih]

theorem filterMap_failure? :
    files.filterMap FoundFile.failure? =
      (files.filter fun f => !f.isReadable).map c.fileReport := by
  induction files with
  | nil => rfl
  | cons f rest ih =>
      cases hreadable : f.isReadable with
      | true =>
          have hnone : f.failure? = none := by rw [c.failure?_eq, if_pos hreadable]
          rw [List.filterMap_cons_none hnone, List.filter_cons_of_neg (by simp [hreadable]), ih]
      | false =>
          have hsome : f.failure? = some (c.fileReport f) := by
            rw [c.failure?_eq, if_neg (by simp [hreadable])]
          rw [List.filterMap_cons_some hsome, List.filter_cons_of_pos (by simp [hreadable]),
            List.map_cons, ih]

/-- There is room for the files of a batch: for the sum of those that can be read and the workers, if
it is needed. -/
def HasRoom : Prop :=
  (files.filter FoundFile.isReadable).length + c.threads.toNat < UInt64.size ∨ c.threads ≤ 1 ∨
    (files.filter FoundFile.isReadable).length < 2

instance : Decidable (c.HasRoom files) :=
  inferInstanceAs (Decidable (_ ∨ _))

variable {files}

/-- The files that can be read are reported first, and then the others. -/
theorem compileFiles_eq (hroom : c.HasRoom files) :
    c.compileFiles files = some ⟨(files.filter FoundFile.isReadable).map c.fileReport ++
      (files.filter fun f => !f.isReadable).map c.fileReport⟩ := by
  have hsources : (files.filterMap FoundFile.source?).length =
      (files.filter FoundFile.isReadable).length := by
    simpa using congrArg List.length (c.map_filterMap_source? files)
  have hreports : ((files.filterMap FoundFile.source?).mapIdx fun i source =>
      (c.compileOne (Adapter.silent : Adapter Unit) c.parser i source).2).map (·.1) =
        (files.filter FoundFile.isReadable).map c.fileReport := by
    rw [← c.map_filterMap_source?]
    refine List.ext_getElem? fun i => ?_
    rw [List.getElem?_map, List.getElem?_mapIdx, List.getElem?_map, Option.map_map]
    congr 1
    funext source
    exact c.alone_silent i source
  unfold compileFiles compile
  rw [c.compileUnits_eq _ (by rw [hsources]; exact hroom), Option.map_some, Option.map_some,
    hreports, c.filterMap_failure?]

/-- Reports that begin with those of the files that can be read are in the order of the files just
when these files come first. -/
theorem readableFirst_iff :
    (files.filter FoundFile.isReadable).map c.fileReport ++
        (files.filter fun f => !f.isReadable).map c.fileReport = files.map c.fileReport ↔
      files.Pairwise fun f g => g.isReadable = true → f.isReadable = true := by
  constructor
  · intro heq
    -- what the reports say of being read is ascending, as it is in the parts they are put together from
    have hsorted : (files.map c.fileReport).Pairwise fun r s =>
        saysUnread s = false → saysUnread r = false := by
      rw [← heq, ← List.map_append, List.pairwise_map, List.pairwise_append]
      simp only [saysUnread_fileReport, Bool.not_eq_false']
      refine ⟨List.pairwise_of_forall_mem_list ?_, List.pairwise_of_forall_mem_list ?_, ?_⟩
      · exact fun f hf _ _ _ => (List.mem_filter.mp hf).2
      · intro f _ g hg hreadable
        simp [hreadable] at hg
      · exact fun f hf _ _ _ => (List.mem_filter.mp hf).2
    rw [List.pairwise_map] at hsorted
    simpa only [saysUnread_fileReport, Bool.not_eq_false'] using hsorted
  · intro hsorted
    rw [← List.map_append]
    congr 1
    induction files with
    | nil => rfl
    | cons f rest ih =>
        obtain ⟨hfirst, hrest⟩ := List.pairwise_cons.mp hsorted
        cases hreadable : f.isReadable with
        | true =>
            rw [List.filter_cons_of_pos hreadable, List.filter_cons_of_neg (by simp [hreadable]),
              List.cons_append, ih hrest]
        | false =>
            have hnone : ∀ g ∈ f :: rest, g.isReadable = false := by
              refine List.forall_mem_cons.mpr ⟨hreadable, fun g hg => ?_⟩
              refine Bool.eq_false_iff.mpr fun htrue => ?_
              rw [hfirst g hg htrue] at hreadable
              cases hreadable
            rw [List.filter_eq_nil_iff.mpr fun g hg => by simp [hnone g hg],
              List.filter_eq_self.mpr fun g hg => by simp [hnone g hg], List.nil_append]

end Compiler

/-- **Each file of a batch gets one report**, which has its path for a name: what its text is
compiled to on its own, or why it cannot be read.  The reports of the files that can be read come
first, so they are in the order of the files just when no file that can be read stands behind one
that cannot. -/
theorem files_reported (c : Compiler) (files : List FoundFile) (hroom : c.HasRoom files) :
    ∃ units, c.compileFiles files = some ⟨units⟩ ∧
      units = (files.filter FoundFile.isReadable ++ files.filter fun f => !f.isReadable).map
        c.fileReport ∧
      units.Perm (files.map c.fileReport) ∧
      (units = files.map c.fileReport ↔
        files.Pairwise fun f g => g.isReadable = true → f.isReadable = true) := by
  refine ⟨_, c.compileFiles_eq hroom, List.map_append.symm, ?_, c.readableFirst_iff⟩
  rw [← List.map_append]
  exact (List.filter_append_perm FoundFile.isReadable files).map c.fileReport

/-- A file that is missing and an empty one. -/
def missingAndEmpty : List FoundFile :=
  [⟨"missing.java", .error .notFound⟩, ⟨"B.java", .ok "".toUTF8⟩]

/-- The empty file is reported before the missing one. -/
theorem files_reported_missingAndEmpty :
    let c : Compiler := { settings := {}, dialect := .enabled .aspects }
    c.HasRoom missingAndEmpty ∧
      ∃ units, c.compileFiles missingAndEmpty = some ⟨units⟩ ∧
        units = (missingAndEmpty.reverse).map c.fileReport := by
  refine ⟨by decide, ?_⟩
  obtain ⟨units, hcompiled, hunits, _⟩ :=
    files_reported { settings := {}, dialect := .enabled .aspects } missingAndEmpty (by decide)
  exact ⟨units, hcompiled, hunits⟩

/-- So the reports of a missing file and an empty one are not in the order of the files. -/
theorem missing_file_reported_last :
    let c : Compiler := { settings := {}, dialect := .enabled .aspects }
    c.compileFiles missingAndEmpty ≠ some ⟨missingAndEmpty.map c.fileReport⟩ := by
  intro c hcompiled
  rw [c.compileFiles_eq (by decide)] at hcompiled
  have hunits := congrArg Compilation.units (Option.some.inj hcompiled)
  exact absurd (c.readableFirst_iff.mp hunits) (by decide)

end AspectLang

/-! ## How a batch is cut into chunks

A batch for several workers is cut into chunks of one size, the sources divided by the workers and
rounded up.  The chunks are consecutive cuts of the batch: the chunk with number `k` begins at the
place `k * size` (`getElem?_chunks`), and together they are the batch (`flatten_chunks`).  The size
is never zero and never more than the sources, and there are no more chunks than workers.

All this is so whenever the size can be computed.  It is computed from the sum of the sources and the
workers, so it is missing as soon as that sum is no 64-bit word (`chunkSize?_eq_none_iff`), though the
size itself would be small. -/

namespace AspectLang.Compiler

/-! ### Cutting a list -/

section

variable {α : Type} {size : Nat}

theorem flatten_chunks (hsize : 0 < size) (xs : List α) : (chunks size xs).flatten = xs := by
  fun_induction chunks size xs with
  | case1 _ hzero => exact absurd hzero (Nat.ne_of_gt hsize)
  | case2 => rfl
  | case3 _ x xs ih => rw [List.flatten_cons, ih, List.take_append_drop]

/-- A chunk begins behind those before it, and is cut short only by the end of the list. -/
theorem getElem?_chunks (hsize : 0 < size) (xs : List α) (k : Nat) :
    (chunks size xs)[k]? =
      if k * size < xs.length then some ((xs.drop (k * size)).take size) else none := by
  fun_induction chunks size xs generalizing k with
  | case1 _ hzero => exact absurd hzero (Nat.ne_of_gt hsize)
  | case2 => rw [if_neg (by simp), List.getElem?_nil]
  | case3 _ x xs ih =>
      cases k with
      | zero =>
          rw [Nat.zero_mul, if_pos (by simp), List.getElem?_cons_zero, List.drop_zero]
      | succ k =>
          have hplace : size + k * size = (k + 1) * size := by rw [Nat.succ_mul, Nat.add_comm]
          have hlater : k * size < ((x :: xs).drop size).length ↔
              (k + 1) * size < (x :: xs).length := by
            rw [List.length_drop, ← hplace]
            omega
          rw [List.getElem?_cons_succ, ih, List.drop_drop, hplace, if_congr hlater rfl rfl]

/-- As many workers as are needed for chunks of a size are enough for the chunks. -/
theorem length_chunks_le (hsize : 0 < size) {xs : List α} {workers : Nat}
    (henough : xs.length ≤ workers * size) : (chunks size xs).length ≤ workers := by
  have hnone : (chunks size xs)[workers]? = none := by
    rw [getElem?_chunks hsize, if_neg (Nat.not_lt.mpr henough)]
  exact List.getElem?_eq_none_iff.mp hnone

end

/-! ### The size of chunks -/

section

variable {units size : Nat} {threads : UInt64}

/-- There is no size when the units and the workers together are no 64-bit word. -/
theorem chunkSize?_eq_none_iff :
    chunkSize? units threads = none ↔ UInt64.size ≤ units + threads.toNat := by
  unfold chunkSize?
  dsimp only
  split
  · rename_i hfits
    exact ⟨nofun, fun hle => absurd hle (Nat.not_le.mpr hfits)⟩
  · rename_i hover
    exact ⟨fun _ => Nat.not_lt.mp hover, fun _ => rfl⟩

/-- What is computed is the least size with which the workers have room for the units. -/
theorem chunkSize?_least (hthreads : 1 ≤ threads) (h : chunkSize? units threads = some size) :
    units ≤ threads.toNat * size ∧ ∀ smaller < size, threads.toNat * smaller < units := by
  have hpos : 1 ≤ threads.toNat := UInt64.le_iff_toNat_le.mp hthreads
  unfold chunkSize? at h
  dsimp only at h
  split at h
  · obtain rfl := Option.some.inj h
    have hdiv := Nat.div_add_mod (units + threads.toNat - 1) threads.toNat
    have hmod := Nat.mod_lt (units + threads.toNat - 1) hpos
    refine ⟨by omega, fun smaller hsmaller => ?_⟩
    have hfull : threads.toNat * (smaller + 1) ≤ units + threads.toNat - 1 :=
      (Nat.mul_le_mul_left _ hsmaller).trans (by omega)
    rw [Nat.mul_succ] at hfull
    omega
  · cases h

theorem chunkSize?_le (hthreads : 1 ≤ threads) (h : chunkSize? units threads = some size) :
    size ≤ units := by
  have hpos : 1 ≤ threads.toNat := UInt64.le_iff_toNat_le.mp hthreads
  refine Nat.not_lt.mp fun hlt => ?_
  have hless := (chunkSize?_least hthreads h).2 units hlt
  have hroom : 1 * units ≤ threads.toNat * units := Nat.mul_le_mul_right units hpos
  omega

end

/-! ### Chunks of a batch -/

/-- Chunks are compiled one by one, each from the place at which it begins. -/
theorem compileChunks_eq_flatten {ν : Type} (c : Compiler) (adapter : Adapter ν) (size number : Nat)
    (cut : List (List SourceUnit)) :
    c.compileChunks adapter size number cut = (cut.mapIdx fun k chunk =>
      c.compileInTurn adapter c.parser ((number + k) * size) chunk).flatten := by
  induction cut generalizing number with
  | nil => rfl
  | cons chunk rest ih =>
      rw [compileChunks, ih, List.mapIdx_cons, List.flatten_cons, Nat.add_zero]
      congr 3
      funext k
      rw [Nat.add_assoc, Nat.add_comm 1 k]

/-- Chunks of a size are right for sources and workers: none is empty and none is larger than the
batch, each source is in one of them, in order, every chunk is told the place of its first source, and
every chunk has a worker. -/
structure CutsUp {ν : Type} (c : Compiler) (adapter : Adapter ν) (sources : List SourceUnit)
    (workers size : Nat) : Prop where
  pos : 1 ≤ size
  le_length : size ≤ sources.length
  flatten : (chunks size sources).flatten = sources
  chunk : ∀ k chunk, (chunks size sources)[k]? = some chunk →
    chunk ≠ [] ∧ chunk = (sources.drop (k * size)).take size ∧ chunk.head? = sources[k * size]?
  places : c.compileChunks adapter size 0 (chunks size sources) =
    ((chunks size sources).mapIdx fun k chunk =>
      c.compileInTurn adapter c.parser (k * size) chunk).flatten
  workers : (chunks size sources).length ≤ workers

theorem CutsUp.of_chunkSize? {ν : Type} (c : Compiler) (adapter : Adapter ν)
    {sources : List SourceUnit} {threads : UInt64} {size : Nat} (hmany : 2 ≤ sources.length)
    (hthreads : 1 ≤ threads) (h : chunkSize? sources.length threads = some size) :
    c.CutsUp adapter sources threads.toNat size := by
  obtain ⟨henough, hleast⟩ := chunkSize?_least hthreads h
  have hpos : 0 < size := Nat.pos_of_ne_zero fun hzero => by
    rw [hzero, Nat.mul_zero] at henough
    omega
  refine ⟨hpos, chunkSize?_le hthreads h, flatten_chunks hpos sources, fun k chunk hchunk => ?_, ?_,
    length_chunks_le hpos henough⟩
  · rw [getElem?_chunks hpos] at hchunk
    split at hchunk
    · rename_i hplace
      obtain rfl := Option.some.inj hchunk
      have hhead : ((sources.drop (k * size)).take size).head? = sources[k * size]? := by
        rw [List.head?_take, if_neg hpos.ne', List.head?_drop]
      refine ⟨fun hnil => ?_, rfl, hhead⟩
      rw [hnil, List.head?_nil, List.getElem?_eq_getElem hplace] at hhead
      cases hhead
    · cases hchunk
  · rw [compileChunks_eq_flatten]
    simp only [Nat.zero_add]

end AspectLang.Compiler

namespace AspectLang

/-- **The chunks of a batch are right for every number of workers for which their size can be
computed**, and it can be computed as long as the sources and the workers together are a 64-bit
word. -/
theorem batch_cut_into_chunks {ν : Type} (c : Compiler) (adapter : Adapter ν)
    (sources : List SourceUnit) (threads : UInt64) (hmany : 2 ≤ sources.length)
    (hthreads : 1 ≤ threads) :
    (Compiler.chunkSize? sources.length threads = none ↔
      UInt64.size ≤ sources.length + threads.toNat) ∧
    ∀ size, Compiler.chunkSize? sources.length threads = some size →
      c.CutsUp adapter sources threads.toNat size :=
  ⟨Compiler.chunkSize?_eq_none_iff, fun _ h => .of_chunkSize? c adapter hmany hthreads h⟩

/-- Three sources for two workers are cut into two chunks, and no worker is left without one. -/
theorem batch_cut_into_two_chunks :
    let c : Compiler := { settings := {}, dialect := .disabled, threads := 2 }
    let sources : List SourceUnit := [⟨"A", "class A \x7b \x7d"⟩, ⟨"B", "class"⟩, ⟨"C", ""⟩]
    Compiler.chunkSize? sources.length 2 = some 2 ∧
      c.CutsUp (Adapter.silent : Adapter Unit) sources 2 2 :=
  ⟨by decide, (batch_cut_into_chunks _ _ _ 2 (by decide) (by decide)).2 2 (by decide)⟩

/-- For two sources and as many workers as a 64-bit word counts there is no size, though every chunk
would be of one source; so the batch is not compiled. -/
theorem no_chunks_for_largest_word :
    let c : Compiler :=
      { settings := {}, dialect := .enabled .aspects, threads := 18446744073709551615 }
    let sources : List SourceUnit :=
      [⟨"A.java", "class A \x7b \x7d"⟩, ⟨"B.java", "class B \x7b int x \x7d"⟩]
    2 ≤ sources.length ∧ 1 ≤ c.threads ∧ Compiler.chunkSize? sources.length c.threads = none ∧
      c.compile (Adapter.silent : Adapter Unit) sources = none := by
  refine ⟨by decide, by decide, by decide, ?_⟩
  unfold Compiler.compile Compiler.compileUnits
  rw [if_neg (by decide)]
  rfl

end AspectLang

/-! ## Reports point into the text

What parsing reports lies in the text of a unit, also where tokens were inserted or the unit was
given up, and the flow of a unit is analysed only if it was read to its end; its statements lie in
the text then, and so does what the analysis reports.  So every diagnostic of a text has its range
there (`reports_in_text`), and the end of the text is the farthest that it can point to. -/

namespace AspectLang

/-- The bytes of a text are those of its characters. -/
theorem Text.byteSize_toList (source : String) : byteSize source.toList = source.utf8ByteSize := by
  have hencoded : ∀ cs : List Char, byteSize cs = cs.utf8Encode.size := by
    intro cs
    induction cs with
    | nil => rfl
    | cons c cs ih =>
        rw [byteSize, ih, List.utf8Encode_cons, ByteArray.size_append, List.utf8Encode_singleton,
          List.size_toByteArray, String.length_utf8EncodeChar]
  rw [hencoded, String.utf8Encode_toList]
  rfl

namespace Compiler

variable {limit : Nat} (c : Compiler) {o : ParseOutcome}

/-- A reporter with the diagnostics of a parsed unit has them in the text if the unit does. -/
theorem endsBy_reporterOf (h : ∀ d ∈ o.diagnostics, d.span.EndsBy limit) :
    (c.reporterOf o).EndsBy limit := by
  unfold reporterOf
  have hstart : (Reporter.new c.settings.maxErrors).EndsBy limit := nofun
  generalize Reporter.new c.settings.maxErrors = r at hstart
  generalize o.diagnostics = ds at h
  induction ds generalizing r with
  | nil => exact hstart
  | cons d ds ih =>
      obtain ⟨hd, hds⟩ := List.forall_mem_cons.mp h
      exact ih _ (hstart.report hd) hds

/-- **What lies in the text is analysed with reports in the text**, whether the unit was given up or
not. -/
theorem endsBy_compiled {g : Spacing} (h : o.Lies g) (source : SourceUnit) :
    ∀ d ∈ (c.compiled source o).diagnostics, d.span.EndsBy g.limit := by
  have hparsed := c.endsBy_reporterOf h.diagnostics
  have hflow : (c.flowOf o).2.reporter.EndsBy g.limit := by
    unfold flowOf
    split
    · exact hparsed
    · rename_i hwhole
      exact CompilationUnit.endsBy_flow (h.statements (Bool.eq_false_iff.mpr hwhole)) hparsed
  exact fun d hd => hflow d (Array.mem_toList_iff.mp hd)

end Compiler

/-- **Reports always point into the text.**  Whatever the text, the settings and the dialect, every
diagnostic of parsing and of the analysis of flow has a range that is not turned around and does not
end behind the end of the text. -/
theorem reports_in_text (settings : Settings) (dialect : Dialect) (source : String) :
    match checkSource settings dialect source with
    | .ok c => ∀ d ∈ c.diagnostics,
        d.span.start ≤ d.span.stop ∧ d.span.stop ≤ source.utf8ByteSize
    | .error _ => True := by
  let c : Compiler := { settings, dialect }
  have hresult : checkSource settings dialect source =
      (c.alone (Adapter.silent : Adapter Unit) 0 ⟨"<source>", source⟩).result := rfl
  have hlies := c.parser.lies_parse (Nat.zero_le 1) source fun _ _ _ _ _ => rfl
  rw [hresult, c.alone_result]
  dsimp only
  cases hparse : (c.parser.parse source).1 with
  | error e => trivial
  | ok o =>
      rw [hparse] at hlies
      have hends := c.endsBy_compiled hlies ⟨"<source>", source⟩
      rw [← Text.byteSize_toList]
      dsimp only
      cases c.failure? (Adapter.silent : Adapter Unit) 0 ⟨"<source>", source⟩ with
      | some reason => trivial
      | none => exact hends

end AspectLang
