import Mdict.Lemmas.Persistent.Rejection
import Mdict.Lemmas.Persistent.Total.Build
import Mdict.Lemmas.Persistent.Total.Header

/-!
This module contains that a build finishes with an artifact, and that the artifact is accepted when
it is opened.
-/

namespace Mdict

open Effect Persistent MdictFile

variable {file : MdictFile} {w : World} {I : Session → Prop} {p : Platform}
variable {options : KeyIndexOptions}

namespace MdictFile

/-! ## The whole build -/

theorem startBuild_total (hI : LogInvariant I) (hpos : 0 < options.chunkBytes)
    (hmin : minBuildMemoryBytes ≤ options.buildMemoryBytes)
    : Ensures w I (startBuild options) (file.Underway w.platform options []) (Stopped w) := by
  have hmin' : 256 ≤ options.buildMemoryBytes := hmin
  have hmaximum : sizeOfRunRecord + 12 ≤ singleLimit options := by
    change 44 ≤ options.buildMemoryBytes / 4
    omega
  have hgoing : Ensures w I (startBuild options) (fun state =>
      state.Going options ([] : List Str).length (plannedTotal file w.platform [])) (Stopped w) := by
    have htakes := SectionScratchWriter.takes_new hpos
    unfold startBuild
    apply Ensures.bind (scratchFile_total hI)
    rintro _ rfl
    apply Ensures.bind (scratchFile_total hI)
    rintro _ rfl
    apply Ensures.bind (scratchFile_total hI)
    rintro _ rfl
    apply Ensures.bind (scratchFile_total hI)
    rintro _ rfl
    apply Ensures.bind (SectionScratchWriter.writeAll_total hI htakes
      (by rw [List.nil_append, Bytes.length_ofLE]; decide))
    intro bounds hbounds
    apply Ensures.pure
    exact {
      text := htakes.ready
      bounds := hbounds.ready
      raw := htakes.ready
      runs := BufferedScratchWriter.ready_new [] options
      buffered := Nat.le_refl 0
      bufferBytes_le := Nat.zero_le _
      bufferBytes_le_total := Nat.le_refl 0
      empty := fun _ => rfl
      allocated := Nat.zero_le _
      maximum := hmaximum
      runCount := Nat.le_refl 0
      recordsCapacity := fun _ => Nat.zero_le _
      normalizedCapacity := fun _ => Nat.zero_le _
      spilled := fun h => absurd rfl h
    }
  apply ((startBuild_gives hI hpos).and_ensures hgoing).mono
  . exact fun _ hstate => ⟨hstate.1, hstate.2⟩
  . exact fun _ he => he

/-- The records of rows that a build can go through can be merged. -/
theorem loads_of_mem_rowRecords {plan : BuildMetadataPlan} {keys : List Str}
    (h : BuildFits file p options plan keys) {record : RunRecord}
    (hrecord : record ∈ rowRecords file p keys)
    : record.Loads options.buildMemoryBytes := by
  obtain ⟨key, hkey, htext⟩ := getElem?_of_mem_rowRecords hrecord
  have hfits : (file.keyText p key).length + 44 ≤ options.buildMemoryBytes / 4 :=
    h.rows key (List.mem_of_getElem? hkey)
  rw [← htext] at hfits
  refine ⟨by omega, ?_⟩
  rw [htext, keyText, Unicode.utf8Decode?_utf8]
  exact Option.some_ne_none _

theorem mergeRuns_rows (hI : LogInvariant I) (hpos : 0 < options.chunkBytes)
    (hmemory : options.buildMemoryBytes < 2 ^ 62) {plan : BuildMetadataPlan} {keys : List Str}
    (hfit : BuildFits file p options plan keys) {contents : Bytes} {runCount total : Nat}
    (h : RunsOf contents runCount [] (rowRecords file p keys)) (hrunCount : runCount ≤ keys.length)
    {maximumRecordBytes : Nat} (hmaximum : maximumRecordBytes ≤ singleLimit options)
    (htotal : options.buildMemoryBytes / 2 < total)
    : Ensures w I (mergeRuns contents runCount keys.length maximumRecordBytes options)
        (fun _ => True) (Falters w options total) := by
  obtain ⟨runs, hcontents, rfl, hfits, hsorted, hperm⟩ := h
  rw [List.append_nil] at hperm
  have hbound : u64Bound = 2 ^ 64 := rfl
  have hmax : u32Max + 1 = 2 ^ 32 := rfl
  have hlen := hfit.length_le
  have hlt := hfit.text_lt
  have hcount : runs.flatten.length = keys.length := by
    rw [hperm.length_eq, rowRecords, List.length_map, List.length_zipIdx]
  have hsize : contents.length < u64Bound := by
    rw [hcontents, length_runsBytes, length_bodyBytes_of_perm hperm, length_bodyBytes_rowRecords]
    omega
  rw [singleLimit] at hmaximum
  rw [← hcount]
  apply (mergeRuns_total hI hpos hcontents hsize hfits hsorted
    (fun record hrecord => loads_of_mem_rowRecords hfit (hperm.mem_iff.mp hrecord))
    (by omega)).mono (fun _ h => h)
  rintro e (he | ⟨-, -, he⟩)
  . exact .inl he
  . exact .inr ⟨htotal, he⟩

/-- The rows are put in order, unless the merge of the runs lacks memory. -/
theorem buildOrder_total (hI : LogInvariant I) (hpos : 0 < options.chunkBytes)
    (hmemory : options.buildMemoryBytes < 2 ^ 62) {plan : BuildMetadataPlan} {keys : List Str}
    (hfit : BuildFits file w.platform options plan keys) (hkeys : keys.length = file.len)
    {state : BuildState} (h : file.Underway w.platform options keys state)
    : Ensures w I (file.buildOrder options state) (fun _ => True)
        (Falters w options (plannedTotal file w.platform keys)) := by
  have hbound : u64Bound = 2 ^ 64 := rfl
  have hmax : u32Max + 1 = 2 ^ 32 := rfl
  have hlen := hfit.length_le
  have hlt := hfit.text_lt
  have hrunCount := h.going.runCount
  unfold buildOrder
  split
  . apply Ensures.mono (Q := fun _ => True) (E := Stopped w) _ (fun _ h => h) fun _ he => .inl he
    apply Ensures.bind (newOrderWriter_total hI hpos)
    intro order horder
    apply Ensures.bind (writeSortedOrder_total hI horder (by rw [List.length_nil]; omega))
    intro order horder
    exact (SectionScratchWriter.intoSection_total hI horder .order).mono (fun _ _ => trivial)
      fun _ he => he
  . next hspilled =>
    have hmerge (writer : BufferedScratchWriter) (hready : writer.Ready) (runCount : Nat)
        (hle : runCount ≤ keys.length)
        (hruns : RunsOf writer.contents runCount [] (rowRecords file w.platform keys))
        : Ensures w I (writer.intoFile >>= fun runs =>
            mergeRuns runs runCount file.len state.maximumRecordBytes options)
          (fun _ => True) (Falters w options (plannedTotal file w.platform keys)) := by
      apply Ensures.bind ((BufferedScratchWriter.intoFile_total hI hready).mono (fun _ h => h)
        fun _ he => .inl he)
      rintro _ rfl
      rw [← hkeys]
      exact mergeRuns_rows hI hpos hmemory hfit hruns hle h.going.maximum (h.going.spilled hspilled)
    have hrunFits := h.holds.runFits (by omega)
    dsimp only
    split
    . next hmore =>
      have hpositive := List.length_pos_iff.mpr hmore
      apply Ensures.bind ((writeSortedRun_total hI h.holds.within.filled hrunFits h.going.runs).mono
        (fun _ h => h) fun _ he => .inl he)
      rintro writer ⟨hwriter, hready⟩
      have hruns := h.holds.runs.spill hrunFits
      rw [← hwriter] at hruns
      rw [checkedAdd_of_lt (by omega), okOr_some, Prog.ok_bind]
      exact hmerge writer hready _ (show state.runCount + 1 ≤ keys.length by omega) hruns
    . next hempty =>
      have hruns := h.holds.runs
      rw [SortBuffer.rows, Decidable.not_not.mp hempty, List.map_nil] at hruns
      exact hmerge state.runs h.going.runs _ (by omega) hruns

/-- What a build asks of its options and of a dictionary whose key blocks decode. -/
structure Buildable (file : MdictFile) (p : Platform) (options : KeyIndexOptions)
    (blocks : List (List DecodedKeyRow))
    : Prop where
  valid : validateOptions options = .ok ()
  memory : options.buildMemoryBytes < 2 ^ 62
  kind : file.kind = .mdx
  len_le : file.len ≤ u32Max
  decodes : file.DecodesTo p blocks
  rows : ∀ key ∈ keysOf blocks, RowFits file p options key
  text : (file.locatorOf p (keysOf blocks)).text.length < 2 ^ 63
  metadata : metadataLen options file.len (file.locatorOf p (keysOf blocks)).text.length
    ≤ options.maxMetadataBytes
  total : indexLen options file.len (file.locatorOf p (keysOf blocks)).text.length
    ≤ options.maxIndexBytes

section Build

variable {blocks : List (List DecodedKeyRow)} {before : KeyIndexSourceIdentity}

theorem minBuildMemoryBytes_le (h : validateOptions options = .ok ())
    : minBuildMemoryBytes ≤ options.buildMemoryBytes := by
  simp only [validateOptions, except_bind_eq_ok, failIf_eq_ok, Nat.not_lt] at h
  exact h.choose_spec.1

/-- The lengths of the normalized keys. -/
def keyLens (file : MdictFile) (p : Platform) (keys : List Str) : List Nat :=
  keys.map fun key => (file.keyText p key).length

theorem sum_keyLens (keys : List Str)
    : (file.keyLens p keys).sum = (file.locatorOf p keys).text.length := by
  rw [keyLens, locatorOf, KeyLocator.ofTexts, List.length_flatten, List.map_map]
  rfl

theorem length_sectionBytes (keys : List Str) (kind : SectionKind)
    : ((file.locatorOf p keys).sectionBytes kind).length
        = sectionLen keys.length (file.locatorOf p keys).text.length kind := by
  cases kind with
  | text => rfl
  | bounds =>
    rw [KeyLocator.sectionBytes, length_flatMap_ofLE, locatorOf, KeyLocator.ofTexts,
      List.length_map, List.length_map, List.length_range, sectionLen]
  | raw =>
    rw [KeyLocator.sectionBytes, length_flatMap_ofLE, locatorOf, KeyLocator.ofTexts,
      List.length_map, sectionLen]
  | order =>
    rw [KeyLocator.sectionBytes, length_flatMap_ofLE, (sorted_locatorOf _).length_eq, sectionLen]

theorem Buildable.finished (h : file.Buildable p options blocks)
    : Finished options (file.keyLens p (keysOf blocks))
        ((file.locatorOf p (keysOf blocks)).sections options) := by
  have haccepted := accepted_of_validateOptions h.valid
  have hbound : u64Bound = 2 ^ 64 := rfl
  have hmax : u32Max + 1 = 2 ^ 32 := rfl
  have hchunk : options.chunkBytes < 2 ^ 32 := haccepted.chunkBytes_lt
  have htext := h.text
  have hlen := h.len_le
  have hkeys := h.decodes.length_keysOf
  apply finished_sectionOf haccepted
  . intro kind
    rw [length_sectionBytes, sum_keyLens, keyLens, List.length_map]
  . intro kind
    rw [length_sectionBytes, hkeys]
    cases kind <;> dsimp only [sectionLen] <;> omega

/-- The index that a build makes of the dictionary. -/
theorem Buildable.exists_built (h : file.Buildable p options blocks)
    (hown : file.OwnIdentity before)
    : ∃ built, file.IndexBuilt p options blocks built ∧ built.report.sourceIdentity = before
        ∧ built.report.bytesWritten
          = indexLen options file.len (file.locatorOf p (keysOf blocks)).text.length := by
  have hrowLens : (file.keyLens p (keysOf blocks)).length = file.len := by
    rw [keyLens, List.length_map, h.decodes.length_keysOf]
  obtain ⟨header, descriptors, hheader⟩ := buildHeader_total (accepted_of_validateOptions h.valid)
    h.finished (by rw [hrowLens]; exact h.len_le) (by rw [sum_keyLens]; exact h.text)
    (by rw [hrowLens, sum_keyLens]; exact h.metadata)
    (by rw [hrowLens, sum_keyLens]; exact h.total) before
  rw [sum_keyLens, hrowLens] at hheader
  exact ⟨{
      header
      sections := (file.locatorOf p (keysOf blocks)).sections options
      descriptors
      report := ⟨before, indexLen options file.len (file.locatorOf p (keysOf blocks)).text.length⟩ },
    ⟨h.valid, h.kind, h.len_le, h.decodes, hown, rfl, hheader⟩, rfl, rfl⟩

theorem checkRowSections_sections {keys : List Str} (hlen : 8 * (keys.length + 1) < u64Bound)
    (hkeys : keys.length = file.len)
    : file.checkRowSections
        (sectionOf .bounds options ((file.locatorOf p keys).sectionBytes .bounds))
        (sectionOf .raw options ((file.locatorOf p keys).sectionBytes .raw)) = .ok () := by
  have hbounds : (sectionOf .bounds options ((file.locatorOf p keys).sectionBytes .bounds)).len
      = 8 * (keys.length + 1) := length_sectionBytes keys .bounds
  have hraw : (sectionOf .raw options ((file.locatorOf p keys).sectionBytes .raw)).len
      = 4 * keys.length := length_sectionBytes keys .raw
  rw [checkRowSections, ← hkeys, checkedAdd_of_lt (by omega), Option.bind_some,
    checkedMul_of_lt (by omega), okOr_some, except_ok_bind, hbounds, failIf_of_not (by omega),
    except_ok_bind, checkedMul_of_lt (by omega), okOr_some, except_ok_bind, hraw,
    failIf_of_not (by omega)]

theorem buildIndex_total (hI : file.Invariant w.platform I) (hgrow : w.platform.GrowsAmortized)
    (h : file.Buildable w.platform options blocks) (hunchanged : file.Unchanged w before)
    : Ensures w I (file.buildIndex options)
        (fun built => file.IndexBuilt w.platform options blocks built
          ∧ built.report.sourceIdentity = before
          ∧ built.report.bytesWritten = indexLen options file.len
            (file.locatorOf w.platform (keysOf blocks)).text.length)
        (Falters w options (plannedTotal file w.platform (keysOf blocks))) := by
  have hbound : u64Bound = 2 ^ 64 := rfl
  have hmax : u32Max + 1 = 2 ^ 32 := rfl
  have haccepted := accepted_of_validateOptions h.valid
  have hmin := minBuildMemoryBytes_le h.valid
  have hpos := chunkBytes_pos h.valid
  have hkeys := h.decodes.length_keysOf
  have hlen := h.len_le
  have htext := h.text
  have hstopped {e : Error} (he : Stopped w e)
      : Falters w options (plannedTotal file w.platform (keysOf blocks)) e := .inl he
  obtain ⟨plan, hplan, hplanText⟩ := buildMetadataPlan_of_fits haccepted hlen (by omega) h.metadata
  have hfit : BuildFits file w.platform options plan (keysOf blocks) :=
    ⟨by rw [hkeys]; exact hlen, h.rows, htext, hplanText⟩
  unfold buildIndex
  rw [h.valid, Prog.ok_bind, failIf_of_not (fun hne => hne h.kind), Prog.ok_bind,
    failIf_of_not (Nat.not_lt.mpr hlen), Prog.ok_bind]
  apply Ensures.bind ((sourceIdentity_gives hI.events).and_ensures
    ((sourceIdentity_total hI.events hunchanged).mono (fun _ h => h) fun _ he => hstopped he))
  rintro identity ⟨hown, hidentity⟩
  subst identity
  rw [hplan, Prog.ok_bind]
  apply Ensures.bind ((startBuild_total hI.events hpos hmin).mono (fun _ h => h)
    fun _ he => hstopped he)
  intro state hstate
  -- After `i` blocks the build has gone through the rows of the first `i` blocks.
  apply Ensures.bind (R := file.Underway w.platform options (keysOf blocks))
  . rw [← h.decodes.length_eq]
    have hblocks : blocks.take blocks.length = blocks := List.take_length
    conv =>
      arg 4
      rw [← hblocks]
    apply Ensures.foldlM_range (J := fun i (state : BuildState) =>
      file.Underway w.platform options (keysOf (blocks.take i)) state)
    . intro i state hi hi'
      exact buildBlock_underway hgrow hmin h.memory hfit hI h.decodes rfl hunchanged hi hi'
    . exact hstate
  intro state hunderway
  have hbuilt := hunderway.holds.builtRows
  rw [hkeys] at hbuilt
  rw [failIf_of_not (fun hne => hne hbuilt), Prog.ok_bind]
  apply Ensures.bind ((SectionScratchWriter.intoSection_total hI.events
    ⟨hunderway.holds.text, hunderway.going.text⟩ .text).mono (fun _ h => h) fun _ he => hstopped he)
  rintro _ rfl
  apply Ensures.bind ((SectionScratchWriter.intoSection_total hI.events
    ⟨hunderway.holds.bounds, hunderway.going.bounds⟩ .bounds).mono (fun _ h => h)
    fun _ he => hstopped he)
  rintro _ rfl
  apply Ensures.bind ((SectionScratchWriter.intoSection_total hI.events
    ⟨hunderway.holds.raw, hunderway.going.raw⟩ .raw).mono (fun _ h => h) fun _ he => hstopped he)
  rintro _ rfl
  rw [checkRowSections_sections (by omega) hkeys, Prog.ok_bind]
  apply Ensures.bind ((buildOrder_gives hI.events hpos hunderway.holds).and_ensures
    (buildOrder_total hI.events hpos h.memory hfit hkeys hunderway))
  rintro _ ⟨rfl, -⟩
  obtain ⟨built, hbuilt, hidentity, hwritten⟩ := h.exists_built hown
  have hheader := hbuilt.header
  rw [hbuilt.sections, hidentity] at hheader
  rw [hunderway.holds.textLen]
  have hsections : (file.locatorOf w.platform (keysOf blocks)).sections options
      = [sectionOf .text options ((file.locatorOf w.platform (keysOf blocks)).sectionBytes .text),
        sectionOf .bounds options ((file.locatorOf w.platform (keysOf blocks)).sectionBytes .bounds),
        sectionOf .raw options ((file.locatorOf w.platform (keysOf blocks)).sectionBytes .raw),
        sectionOf .order options ((file.locatorOf w.platform (keysOf blocks)).sectionBytes .order)] :=
    rfl
  dsimp only
  rw [← hsections, hheader, Prog.ok_bind]
  exact .pure ⟨⟨h.valid, h.kind, hlen, h.decodes, hown, rfl, hheader⟩, rfl, hwritten⟩

theorem IndexBuilt.writeBuiltIndex_total (hI : LogInvariant I) {built : BuiltIndex}
    (h : file.IndexBuilt p options blocks built) {destination : Destination}
    (hshort : destination.bytes.length ≤ built.report.bytesWritten)
    : Ensures w I (writeBuiltIndex built destination options.chunkBytes)
        (· = ⟨builtBytes built, built.report.bytesWritten⟩) (Stopped w) := by
  obtain ⟨checksumCount, hbuilt⟩ := headerBuilt_of_buildHeader h.header h.sectionsOf.kinds
  apply (hbuilt.writeBuiltIndex_ensures hI h.sectionsOf (chunkBytes_pos h.valid) destination).mono
  . rintro ⟨bytes, position⟩ ⟨rfl, rfl⟩
    rfl
  . rintro e (he | hlong)
    . exact .inr he
    . exact absurd hlong (Nat.not_lt.mpr hshort)

/-- The artifact, whatever history the dictionary has had. -/
theorem buildToPath_total (hI : file.Invariant w.platform I) (hgrow : w.platform.GrowsAmortized)
    (h : file.Buildable w.platform options blocks) (hunchanged : file.Unchanged w before)
    : Ensures w I (file.buildToPath options)
        (fun result => ∃ built, file.IndexBuilt w.platform options blocks built
          ∧ result = (built.report, builtBytes built) ∧ built.report.sourceIdentity = before)
        (Falters w options (plannedTotal file w.platform (keysOf blocks))) := by
  unfold buildToPath
  apply Ensures.bind (buildIndex_total hI hgrow h hunchanged)
  rintro built ⟨hbuilt, hidentity, -⟩
  have hio : Ensures w I Exec.io (fun _ => True)
      (Falters w options (plannedTotal file w.platform (keysOf blocks))) :=
    io_ensures.mono (fun _ h => h) fun _ he => .inl (.inr he)
  apply Ensures.bind (log_ensures hI.events)
  intro _ _
  apply Ensures.bind hio
  intro _ _
  apply Ensures.bind ((hbuilt.writeBuiltIndex_total hI.events (Nat.zero_le _)).mono (fun _ h => h)
    fun _ he => .inl he)
  rintro _ rfl
  apply Ensures.bind (log_ensures hI.events)
  intro _ _
  apply Ensures.bind hio
  intro _ _
  rw [hidentity]
  apply Ensures.bind ((ensureSourceUnchanged_total hI.events hunchanged _).mono (fun _ h => h)
    fun _ he => .inl he)
  intro _ _
  exact .pure ⟨built, hbuilt, rfl, hidentity⟩

/-- A destination that is no longer than the index takes it as well. -/
theorem buildToWriter_total (hI : file.Invariant w.platform I) (hgrow : w.platform.GrowsAmortized)
    (h : file.Buildable w.platform options blocks) (hunchanged : file.Unchanged w before)
    {destination : Destination}
    (hshort : destination.bytes.length ≤ indexLen options file.len
      (file.locatorOf w.platform (keysOf blocks)).text.length)
    : Ensures w I (file.buildToWriter destination options)
        (fun result => ∃ built, file.IndexBuilt w.platform options blocks built
          ∧ result = (built.report, ⟨builtBytes built, built.report.bytesWritten⟩)
          ∧ built.report.sourceIdentity = before)
        (Falters w options (plannedTotal file w.platform (keysOf blocks))) := by
  unfold buildToWriter
  apply Ensures.bind (buildIndex_total hI hgrow h hunchanged)
  rintro built ⟨hbuilt, hidentity, hwritten⟩
  apply Ensures.bind ((hbuilt.writeBuiltIndex_total hI.events (by rw [hwritten]; exact hshort)).mono
    (fun _ h => h) fun _ he => .inl he)
  rintro _ rfl
  rw [hidentity]
  apply Ensures.bind ((ensureSourceUnchanged_total hI.events hunchanged _).mono (fun _ h => h)
    fun _ he => .inl he)
  intro _ _
  exact .pure ⟨built, hbuilt, rfl, hidentity⟩

/-! ## Opening the artifact -/

theorem IndexBuilt.length_builtBytes {built : BuiltIndex}
    (h : file.IndexBuilt p options blocks built)
    : (builtBytes built).length = built.report.bytesWritten := by
  obtain ⟨checksumCount, hbuilt⟩ := headerBuilt_of_buildHeader h.header h.sectionsOf.kinds
  exact hbuilt.length_builtBytes h.sectionsOf

/-- The artifact is accepted with the options it was built with, as long as the source is the same. -/
theorem IndexBuilt.openFile_total {built : BuiltIndex}
    (h : file.IndexBuilt w.platform options blocks built)
    (hunchanged : file.Unchanged w built.report.sourceIdentity)
    : Ensures w (fun _ => True)
        (PersistentKeyIndex.openFile (builtBytes built) file built.report.sourceIdentity options)
        (fun _ => True) (Interrupted w) := by
  have hlog : LogInvariant fun _ => True := fun _ _ _ => trivial
  have hsections := h.sectionsOf
  obtain ⟨checksumCount, hbuilt⟩ := headerBuilt_of_buildHeader h.header hsections.kinds
  rw [← h.identity.keyCount] at hsections
  have hlen := h.length_builtBytes
  have hread := @HeaderBuilt.readIndexHeader _ _ _ _ _ _ _ _ w.platform { bytes := builtBytes built }
    _ hbuilt hsections h.valid h.identity.sourceBytes_lt
    (by rw [h.identity.keyCount]; exact h.len_le) (List.append_assoc _ _ _) hlen
  have hlayout : validateSectionLayout { bytes := builtBytes built } (HeaderBuilt.indexHeader
      built.report.sourceIdentity (file.locatorOf w.platform (keysOf blocks)).text.length options
      built.descriptors built.report.bytesWritten checksumCount) = .ok () :=
    hbuilt.validateSectionLayout hsections hlen
  have hmetadata := hbuilt.metadata_lt
  have hmax : (builtBytes built).length ≤ options.maxIndexBytes := by
    rw [hlen]
    exact hbuilt.totalLen_le
  have hquietly {α : Type} {x : Exec α} {a : α} (hx : Yields w.platform x (.ok a))
      : Ensures w (fun _ => True) x (· = a) (Interrupted w) :=
    Answers.ensures (hx.ensures rfl hlog) rfl fun _ he => he
  unfold PersistentKeyIndex.openFile
  rw [h.valid, Prog.ok_bind]
  apply Ensures.bind (hquietly Yields.log)
  intro _ _
  apply Ensures.bind (hquietly Yields.io)
  intro _ _
  dsimp only
  rw [ensureLimit_of_le (show (IndexSource.mk (builtBytes built)).len ≤ _ from hmax), Prog.ok_bind]
  apply Ensures.bind (hquietly hread)
  rintro _ rfl
  rw [failIf_of_not (fun hne => hne rfl), Prog.ok_bind]
  apply Ensures.bind ((validateDictionaryIdentity_ensures hlog _).mono (fun _ h => h) fun e he =>
    he.resolve_right fun hchanged => hchanged.2 hunchanged)
  intro _ _
  rw [hlayout, Prog.ok_bind]
  obtain ⟨size, hsize⟩ := @cacheBytes_isOk options (HeaderBuilt.indexHeader
    built.report.sourceIdentity (file.locatorOf w.platform (keysOf blocks)).text.length options
    built.descriptors built.report.bytesWritten checksumCount) h.valid (Nat.le_refl _)
    (by change checksumCount * 4 < u64Bound; omega) options.checksumPolicy
  rw [hsize, Prog.ok_bind]
  apply Ensures.bind (hquietly Yields.reserve)
  intro _ _
  apply Ensures.modify_bind (fun _ _ => trivial)
  exact .pure trivial

end Build

end MdictFile

end Mdict
