import Mdict.Core.Persistent.Build
import Mdict.Lemmas.Locator
import Mdict.Lemmas.Persistent.Merge
import Mdict.Lemmas.Persistent.Rows
import Mdict.Lemmas.Persistent.Write

/-!
This module contains what a build produces: the sections are the locator of the dictionary written
out, whatever memory the build had.
-/

namespace Mdict

open Effect Persistent MdictFile

variable {file : MdictFile} {w : World} {I : Session → Prop} {p : Platform}
variable {options : KeyIndexOptions}

/-! ## The sections of an index -/

namespace KeyLocator

variable (locator : KeyLocator)

/-- The bytes of a section that holds a locator. -/
def sectionBytes : SectionKind → Bytes
  | .text => locator.text
  | .bounds => locator.bounds.flatMap (Bytes.ofLE 8)
  | .raw => locator.rawDigest.flatMap (Bytes.ofLE 4)
  | .order => locator.order.flatMap (Bytes.ofLE 4)

/-- The sections that hold a locator. -/
def sections (options : KeyIndexOptions) : List SectionFile :=
  SectionKind.all.map fun kind => sectionOf kind options (locator.sectionBytes kind)

end KeyLocator

theorem locatorOf_concat (keys : List Str) (key : Str)
    : (file.locatorOf p (keys ++ [key])).text = (file.locatorOf p keys).text ++ file.keyText p key
        ∧ (file.locatorOf p (keys ++ [key])).bounds
          = (file.locatorOf p keys).bounds
            ++ [((file.locatorOf p keys).text ++ file.keyText p key).length]
        ∧ (file.locatorOf p (keys ++ [key])).rawDigest
          = (file.locatorOf p keys).rawDigest ++ [rawDigest key] := by
  obtain ⟨htext, hbounds⟩ := KeyLocator.ofTexts_concat (keys.map (file.keyText p))
    ((keys ++ [key]).map rawDigest) (file.keyText p key)
  rw [locatorOf, locatorOf, List.map_append, List.map_singleton]
  exact ⟨htext, hbounds, List.map_append⟩

/-- The records of the rows with these keys. -/
def rowRecords (file : MdictFile) (p : Platform) (keys : List Str) : List RunRecord :=
  keys.zipIdx.map fun row => ⟨file.keyText p row.1, row.2⟩

theorem rowRecords_concat (keys : List Str) (key : Str)
    : rowRecords file p (keys ++ [key])
        = rowRecords file p keys ++ [⟨file.keyText p key, keys.length⟩] := by
  rw [rowRecords, rowRecords, List.zipIdx_append, List.map_append, Nat.zero_add]
  rfl

theorem map_ordinal_rowRecords (keys : List Str)
    : (rowRecords file p keys).map (·.ordinal) = List.range keys.length := by
  rw [rowRecords, List.map_map, List.range_eq_range', ← List.zipIdx_map_snd 0 keys]
  rfl

theorem getElem?_of_mem_rowRecords {keys : List Str} {record : RunRecord}
    (h : record ∈ rowRecords file p keys)
    : ∃ key, keys[record.ordinal]? = some key ∧ record.normalized = file.keyText p key := by
  obtain ⟨⟨key, ordinal⟩, hmem, rfl⟩ := List.mem_map.mp h
  exact ⟨key, by simpa using List.mem_zipIdx_iff_getElem?.mp hmem, rfl⟩

/-- Sorting the rows gives the order of the locator. -/
theorem map_ordinal_sorted (keys : List Str)
    : (KWayMerge.sorted (rowRecords file p keys)).map (·.ordinal)
        = (file.locatorOf p keys).order := by
  have hperm := (KWayMerge.sorted_perm (rowRecords file p keys)).map (·.ordinal)
  rw [map_ordinal_rowRecords] at hperm
  have hrow (record : RunRecord) (h : record ∈ KWayMerge.sorted (rowRecords file p keys))
      : (file.locatorOf p keys).row record.ordinal = record.normalized := by
    obtain ⟨key, hkey, htext⟩ := getElem?_of_mem_rowRecords
      ((KWayMerge.sorted_perm (rowRecords file p keys)).mem_iff.mp h)
    rw [row_locatorOf hkey, htext]
  apply SortedIndex.Sorted.unique _ (sorted_locatorOf keys)
  refine ⟨hperm, ?_⟩
  have hnodup : ((KWayMerge.sorted (rowRecords file p keys)).map (·.ordinal)).Nodup :=
    hperm.nodup_iff.mpr List.nodup_range
  rw [List.Nodup, List.pairwise_map] at hnodup
  rw [List.pairwise_map]
  apply ((KWayMerge.pairwise_sorted (rowRecords file p keys)).and hnodup).imp_of_mem
  rintro left right hleft hright ⟨hle, hne⟩
  rw [SortedIndex.Before, hrow left hleft, hrow right hright]
  rcases RunRecord.le_iff.mp hle with hlt | ⟨heq, hle⟩
  . exact .inl hlt
  . exact .inr ⟨heq, by omega⟩

theorem orderBytes_sorted (keys : List Str)
    : orderBytes (KWayMerge.sorted (rowRecords file p keys))
        = (file.locatorOf p keys).sectionBytes .order := by
  rw [KeyLocator.sectionBytes, ← map_ordinal_sorted, List.flatMap_map, orderBytes]

/-! ## The loop of a build -/

namespace Persistent

/-- Every record of the buffer lies in the arena. -/
def SortBuffer.Within (buffer : SortBuffer) : Prop :=
  ∀ record ∈ buffer.records,
    record.start + record.len ≤ buffer.normalized.length ∧ record.ordinal < u32Bound

namespace SortBuffer.Within

variable {buffer : SortBuffer}

theorem filled (h : buffer.Within) : buffer.Filled := by
  intro record hrecord
  have := (h record hrecord).1
  rw [SortBuffer.key, List.length_take, List.length_drop]
  omega

/-- The texts stay what they are when the arena grows. -/
theorem rows_append (h : buffer.Within) (more : Bytes)
    : SortBuffer.rows { buffer with normalized := buffer.normalized ++ more } = buffer.rows := by
  apply List.map_congr_left
  intro record hrecord
  have := (h record hrecord).1
  rw [SortBuffer.key, SortBuffer.key, List.drop_append_of_le_length (by omega),
    List.take_append_of_le_length (by rw [List.length_drop]; omega)]

end SortBuffer.Within

/--
The scratch file of a build holds sorted runs: together with what is buffered, they have all these
records.
-/
def RunsOf (contents : Bytes) (runCount : Nat) (buffered records : List RunRecord) : Prop :=
  ∃ runs, contents = runsBytes runs ∧ runCount = runs.length ∧ (∀ run ∈ runs, RunFits run)
    ∧ (∀ run ∈ runs, run.Pairwise (· ≤ ·)) ∧ (runs.flatten ++ buffered).Perm records

/-- What is buffered becomes the last run. -/
theorem RunsOf.spill {contents : Bytes} {runCount : Nat} {buffered records : List RunRecord}
    (h : RunsOf contents runCount buffered records) (hfits : RunFits (KWayMerge.sorted buffered))
    : RunsOf (contents ++ runBytes (KWayMerge.sorted buffered)) (runCount + 1) [] records := by
  obtain ⟨runs, rfl, rfl, hruns, hsorted, hperm⟩ := h
  refine ⟨runs ++ [KWayMerge.sorted buffered], ?_, ?_, ?_, ?_, ?_⟩
  . rw [runsBytes_append, runsBytes, runsBytes, List.flatMap_singleton]
  . rw [List.length_append]
    rfl
  . intro run hrun
    rcases List.mem_append.mp hrun with hrun | hrun
    . exact hruns run hrun
    . rw [List.mem_singleton.mp hrun]
      exact hfits
  . intro run hrun
    rcases List.mem_append.mp hrun with hrun | hrun
    . exact hsorted run hrun
    . rw [List.mem_singleton.mp hrun]
      exact KWayMerge.pairwise_sorted _
  . apply List.Perm.trans _ hperm
    rw [List.flatten_append, List.flatten_singleton, List.append_nil]
    exact (KWayMerge.sorted_perm _).append_left _

/-- What a build has done when it has gone through these keys. -/
structure BuildState.Holds (file : MdictFile) (p : Platform) (options : KeyIndexOptions)
    (keys : List Str) (state : BuildState)
    : Prop where
  text : state.text.Holds options ((file.locatorOf p keys).sectionBytes .text)
  bounds : state.bounds.Holds options ((file.locatorOf p keys).sectionBytes .bounds)
  raw : state.raw.Holds options ((file.locatorOf p keys).sectionBytes .raw)
  textLen : state.normalizedTextLen = (file.locatorOf p keys).text.length
  textLen_lt : state.normalizedTextLen < u64Bound
  builtRows : state.builtRows = keys.length
  within : state.buffer.Within
  runs : RunsOf state.runs.contents state.runCount state.buffer.rows (rowRecords file p keys)

theorem spillBuffer_gives (hI : LogInvariant I) {keys : List Str} {state : BuildState}
    (h : state.Holds file p options keys) (nextBuffer : Nat)
    : Gives w I (spillBuffer state options nextBuffer)
        (fun next => next.Holds file p options keys) := by
  unfold spillBuffer
  split
  . apply Gives.bind (writeSortedRun_gives hI h.within.filled
      (fun record hrecord => (h.within record hrecord).2) state.runs)
    rintro writer ⟨hwriter, hrunFits⟩
    apply Gives.liftM_bind
    intro runCount hrunCount
    rw [okOr_eq_ok, checkedAdd_eq_some] at hrunCount
    obtain ⟨rfl, -⟩ := hrunCount
    have hruns := h.runs.spill hrunFits
    rw [← hwriter] at hruns
    apply Gives.pure
    exact ⟨h.text, h.bounds, h.raw, h.textLen, h.textLen_lt, h.builtRows,
      fun record hrecord => by contradiction, hruns⟩
  . exact .pure h

theorem reserveRecord_gives (buffer : SortBuffer) (normalizedUpper maximum : Nat)
    : Gives w I (buffer.reserveRecord normalizedUpper maximum)
        (fun next => next.normalized = buffer.normalized ∧ next.records = buffer.records) := by
  unfold SortBuffer.reserveRecord
  apply gives_platform_bind
  apply Gives.liftM_bind
  intro _ _
  apply Gives.liftM_bind
  intro _ _
  exact .pure ⟨rfl, rfl⟩

theorem appendNormalized_gives (plan : RecordPlan) (buffer : SortBuffer) (key : Str)
    : Gives w I (appendNormalized file options plan buffer key)
        (fun result => result.1.normalized = buffer.normalized ++ file.keyText w.platform key
          ∧ result.1.records = buffer.records
          ∧ result.2 = (file.keyText w.platform key).length) := by
  unfold appendNormalized
  apply Gives.bind (reserveRecord_gives buffer _ _)
  rintro next ⟨hnormalized, hrecords⟩
  apply gives_platform_bind
  rw [KeyNormalizer.normalizeBytes_eq]
  dsimp only
  apply Gives.liftM_bind
  intro _ _
  apply Gives.liftM_bind
  intro _ _
  apply Gives.pure
  exact ⟨by rw [hnormalized]; rfl, hrecords, rfl⟩

theorem buildRow_gives (hI : LogInvariant I) {keys : List Str} {state : BuildState}
    (h : state.Holds file w.platform options keys) (metadataPlan : BuildMetadataPlan)
    (hordinal : keys.length < u32Bound) (entry : DecodedKeyRow)
    : Gives w I (buildRow file options metadataPlan state keys.length entry)
        (fun next => next.Holds file w.platform options (keys ++ [entry.key])) := by
  obtain ⟨htext, hbounds, hraw⟩ := @locatorOf_concat file w.platform keys entry.key
  unfold buildRow
  apply gives_platform_bind
  apply Gives.liftM_bind
  intro plan _
  apply Gives.liftM_bind
  intro nextBuffer _
  apply Gives.bind (spillBuffer_gives hI h nextBuffer)
  intro spilled hspilled
  dsimp only
  apply Gives.bind (appendNormalized_gives plan spilled.buffer entry.key)
  rintro ⟨⟨_, _, normalizedCapacity, recordsCapacity⟩, _⟩ ⟨rfl, rfl, rfl⟩
  dsimp only
  apply Gives.liftM_bind
  intro recordBytes _
  apply Gives.liftM_bind
  intro _ _
  apply Gives.liftM_bind
  intro textLen htextLen
  rw [okOr_eq_ok, checkedAdd_eq_some, hspilled.textLen, ← List.length_append] at htextLen
  obtain ⟨rfl, htextLt⟩ := htextLen
  apply Gives.liftM_bind
  intro _ _
  rw [List.drop_left]
  apply Gives.bind (SectionScratchWriter.writeAll_gives hI hspilled.text _)
  intro text hnextText
  apply Gives.bind (SectionScratchWriter.writeU64_gives hI hspilled.bounds _)
  intro bounds hnextBounds
  apply Gives.bind (SectionScratchWriter.writeU32_gives hI hspilled.raw _)
  intro raw hnextRaw
  apply Gives.liftM_bind
  intro bufferBytes _
  apply Gives.liftM_bind
  intro builtRows hbuiltRows
  rw [okOr_eq_ok, checkedAdd_eq_some] at hbuiltRows
  obtain ⟨rfl, -⟩ := hbuiltRows
  apply Gives.pure
  obtain ⟨runs, hcontents, hcount, hfits, hsorted, hperm⟩ := hspilled.runs
  have hrows : SortBuffer.rows {
        normalized := spilled.buffer.normalized ++ file.keyText w.platform entry.key
        records := spilled.buffer.records ++ [{
          start := spilled.buffer.normalized.length
          len := (file.keyText w.platform entry.key).length
          ordinal := keys.length }]
        normalizedCapacity
        recordsCapacity }
      = spilled.buffer.rows ++ [⟨file.keyText w.platform entry.key, keys.length⟩] := by
    rw [← hspilled.within.rows_append (file.keyText w.platform entry.key), SortBuffer.rows,
      List.map_append, List.map_singleton]
    simp only [SortBuffer.key, List.drop_left, List.take_length]
    rfl
  refine ⟨?_, ?_, ?_, ?_, htextLt, ?_, ?_, runs, hcontents, hcount, hfits, hsorted, ?_⟩
  . rw [KeyLocator.sectionBytes, htext]
    exact hnextText
  . rw [KeyLocator.sectionBytes, hbounds, List.flatMap_append, List.flatMap_singleton]
    exact hnextBounds
  . rw [KeyLocator.sectionBytes, hraw, List.flatMap_append, List.flatMap_singleton]
    exact hnextRaw
  . rw [htext]
  . dsimp only
    rw [hspilled.builtRows, List.length_append, List.length_singleton]
  . intro record hrecord
    dsimp only at hrecord ⊢
    rw [List.length_append]
    rcases List.mem_append.mp hrecord with hrecord | hrecord
    . have := hspilled.within record hrecord
      omega
    . rw [List.mem_singleton.mp hrecord]
      exact ⟨Nat.le_refl _, hordinal⟩
  . dsimp only
    rw [hrows, rowRecords_concat, ← List.append_assoc]
    exact hperm.append_right _

end Persistent

namespace MdictFile

theorem startBuild_gives (hI : LogInvariant I) (hpos : 0 < options.chunkBytes)
    : Gives w I (startBuild options) (fun state => state.Holds file p options []) := by
  unfold startBuild
  apply Gives.bind (scratchFile_gives hI)
  rintro _ rfl
  apply Gives.bind (scratchFile_gives hI)
  rintro _ rfl
  apply Gives.bind (scratchFile_gives hI)
  rintro _ rfl
  apply Gives.bind (scratchFile_gives hI)
  rintro _ rfl
  have hnew := SectionScratchWriter.holds_new hpos (scratchWriteBufferBytes options)
  apply Gives.bind (SectionScratchWriter.writeU64_gives hI hnew 0)
  intro bounds hbounds
  apply Gives.pure
  refine ⟨hnew, hbounds, hnew, rfl, show 0 < u64Bound by decide, rfl, fun _ h => by contradiction,
    [], ?_, rfl, fun _ h => by contradiction, fun _ h => by contradiction, List.Perm.refl _⟩
  exact BufferedScratchWriter.contents_new _ _

/-- The current identity of a dictionary has its length and its number of keys. -/
structure OwnIdentity (file : MdictFile) (identity : KeyIndexSourceIdentity) : Prop where
  sourceBytes : identity.sourceBytes = file.source.len
  sourceBytes_lt : identity.sourceBytes < u64Bound
  keyCount : identity.keyCount = file.len

theorem sourceIdentity_gives (hI : LogInvariant I)
    : Gives w I file.sourceIdentity file.OwnIdentity := by
  unfold sourceIdentity
  apply Gives.bind (Gives.of_ensures (currentIdentity_ensures hI))
  rintro current -
  apply Gives.liftM_bind
  intro _ hlen
  rw [failIf_eq_ok, Decidable.not_not] at hlen
  exact .pure ⟨hlen, current.len_lt, rfl⟩

theorem ensureSourceUnchanged_gives (hI : LogInvariant I) (expected : KeyIndexSourceIdentity)
    (operation : String)
    : Gives w I (file.ensureSourceUnchanged expected operation) (fun _ => True) := by
  unfold ensureSourceUnchanged
  apply Gives.bind (sourceIdentity_gives hI)
  intro _ _
  exact .liftM fun _ _ => trivial

theorem decodeBuildBlock_gives (hI : file.Invariant w.platform I) (before : KeyIndexSourceIdentity)
    (blockIndex : Nat)
    : Gives w I (file.decodeBuildBlock before blockIndex)
        (fun rows => file.freshRows w.platform blockIndex = .ok rows) := by
  unfold decodeBuildBlock
  apply Gives.bind (R := fun result => ∀ rows, result = .ok rows →
    file.freshRows w.platform blockIndex = .ok rows)
  . apply Ensures.attempt
    apply (decodeKeyBlock_ensures hI blockIndex).mono
    . rintro rows hrows _ ⟨⟩
      exact hrows
    . rintro _ _ _ ⟨⟩
  intro result hresult
  cases result with
  | ok rows => exact .pure (hresult rows rfl)
  | error e =>
    apply Gives.bind (R := fun _ => True) _ fun _ _ => .fail
    exact ensureSourceUnchanged_gives hI.events before _

theorem buildBlock_gives (hI : file.Invariant w.platform I) {done : List (List DecodedKeyRow)}
    (hdone : ∀ i rows, done[i]? = some rows → file.freshRows w.platform i = .ok rows)
    {state : BuildState} (h : state.Holds file w.platform options (keysOf done))
    (metadataPlan : BuildMetadataPlan) (before : KeyIndexSourceIdentity)
    : Gives w I (file.buildBlock options metadataPlan before state done.length)
        (fun next => ∃ rows, file.freshRows w.platform done.length = .ok rows
          ∧ next.Holds file w.platform options (keysOf (done ++ [rows]))) := by
  unfold buildBlock
  apply Gives.bind (checkCancelled_gives hI.events _)
  intro _ _
  apply Gives.bind (decodeBuildBlock_gives hI before done.length)
  intro rows hrows
  apply Gives.liftM_bind
  intro block hblock
  rw [okOr_eq_ok] at hblock
  -- The first row of the block comes right after the rows of the blocks before.
  have hstart : block.entryStartIndex = (keysOf done).length := by
    rw [file.layoutVerified.entryStart _ _ hblock, Search.start,
      ← file.lengths_of_freshRows w.platform hdone, keysOf, List.length_map, List.length_flatten]
  apply Gives.mono (Q := fun next =>
    next.Holds file w.platform options (keysOf done ++ rows.map (·.key)))
  . have hfold : ∀ (seen rest : List DecodedKeyRow), rows = seen ++ rest → ∀ state : BuildState,
        state.Holds file w.platform options (keysOf done ++ seen.map (·.key)) →
        Gives w I ((rest.zipIdx seen.length).foldlM (fun state item => do
            if item.2 ≠ 0 then checkCancelled buildOperation else pure ()
            let ordinal ← okOr (checkedAdd block.entryStartIndex item.2)
              (.invalidFormat "key ordinal overflow")
            let ordinal ← okOr (toU32? ordinal) (.limitExceeded "key_index_entries" ordinal u32Max)
            buildRow file options metadataPlan state ordinal item.1) state)
          (fun next => next.Holds file w.platform options (keysOf done ++ rows.map (·.key))) := by
      intro seen rest
      induction rest generalizing seen with
      | nil =>
        intro hsplit state hstate
        rw [List.append_nil] at hsplit
        subst hsplit
        exact .pure hstate
      | cons entry rest ih =>
        intro hsplit state hstate
        rw [List.zipIdx_cons, List.foldlM_cons]
        apply Gives.bind (R := fun (next : BuildState) =>
          next.Holds file w.platform options (keysOf done ++ (seen ++ [entry]).map (·.key)))
        . have hrow : Gives w I (show Exec BuildState from do
              let ordinal ← okOr (checkedAdd block.entryStartIndex seen.length)
                (.invalidFormat "key ordinal overflow")
              let ordinal ← okOr (toU32? ordinal)
                (.limitExceeded "key_index_entries" ordinal u32Max)
              buildRow file options metadataPlan state ordinal entry)
              (fun (next : BuildState) => next.Holds file w.platform options
                (keysOf done ++ (seen ++ [entry]).map (·.key))) := by
            apply Gives.liftM_bind
            intro ordinal hordinal
            rw [okOr_eq_ok, checkedAdd_eq_some] at hordinal
            obtain ⟨rfl, -⟩ := hordinal
            apply Gives.liftM_bind
            intro ordinal hordinal
            rw [okOr_eq_ok, toU32?_eq_some] at hordinal
            obtain ⟨rfl, hlt⟩ := hordinal
            have hlen : block.entryStartIndex + seen.length
                = (keysOf done ++ seen.map (·.key)).length := by
              rw [List.length_append, List.length_map, hstart]
            rw [hlen] at hlt ⊢
            rw [List.map_append, List.map_singleton, ← List.append_assoc]
            exact buildRow_gives hI.events hstate metadataPlan hlt entry
          dsimp only
          split
          . apply Gives.bind (checkCancelled_gives hI.events _)
            intro _ _
            exact hrow
          . exact hrow
        . intro next hnext
          have := ih (seen ++ [entry]) (by rw [hsplit, List.append_assoc]; rfl) next hnext
          rwa [List.length_append] at this
    exact hfold [] rows rfl state (by rwa [List.map_nil, List.append_nil])
  . intro next hnext
    refine ⟨rows, hrows, ?_⟩
    rw [keysOf, List.flatten_append, List.flatten_singleton, List.map_append]
    exact hnext

theorem mergeRuns_order (hI : LogInvariant I) (hpos : 0 < options.chunkBytes) {keys : List Str}
    {contents : Bytes} {runCount : Nat} (h : RunsOf contents runCount [] (rowRecords file p keys))
    (expectedRows maximumRecordBytes : Nat)
    : Gives w I (mergeRuns contents runCount expectedRows maximumRecordBytes options)
        (· = sectionOf .order options ((file.locatorOf p keys).sectionBytes .order)) := by
  obtain ⟨runs, hcontents, rfl, hfits, hsorted, hperm⟩ := h
  rw [List.append_nil] at hperm
  rw [← orderBytes_sorted, ← KWayMerge.sorted_eq_of_perm hperm]
  exact mergeRuns_gives hI hpos hcontents hfits hsorted _ _

/-- The order section is the same however the rows were split into runs. -/
theorem buildOrder_gives (hI : LogInvariant I) (hpos : 0 < options.chunkBytes) {keys : List Str}
    {state : BuildState} (h : state.Holds file p options keys)
    : Gives w I (file.buildOrder options state)
        (· = sectionOf .order options ((file.locatorOf p keys).sectionBytes .order)) := by
  unfold buildOrder
  split
  . next hnone =>
    obtain ⟨runs, -, hcount, -, -, hperm⟩ := h.runs
    rw [hnone, eq_comm, List.length_eq_zero_iff] at hcount
    subst hcount
    apply Gives.bind (newOrderWriter_gives hI hpos)
    intro order horder
    apply Gives.bind (writeSortedOrder_gives hI horder state.buffer)
    intro order horder
    rw [List.flatten_nil, List.nil_append] at hperm
    rw [List.nil_append, KWayMerge.sorted_eq_of_perm hperm, orderBytes_sorted] at horder
    exact SectionScratchWriter.intoSection_gives hI horder .order
  . have hmerge (writer : BufferedScratchWriter) (runCount : Nat)
        (hruns : RunsOf writer.contents runCount [] (rowRecords file p keys))
        : Gives w I (writer.intoFile >>= fun runs =>
            mergeRuns runs runCount file.len state.maximumRecordBytes options)
          (· = sectionOf .order options ((file.locatorOf p keys).sectionBytes .order)) := by
      apply Gives.bind (BufferedScratchWriter.intoFile_gives hI writer)
      rintro _ rfl
      exact mergeRuns_order hI hpos hruns _ _
    dsimp only
    split
    . apply Gives.bind (writeSortedRun_gives hI h.within.filled
        (fun record hrecord => (h.within record hrecord).2) state.runs)
      rintro writer ⟨hwriter, hrunFits⟩
      apply Gives.liftM_bind
      intro runCount hrunCount
      rw [okOr_eq_ok, checkedAdd_eq_some] at hrunCount
      obtain ⟨rfl, -⟩ := hrunCount
      have hruns := h.runs.spill hrunFits
      rw [← hwriter] at hruns
      exact hmerge writer _ hruns
    . next hempty =>
      have hruns := h.runs
      rw [SortBuffer.rows, Decidable.not_not.mp hempty, List.map_nil] at hruns
      exact hmerge state.runs _ hruns

/-! ## The whole build -/

/-- What a build has made of the rows of a dictionary. -/
structure IndexBuilt (file : MdictFile) (p : Platform) (options : KeyIndexOptions)
    (blocks : List (List DecodedKeyRow)) (built : BuiltIndex)
    : Prop where
  valid : validateOptions options = .ok ()
  kind : file.kind = .mdx
  len_le : file.len ≤ u32Max
  decodes : file.DecodesTo p blocks
  identity : file.OwnIdentity built.report.sourceIdentity
  sections : built.sections = (file.locatorOf p (keysOf blocks)).sections options
  header : buildHeader built.sections built.report.sourceIdentity
      (file.locatorOf p (keysOf blocks)).text.length options
    = .ok (built.header, built.descriptors, built.report.bytesWritten)

theorem chunkBytes_pos (h : validateOptions options = .ok ()) : 0 < options.chunkBytes := by
  simp only [validateOptions, except_bind_eq_ok, failIf_eq_ok, not_or] at h
  obtain ⟨⟨⟩, -, ⟨⟩, ⟨hmin, -⟩, -⟩ := h
  exact Nat.lt_of_lt_of_le (by decide) (Nat.le_of_not_lt hmin)

theorem buildIndex_gives (hI : file.Invariant w.platform I)
    : Gives w I (file.buildIndex options)
        (fun built => ∃ blocks, file.IndexBuilt w.platform options blocks built) := by
  unfold buildIndex
  apply Gives.liftM_bind
  intro _ hoptions
  have hpos := chunkBytes_pos hoptions
  apply Gives.liftM_bind
  intro _ hkind
  rw [failIf_eq_ok, Decidable.not_not] at hkind
  apply Gives.liftM_bind
  intro _ hlen
  rw [failIf_eq_ok, Nat.not_lt] at hlen
  apply Gives.bind (sourceIdentity_gives hI.events)
  intro before hbefore
  apply Gives.liftM_bind
  intro metadataPlan _
  apply Gives.bind (R := fun state => state.Holds file w.platform options [])
    (startBuild_gives hI.events hpos)
  intro state hstate
  -- After `i` blocks the build has gone through the rows of the first `i` blocks.
  apply Gives.bind (R := fun state => ∃ blocks, file.DecodesTo w.platform blocks
    ∧ state.Holds file w.platform options (keysOf blocks))
  . apply Gives.mono (Ensures.foldlM_range (J := fun i state =>
      ∃ done : List (List DecodedKeyRow), done.length = i
        ∧ (∀ j rows, done[j]? = some rows → file.freshRows w.platform j = .ok rows)
        ∧ state.Holds file w.platform options (keysOf done)) ?step ?start)
    case step =>
      rintro i state hi ⟨done, rfl, hdone, hholds⟩
      apply (buildBlock_gives hI hdone hholds metadataPlan before).mono
      rintro state ⟨rows, hrows, hstate⟩
      exact ⟨done ++ [rows], by simp, file.freshRows_concat w.platform hdone hrows, hstate⟩
    case start =>
      exact ⟨[], rfl, fun _ _ h => by contradiction, hstate⟩
    rintro state ⟨blocks, hlength, hrows, hholds⟩
    exact ⟨blocks, ⟨hlength, hrows⟩, hholds⟩
  rintro state ⟨blocks, hblocks, hholds⟩
  apply Gives.liftM_bind
  intro _ _
  apply Gives.bind (SectionScratchWriter.intoSection_gives hI.events hholds.text .text)
  rintro _ rfl
  apply Gives.bind (SectionScratchWriter.intoSection_gives hI.events hholds.bounds .bounds)
  rintro _ rfl
  apply Gives.bind (SectionScratchWriter.intoSection_gives hI.events hholds.raw .raw)
  rintro _ rfl
  apply Gives.liftM_bind
  intro _ _
  apply Gives.bind (buildOrder_gives hI.events hpos hholds)
  rintro _ rfl
  apply Gives.liftM_bind
  rintro ⟨header, descriptors, totalLen⟩ hheader
  rw [hholds.textLen] at hheader
  exact .pure ⟨blocks, hoptions, hkind, hlen, hblocks, hbefore, rfl, hheader⟩

namespace IndexBuilt

variable {blocks : List (List DecodedKeyRow)} {built : BuiltIndex}

theorem sectionsOf (h : file.IndexBuilt p options blocks built)
    : SectionsOf file.len (file.locatorOf p (keysOf blocks)).text.length built.sections := by
  rw [h.sections]
  have hlen := h.decodes.length_keysOf
  refine ⟨rfl, ?_, ?_⟩
  . intro «section» hmem
    obtain ⟨kind, -, rfl⟩ := List.mem_map.mp hmem
    rfl
  . intro «section» hmem
    obtain ⟨kind, -, rfl⟩ := List.mem_map.mp hmem
    rw [sectionOf]
    dsimp only
    cases kind with
    | text => rfl
    | bounds =>
      rw [KeyLocator.sectionBytes, length_flatMap_ofLE, locatorOf, KeyLocator.ofTexts,
        List.length_map, List.length_map, List.length_range, hlen, sectionLen]
    | raw =>
      rw [KeyLocator.sectionBytes, length_flatMap_ofLE, locatorOf, KeyLocator.ofTexts,
        List.length_map, hlen, sectionLen]
    | order =>
      rw [KeyLocator.sectionBytes, length_flatMap_ofLE, (sorted_locatorOf _).length_eq, hlen,
        sectionLen]

/-- The finished artifact. -/
theorem writeBuiltIndex_gives (hI : LogInvariant I) (h : file.IndexBuilt p options blocks built)
    (destination : Destination)
    : Gives w I (writeBuiltIndex built destination options.chunkBytes)
        (fun written => written.bytes = builtBytes built) := by
  obtain ⟨checksumCount, hbuilt⟩ := headerBuilt_of_buildHeader h.header h.sectionsOf.kinds
  apply (Gives.of_ensures (hbuilt.writeBuiltIndex_ensures hI h.sectionsOf
    (chunkBytes_pos h.valid) destination)).mono
  rintro written ⟨hbytes, -⟩
  exact hbytes

/-- The build memory makes no difference to what is built. -/
theorem eq_of_memory {blocks' : List (List DecodedKeyRow)} {built' : BuiltIndex} {memory : Nat}
    (h : file.IndexBuilt p options blocks built)
    (h' : file.IndexBuilt p { options with buildMemoryBytes := memory } blocks' built')
    (hidentity : built.report.sourceIdentity = built'.report.sourceIdentity)
    : built = built' := by
  obtain ⟨-, -, -, hblocks, -, hsections, hheader⟩ := h
  obtain ⟨-, -, -, hblocks', -, hsections', hheader'⟩ := h'
  rw [← hblocks.unique hblocks'] at hsections' hheader'
  have hsame : built'.sections = built.sections := hsections'.trans hsections.symm
  rw [hsame, ← hidentity] at hheader'
  have hbuilt := hheader.symm.trans hheader'
  rw [Except.ok.injEq, Prod.mk.injEq, Prod.mk.injEq] at hbuilt
  obtain ⟨hhead, hdescriptors, htotal⟩ := hbuilt
  obtain ⟨header, sections, descriptors, identity, totalLen⟩ := built
  obtain ⟨header', sections', descriptors', identity', totalLen'⟩ := built'
  dsimp only at hhead hdescriptors htotal hsame hidentity
  rw [hhead, hdescriptors, htotal, hsame, hidentity]

end IndexBuilt

/-- What a build into a new file or a caller's destination leaves there. -/
def ArtifactOf (file : MdictFile) (p : Platform) (options : KeyIndexOptions)
    (report : KeyIndexBuild) (bytes : Bytes)
    : Prop :=
  ∃ blocks built, file.IndexBuilt p options blocks built ∧ report = built.report
    ∧ bytes = builtBytes built

theorem buildToPath_gives (hI : file.Invariant w.platform I)
    : Gives w I (file.buildToPath options)
        (fun result => file.ArtifactOf w.platform options result.1 result.2) := by
  unfold buildToPath
  apply Gives.bind (buildIndex_gives hI)
  rintro built ⟨blocks, hbuilt⟩
  apply gives_log_bind hI.events
  apply Gives.bind (Gives.of_ensures io_ensures)
  intro _ _
  apply Gives.bind (hbuilt.writeBuiltIndex_gives hI.events _)
  intro destination hbytes
  apply gives_log_bind hI.events
  apply Gives.bind (Gives.of_ensures io_ensures)
  intro _ _
  apply Gives.bind (ensureSourceUnchanged_gives hI.events _ _)
  intro _ _
  exact .pure ⟨blocks, built, hbuilt, rfl, hbytes⟩

theorem buildToWriter_gives (hI : file.Invariant w.platform I) (destination : Destination)
    : Gives w I (file.buildToWriter destination options)
        (fun result => file.ArtifactOf w.platform options result.1 result.2.bytes) := by
  unfold buildToWriter
  apply Gives.bind (buildIndex_gives hI)
  rintro built ⟨blocks, hbuilt⟩
  apply Gives.bind (hbuilt.writeBuiltIndex_gives hI.events destination)
  intro destination hbytes
  apply Gives.bind (ensureSourceUnchanged_gives hI.events _ _)
  intro _ _
  exact .pure ⟨blocks, built, hbuilt, rfl, hbytes⟩

end MdictFile

end Mdict
