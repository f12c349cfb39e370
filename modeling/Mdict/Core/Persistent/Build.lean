import Mdict.Core.Persistent.Sort

/-!
This module contains the construction of a persistent key index.
-/

namespace Mdict

open Effect Persistent

namespace Persistent

/-- The name of the operation that a build reports when it is cancelled or overtaken. -/
def buildOperation : String := "building persistent key index"

structure BuildMetadataPlan where
  fixedChecksumCount : Nat
  maximumTextBytes : Nat
  limit : Nat
  deriving DecidableEq, Repr

def buildMetadataPlan (rows : Nat) (options : KeyIndexOptions)
    : Except Error BuildMetadataPlan := do
  let boundsBytes ← okOr ((checkedAdd rows 1).bind (checkedMul · 8))
    (.invalidFormat "key-index bounds length overflow")
  let ordinalBytes ← okOr (checkedMul rows 4) (.invalidFormat "key-index ordinal length overflow")
  let boundsChecksumCount ← chunkCount boundsBytes options.chunkBytes
  let ordinalChecksumCount ← chunkCount ordinalBytes options.chunkBytes
  let fixedChecksumCount ←
    okOr ((checkedMul ordinalChecksumCount 2).bind (checkedAdd · boundsChecksumCount))
      (.invalidFormat "key-index checksum count overflow")
  let limit := options.maxMetadataBytes
  let availableChecksumBytes ← okOr (checkedSub limit headerBytes)
    (.limitExceeded "key_index_metadata_bytes" headerBytes limit)
  let checksumSlots := availableChecksumBytes / 4
  if fixedChecksumCount > checksumSlots then
    let required ← okOr ((checkedMul fixedChecksumCount 4).bind (checkedAdd headerBytes ·))
      (.invalidFormat "key-index metadata length overflow")
    .error (.limitExceeded "key_index_metadata_bytes" required limit)
  else
    let maximumTextBytes :=
      (checkedMul (checksumSlots - fixedChecksumCount) options.chunkBytes).getD u64Max
    return { fixedChecksumCount, maximumTextBytes, limit }

/-- Check that the checksums of the normalized text fit in the metadata. -/
def checkTextLen (plan : BuildMetadataPlan) (options : KeyIndexOptions) (textLen : Nat)
    : Except Error Unit :=
  if textLen > plan.maximumTextBytes then do
    let textChecksums ← chunkCount textLen options.chunkBytes
    let required ← okOr
      (((checkedAdd plan.fixedChecksumCount textChecksums).bind (checkedMul · 4)).bind
        (checkedAdd headerBytes ·))
      (.invalidFormat "key-index metadata length overflow")
    .error (.limitExceeded "key_index_metadata_bytes" required plan.limit)
  else
    .ok ()

/-- The length of the normalized text after one more row, when its checksums fit. -/
def growText (plan : BuildMetadataPlan) (options : KeyIndexOptions) (textLen rowLen : Nat)
    : Except Error Nat := do
  let textLen ← okOr (checkedAdd textLen rowLen) (.invalidFormat "normalized text length overflow")
  checkTextLen plan options textLen
  return textLen

/-- What a build checks of the metadata in advance: the plan, and the text after each row. -/
def checkMetadata (options : KeyIndexOptions) (rowLens : List Nat) : Except Error Nat := do
  let plan ← buildMetadataPlan rowLens.length options
  rowLens.foldlM (growText plan options) 0

/-- What a build has written and buffered so far. -/
structure BuildState where
  text : SectionScratchWriter
  bounds : SectionScratchWriter
  raw : SectionScratchWriter
  runs : BufferedScratchWriter
  buffer : SortBuffer
  bufferBytes : Nat
  maximumRecordBytes : Nat
  runCount : Nat
  normalizedTextLen : Nat
  builtRows : Nat
  deriving DecidableEq, Repr

/-- The room to reserve for a record: its bytes, their exact number if known, and its share. -/
structure RecordPlan where
  reserveLen : Nat
  expectedNormalizedLen : Option Nat
  plannedRecordBytes : Nat
  deriving DecidableEq, Repr

/-- The most that one record may take of the build memory. -/
def singleLimit (options : KeyIndexOptions) : Nat := options.buildMemoryBytes / 4

/-- Fail when a record of this size takes more than its part of the build memory. -/
def ensureRecord (recordBytes : Nat) (options : KeyIndexOptions) : Except Error Unit :=
  ensureLimit "key_index_build_memory_bytes" recordBytes (singleLimit options)

/-- An ASCII key does not grow when it is normalized, so its own length will do. -/
def planRecord (file : MdictFile) (p : Platform) (options : KeyIndexOptions) (key : Str)
    : Except Error RecordPlan :=
  let asciiUpper := checkedAdd (Unicode.utf8 key).length sizeOfArenaRecord
  if key.isAscii ∧ asciiUpper.any (· ≤ singleLimit options) then
    return {
      reserveLen := (Unicode.utf8 key).length
      expectedNormalizedLen := none
      plannedRecordBytes := asciiUpper.getD (singleLimit options)
    }
  else do
    let normalizedLen ← file.normalizer.normalizedLen p key
    let recordBytes ← okOr (checkedAdd normalizedLen sizeOfArenaRecord)
      (.invalidFormat "key-index sort record size overflow")
    ensureRecord recordBytes options
    return {
      reserveLen := normalizedLen
      expectedNormalizedLen := some normalizedLen
      plannedRecordBytes := recordBytes
    }

/-- Write the buffer as a sorted run and clear it, when the next record does not fit any more. -/
def spillBuffer (state : BuildState) (options : KeyIndexOptions) (nextBuffer : Nat)
    : Exec BuildState :=
  if state.buffer.records ≠ [] ∧ nextBuffer > options.buildMemoryBytes / 2 then do
    let runs ← writeSortedRun state.runs state.buffer
    let runCount ← okOr (checkedAdd state.runCount 1)
      (.invalidFormat "key-index run count overflow")
    return { state with runs, runCount, buffer := state.buffer.clear, bufferBytes := 0 }
  else
    return state

/-- Append the normalized text of a row to the arena of the sort buffer; also its length. -/
def appendNormalized (file : MdictFile) (options : KeyIndexOptions) (plan : RecordPlan)
    (buffer : SortBuffer) (key : Str)
    : Exec (SortBuffer × Nat) := do
  let buffer ← buffer.reserveRecord plan.reserveLen options.buildMemoryBytes
  let p ← Exec.platform
  let normalized := file.normalizer.normalizeBytes p key
  failIf (plan.expectedNormalizedLen.any (normalized.length ≠ ·))
    (.invalidFormat "normalized key length changed during construction")
  failIf (normalized.length > plan.reserveLen)
    (.invalidFormat "normalized key exceeded its reserved upper bound")
  return ({ buffer with normalized := buffer.normalized ++ normalized }, normalized.length)

/-- The loop body of a build: write one row to the sections and put it into the sort buffer. -/
def buildRow (file : MdictFile) (options : KeyIndexOptions) (metadataPlan : BuildMetadataPlan)
    (state : BuildState) (ordinal : Nat) (entry : DecodedKeyRow)
    : Exec BuildState := do
  let p ← Exec.platform
  let plan ← planRecord file p options entry.key
  let nextBuffer ← okOr (checkedAdd state.bufferBytes plan.plannedRecordBytes)
    (.invalidFormat "key-index sort buffer size overflow")
  let state ← spillBuffer state options nextBuffer
  let normalizedStart := state.buffer.normalized.length
  let (buffer, normalizedLen) ← appendNormalized file options plan state.buffer entry.key
  let recordBytes ← okOr (checkedAdd normalizedLen (sizeOfRunRecord + 12))
    (.invalidFormat "key-index sort record size overflow")
  ensureRecord recordBytes options
  let textLen ← okOr (checkedAdd state.normalizedTextLen normalizedLen)
    (.invalidFormat "normalized text length overflow")
  checkTextLen metadataPlan options textLen
  let text ← state.text.writeAll (buffer.normalized.drop normalizedStart)
  let bounds ← state.bounds.writeU64 textLen
  let raw ← state.raw.writeU32 (rawDigest entry.key)
  let record : ArenaRecord := { start := normalizedStart, len := normalizedLen, ordinal }
  let bufferBytes ← okOr (checkedAdd state.bufferBytes plan.plannedRecordBytes)
    (.invalidFormat "key-index sort buffer size overflow")
  let builtRows ← okOr (checkedAdd state.builtRows 1)
    (.invalidFormat "key-index row count overflow")
  return { state with
    text
    bounds
    raw
    buffer := { buffer with records := buffer.records ++ [record] }
    bufferBytes
    maximumRecordBytes := max state.maximumRecordBytes recordBytes
    normalizedTextLen := textLen
    builtRows }

end Persistent

namespace MdictFile

variable (file : MdictFile)

def sourceIdentity : Exec KeyIndexSourceIdentity := do
  let current ← FileSource.currentIdentity
  failIf (current.len ≠ file.source.len) (.sourceChanged "reading key-index source identity")
  return {
    sourceBytes := current.len
    sourceModifiedUnixNanos := current.modifiedUnixNanos
    keyCount := file.len
  }

def ensureSourceUnchanged (expected : KeyIndexSourceIdentity) (operation : String) : Exec Unit := do
  let identity ← file.sourceIdentity
  failIf (identity ≠ expected) (.sourceChanged operation)

/-- Decode a block for a build; when the dictionary changed meanwhile, that is the error. -/
def decodeBuildBlock (before : KeyIndexSourceIdentity) (blockIndex : Nat)
    : Exec (List DecodedKeyRow) := do
  let decoded ← Prog.attempt (file.decodeKeyBlock blockIndex)
  match decoded with
  | .ok entries => return entries
  | .error error =>
    file.ensureSourceUnchanged before buildOperation
    Prog.fail error

/-- The rows of one block. -/
def buildBlock (options : KeyIndexOptions) (metadataPlan : BuildMetadataPlan)
    (before : KeyIndexSourceIdentity) (state : BuildState) (blockIndex : Nat)
    : Exec BuildState := do
  checkCancelled buildOperation
  let entries ← file.decodeBuildBlock before blockIndex
  let block ← okOr file.layout.keyBlocks[blockIndex]?
    (.invalidFormat "key block index out of range")
  entries.zipIdx.foldlM (fun state (entry, entryIndex) => do
    if entryIndex ≠ 0 then checkCancelled buildOperation else pure ()
    let ordinal ← okOr (checkedAdd block.entryStartIndex entryIndex)
      (.invalidFormat "key ordinal overflow")
    let ordinal ← okOr (toU32? ordinal) (.limitExceeded "key_index_entries" ordinal u32Max)
    buildRow file options metadataPlan state ordinal entry) state

/-- A build before its first row. -/
def startBuild (options : KeyIndexOptions) : Exec BuildState := do
  let bufferBytes := scratchWriteBufferBytes options
  let text ← scratchFile
  let bounds ← scratchFile
  let raw ← scratchFile
  let runs ← scratchFile
  let bounds ← (SectionScratchWriter.new bounds bufferBytes options.chunkBytes
    options.checksumPolicy).writeU64 0
  return {
    text := .new text bufferBytes options.chunkBytes options.checksumPolicy
    bounds
    raw := .new raw bufferBytes options.chunkBytes options.checksumPolicy
    runs := .new runs bufferBytes
    buffer := .empty
    bufferBytes := 0
    maximumRecordBytes := sizeOfRunRecord + 12
    runCount := 0
    normalizedTextLen := 0
    builtRows := 0
  }

/-- The order section: from the buffer when it holds all rows, and else by merging. -/
def buildOrder (options : KeyIndexOptions) (state : BuildState) : Exec SectionFile :=
  if state.runCount = 0 then do
    let order ← newOrderWriter options
    let order ← writeSortedOrder order state.buffer
    order.intoSection .order
  else do
    let state ←
      if state.buffer.records ≠ [] then do
        let runs ← writeSortedRun state.runs state.buffer
        let runCount ← okOr (checkedAdd state.runCount 1)
          (.invalidFormat "key-index run count overflow")
        pure { state with runs, runCount }
      else
        pure state
    let runs ← state.runs.intoFile
    mergeRuns runs state.runCount file.len state.maximumRecordBytes options

/-- Check that the sections have an entry for every row. -/
def checkRowSections (bounds raw : SectionFile) : Except Error Unit := do
  let expectedBounds ← okOr ((checkedAdd file.len 1).bind (checkedMul · 8))
    (.invalidFormat "key-index bounds length overflow")
  failIf (bounds.len ≠ expectedBounds)
    (.invalidFormat "key-index physical section length mismatch")
  let expectedRaw ← okOr (checkedMul file.len 4) (.invalidFormat "key-index raw length overflow")
  failIf (raw.len ≠ expectedRaw) (.invalidFormat "key-index physical section length mismatch")

def buildIndex (options : KeyIndexOptions) : Exec BuiltIndex := do
  validateOptions options
  failIf (file.kind ≠ .mdx) (.unsupported "persistent key indexes for MDD")
  failIf (file.len > u32Max) (.limitExceeded "key_index_entries" file.len u32Max)
  let before ← file.sourceIdentity
  let metadataPlan ← buildMetadataPlan file.len options
  let state ← startBuild options
  let state ← (List.range file.keyBlockCount).foldlM
    (file.buildBlock options metadataPlan before) state
  failIf (state.builtRows ≠ file.len) (.invalidFormat "key-index source row count mismatch")
  let text ← state.text.intoSection .text
  let bounds ← state.bounds.intoSection .bounds
  let raw ← state.raw.intoSection .raw
  file.checkRowSections bounds raw
  let order ← file.buildOrder options state
  let sections := [text, bounds, raw, order]
  let (header, descriptors, totalLen) ← buildHeader sections before state.normalizedTextLen options
  return {
    header
    sections
    descriptors
    report := { sourceIdentity := before, bytesWritten := totalLen }
  }

/-- Build an index into a caller's destination, which must be empty. -/
def buildToWriter (destination : Destination) (options : KeyIndexOptions)
    : Exec (KeyIndexBuild × Destination) := do
  let built ← file.buildIndex options
  let destination ← writeBuiltIndex built destination options.chunkBytes
  file.ensureSourceUnchanged built.report.sourceIdentity buildOperation
  return (built.report, destination)

/-- Build an index into a new file; also its bytes. -/
def buildToPath (options : KeyIndexOptions) : Exec (KeyIndexBuild × Bytes) := do
  let built ← file.buildIndex options
  Exec.log (.write 0)
  Exec.io
  let destination ← writeBuiltIndex built { bytes := [], position := 0 } options.chunkBytes
  Exec.log (.write 0)
  Exec.io
  file.ensureSourceUnchanged built.report.sourceIdentity buildOperation
  return (built.report, destination.bytes)

end MdictFile

end Mdict
