import Mdict.Format.Common.KeyRows
import Mdict.Format.Common.Source

/-!
This module contains the record section, which both wire versions lay out in the same way but with
fields of different widths.
-/

namespace Mdict

/-- The ranges of the three record subsections. -/
structure RecordSectionRanges where
  header : SectionRange
  index : SectionRange
  blocks : SectionRange
  deriving DecidableEq, Repr

/-- A parsed record section. -/
structure RecordSection where
  numEntries : Nat
  totalDecompressedLen : Nat
  blocks : List RecordBlockDescriptor
  retainedBytes : Nat
  sections : RecordSectionRanges
  deriving DecidableEq, Repr

/-- The checks on a record header whose index rows take `rowLen` bytes each. -/
def validateRecordHeaderWith (rowLen numBlocks indexLen : Nat) (limits : Limits)
    : Except Error (Nat × Nat) := do
  let expectedIndexLen ← mulU64 numBlocks rowLen "record index length overflow"
  failIf (indexLen ≠ expectedIndexLen)
    (.invalidData
      s!"record index length mismatch: header={indexLen}, expected={expectedIndexLen}")
  ensureLimit "record_index_bytes" indexLen limits.recordIndexBytes
  let indexLen ← checkedUsize indexLen "record index length"
  let numBlocks ← checkedUsize numBlocks "record block count"
  let metadataBytes ← okOr (checkedMul numBlocks sizeOfRecordBlockDescriptor)
    (.invalidFormat "record block metadata size overflow")
  ensureLimit "record_block_metadata_bytes" metadataBytes limits.blockMetadataBytes
  return (numBlocks, indexLen)

def validateRecordBlockSizes (compSize decompSize : Nat) (limits : Limits)
    : Except Error Unit := do
  ensureLimit "record_block_compressed_bytes" compSize limits.compressedBlockBytes
  ensureLimit "record_block_decompressed_bytes" decompSize limits.decompressedBlockBytes
  failIf (compSize < 8)
    (.invalidData s!"record block is {compSize} bytes; at least 8 are required")

/-- The accumulators of the loop over the record index. -/
structure RecordIndexState where
  compOffset : Nat
  decompOffset : Nat
  totalComp : Nat
  cursor : Cursor
  deriving DecidableEq, Repr

/-- The descriptors of `numBlocks` record blocks and the accumulators after them. -/
def parseRecordIndex (source : FileSource) (readField : ReadField) (limits : Limits)
    : (numBlocks : Nat) → RecordIndexState
    → Except Error (List RecordBlockDescriptor × RecordIndexState)
  | 0, state => .ok ([], state)
  | numBlocks + 1, state => do
    let (compSize, cursor) ← readField state.cursor "record block compressed size"
    let (decompSize, cursor) ← readField cursor "record block decompressed size"
    validateRecordBlockSizes compSize decompSize limits
    source.ensureRange state.compOffset compSize "record block"
    let nextCompOffset ← addU64 state.compOffset compSize "record block offset overflow"
    let nextDecompOffset ← addU64 state.decompOffset decompSize "record block offset overflow"
    let block : RecordBlockDescriptor := {
      compOffset := state.compOffset
      compSize
      decompOffset := state.decompOffset
      decompSize
    }
    let totalComp ← addU64 state.totalComp compSize "record block length overflow"
    let (blocks, state) ← parseRecordIndex source readField limits numBlocks
      { compOffset := nextCompOffset, decompOffset := nextDecompOffset, totalComp, cursor }
    return (block :: blocks, state)

/--
Parses and validates a whole record section with a header of `headerLen` bytes and index rows of
`rowLen` bytes.
-/
def parseRecordSectionWith (headerLen rowLen : Nat) (readField : ReadField) (source : FileSource)
    (recordSectionOffset : Nat) (limits : Limits)
    : Exec RecordSection := do
  Exec.reserve headerLen "record section header"
  let headerBytes ← source.readExactAt recordSectionOffset headerLen "record section header"
  let cursor := Cursor.new headerBytes
  let (numBlocks, cursor) ← readField cursor "record num_blocks"
  let (numEntries, cursor) ← readField cursor "record num_entries"
  let (indexLen, cursor) ← readField cursor "record index length"
  let (blocksLen, _) ← readField cursor "record blocks length"

  let (numBlocks, indexLenUsize) ← validateRecordHeaderWith rowLen numBlocks indexLen limits
  let indexOffset ← addU64 recordSectionOffset headerLen "record index offset overflow"
  let blocksOffset ← addU64 indexOffset indexLen "record blocks offset overflow"
  source.ensureRange indexOffset indexLen "record block index"
  source.ensureRange blocksOffset blocksLen "record block section"

  Exec.reserve indexLenUsize "record block index"
  let retainedBytes ← okOr (checkedMul numBlocks sizeOfRecordBlockDescriptor)
    (.invalidFormat "record metadata size overflow")
  Exec.reserve retainedBytes "record block metadata"
  let indexBytes ← source.readExactAt indexOffset indexLenUsize "record block index"
  let (blocks, state) ← parseRecordIndex source readField limits numBlocks
    { compOffset := blocksOffset, decompOffset := 0, totalComp := 0, cursor := .new indexBytes }

  failIf (state.totalComp ≠ blocksLen)
    (.invalidData
      s!"record blocks length mismatch: header={blocksLen}, summed={state.totalComp}")
  failIf (¬state.cursor.isEmpty)
    (.invalidData s!"record block index has {state.cursor.remaining} trailing bytes")
  let expectedBlocksEnd ← addU64 blocksOffset blocksLen "record block section end overflow"
  failIf (state.compOffset ≠ expectedBlocksEnd)
    (.invalidData "record block ranges do not cover the declared section")

  return {
    numEntries
    totalDecompressedLen := state.decompOffset
    blocks
    retainedBytes
    sections := {
      header := ⟨recordSectionOffset, headerLen⟩
      index := ⟨indexOffset, indexLen⟩
      blocks := ⟨blocksOffset, blocksLen⟩
    }
  }

namespace V1

def recordHeaderLen : Nat := 16

def recordIndexRowLen : Nat := 8

def validateRecordHeader (numBlocks indexLen : Nat) (limits : Limits)
    : Except Error (Nat × Nat) :=
  validateRecordHeaderWith recordIndexRowLen numBlocks indexLen limits

def parseRecordSection (source : FileSource) (recordSectionOffset : Nat) (limits : Limits)
    : Exec RecordSection :=
  parseRecordSectionWith recordHeaderLen recordIndexRowLen Cursor.readU32Be source
    recordSectionOffset limits

end V1

namespace V2

def validateRecordHeader (numBlocks indexLen : Nat) (limits : Limits)
    : Except Error (Nat × Nat) :=
  validateRecordHeaderWith 16 numBlocks indexLen limits

def parseRecordSection (source : FileSource) (recordSectionOffset : Nat) (limits : Limits)
    : Exec RecordSection :=
  parseRecordSectionWith 32 16 Cursor.readU64Be source recordSectionOffset limits

end V2

end Mdict
