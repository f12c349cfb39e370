import Mdict.Format.Common.Cursor
import Mdict.Format.Common.Descriptors

/-!
This module contains what the two keyword grammars share: rows of a key block are a record offset,
whose width the version decides, and a terminated key.
-/

namespace Mdict

/-- How a wire version reads an integer of its width. -/
abbrev ReadField := Cursor → String → Except Error (Nat × Cursor)

/--
The rows from `cursor` on, of which at most `left` may follow and none may start its record before
`previous`.
-/
def decodeKeyRowsFrom (p : Platform) (readOffset : ReadField) (context : KeyRowContext)
    (left : Nat) (previous : Option Nat) (cursor : Cursor)
    : Except Error (List DecodedKeyRow) :=
  if cursor.isEmpty then
    .ok []
  else
    match left with
    | 0 =>
      .error (.invalidData
        s!"key block contains data after its declared {context.expectedEntries} entries")
    | left + 1 => do
      let (recordStart, cursor) ← readOffset cursor "key block record offset"
      failIf (recordStart > context.totalDecodedRecordLen)
        (.invalidData
          s!"record start {recordStart} exceeds total record bytes {context.totalDecodedRecordLen}")
      failIf (previous.any (· > recordStart))
        (.invalidData (s!"record starts decrease inside key block from {previous.getD 0} " ++
          s!"to {recordStart}"))
      let start := cursor.offset
      let (keyBytes, nextOffset) ←
        context.encoding.splitTerminated cursor.bytes start "key block entry key"
      let key ← context.encoding.decode p keyBytes "key block entry key"
      let keyLen ← okOr (checkedSub nextOffset start) (.invalidFormat "key block cursor underflow")
      let (_, cursor) ← cursor.readBytes keyLen "key block entry key bytes"
      let rows ← decodeKeyRowsFrom p readOffset context left (some recordStart) cursor
      return { key, recordStart } :: rows

/-- Decodes one whole decompressed key block into physical rows. -/
def decodeKeyRowsWith (p : Platform) (readOffset : ReadField) (bytes : Bytes)
    (context : KeyRowContext)
    : Except Error (List DecodedKeyRow) := do
  let expectedCount ← checkedUsize context.expectedEntries "decoded key entry count"
  let rows ← decodeKeyRowsFrom p readOffset context expectedCount none (.new bytes)
  failIf (rows.length ≠ expectedCount)
    (.invalidData
      s!"key block entry count mismatch: expected {expectedCount}, decoded {rows.length}")
  return rows

/-- One row of the keyword metadata. -/
structure KeyIndexRow where
  entryCount : Nat
  firstKey : Str
  lastKey : Str
  compSize : Nat
  decompSize : Nat
  deriving DecidableEq, Repr

/--
The descriptors of `numBlocks` key blocks whose rows `readRow` reads one after the other and
`validate` accepts.
-/
def parseKeyIndexRows (readRow : Cursor → Except Error (KeyIndexRow × Cursor))
    (validate : (entryCount compSize decompSize : Nat) → Except Error Unit)
    : (numBlocks compOffset entryStartIndex : Nat) → Cursor
    → Except Error (List KeyBlockDescriptor × Cursor)
  | 0, _, _, cursor => .ok ([], cursor)
  | numBlocks + 1, compOffset, entryStartIndex, cursor => do
    let (row, cursor) ← readRow cursor
    validate row.entryCount row.compSize row.decompSize
    let nextCompOffset ← addU64 compOffset row.compSize "keyword block offset overflow"
    let nextEntryStartIndex ← addU64 entryStartIndex row.entryCount "keyword entry index overflow"
    let (blocks, cursor) ←
      parseKeyIndexRows readRow validate numBlocks nextCompOffset nextEntryStartIndex cursor
    let block : KeyBlockDescriptor := {
      entryCount := row.entryCount
      entryStartIndex
      firstKey := row.firstKey
      lastKey := row.lastKey
      compOffset
      compSize := row.compSize
      decompSize := row.decompSize
    }
    return (block :: blocks, cursor)

/--
The checks on the sizes of a key block, in which an entry takes at least its record offset of
`offsetLen` bytes and a terminator.
-/
def validateKeyBlockSizesWith (offsetLen : Nat) (encoding : TextEncoding) (limits : Limits)
    (entryCount compSize decompSize : Nat)
    : Except Error Unit := do
  failIf (entryCount = 0) (.invalidData "keyword blocks must contain at least one entry")
  ensureLimit "keyword_block_entries" entryCount limits.keyBlockEntries
  ensureLimit "keyword_block_compressed_bytes" compSize limits.compressedBlockBytes
  ensureLimit "keyword_block_decompressed_bytes" decompSize limits.decompressedBlockBytes
  failIf (compSize < 8)
    (.invalidData s!"keyword block is {compSize} bytes; at least 8 are required")
  let minimumEntryBytes ←
    addU64 offsetLen encoding.unitSize "minimum keyword entry size overflow"
  let minimumDecompressedLen ←
    mulU64 entryCount minimumEntryBytes "minimum keyword block size overflow"
  failIf (minimumDecompressedLen > decompSize)
    (.invalidData
      s!"keyword block declares {entryCount} entries in {decompSize} decompressed bytes")

/--
The checks on the counts of a keyword header whose metadata rows take at least `minimumRowLen`
bytes.
-/
def validateKeywordHeaderCountsWith (minimumRowLen : Nat) (limits : Limits)
    (numBlocks numEntries keyIndexLen : Nat)
    : Except Error Nat := do
  failIf (numBlocks > numEntries)
    (.invalidData s!"keyword block count {numBlocks} exceeds entry count {numEntries}")
  let minimumIndexLen ← mulU64 numBlocks minimumRowLen "minimum keyword index length overflow"
  failIf (minimumIndexLen > keyIndexLen)
    (.invalidData s!"keyword index length {keyIndexLen} cannot contain {numBlocks} blocks")
  let numBlocks ← checkedUsize numBlocks "keyword block count"
  let metadataBytes ← okOr (checkedMul numBlocks sizeOfKeyBlockDescriptor)
    (.invalidFormat "keyword block metadata size overflow")
  ensureLimit "keyword_block_metadata_bytes" metadataBytes limits.blockMetadataBytes
  return numBlocks

/-- The whole keyword metadata of `numBlocks` blocks, rows of at least `minimumRowLen` bytes. -/
def parseKeywordIndexEntriesWith (minimumRowLen : Nat) (rowLenContext : String)
    (readRow : Cursor → Except Error (KeyIndexRow × Cursor))
    (validate : (entryCount compSize decompSize : Nat) → Except Error Unit)
    (bytes : Bytes) (numBlocks keyBlocksOffset : Nat)
    : Except Error (List KeyBlockDescriptor) := do
  let rowLen ← checkedUsize minimumRowLen rowLenContext
  let minimumLen ← okOr (checkedMul numBlocks rowLen)
    (.invalidFormat "minimum keyword index length overflow")
  failIf (minimumLen > bytes.length)
    (.invalidData
      s!"keyword index has {bytes.length} bytes but {numBlocks} blocks require at least {minimumLen}")
  let (blocks, cursor) ←
    parseKeyIndexRows readRow validate numBlocks keyBlocksOffset 0 (.new bytes)
  failIf (¬cursor.isEmpty)
    (.invalidData s!"keyword index has {cursor.remaining} trailing bytes")
  return blocks

/-- The number of entries that parsed key blocks hold together. -/
def totalKeyEntries (blocks : List KeyBlockDescriptor) : Except Error Nat :=
  match blocks.getLast? with
  | some block => addU64 block.entryStartIndex block.entryCount "keyword entry count overflow"
  | none => .ok 0

/-- The sum of compressed block sizes on top of `total`. -/
def sumCompSizes (total : Nat) : List KeyBlockDescriptor → Except Error Nat
  | [] => .ok total
  | block :: rest => do
    let total ← addU64 total block.compSize "keyword blocks length overflow"
    sumCompSizes total rest

/-- The ranges of the three keyword subsections. -/
structure KeywordSectionRanges where
  header : SectionRange
  index : SectionRange
  blocks : SectionRange
  deriving DecidableEq, Repr

/-- A parsed keyword section. -/
structure KeywordSection where
  numEntries : Nat
  blocks : List KeyBlockDescriptor
  recordSectionOffset : Nat
  retainedBytes : Nat
  sections : KeywordSectionRanges
  deriving DecidableEq, Repr

end Mdict
