import Mdict.Format.Common.KeyRows
import Mdict.Format.Common.Source

/-!
This module contains the version 1 keyword section: a header of four 32 bit fields, raw keyword
metadata and summaries with one-byte lengths and no terminator.
-/

namespace Mdict.V1

def keywordHeaderLen : Nat := 16

/-- An entry count, two summary lengths with empty summaries and two block sizes. -/
def minKeyInfoRowLen : Nat := 4 + 1 + 1 + 4 + 4

def validateKeywordHeaderCounts (numBlocks numEntries keyInfoLen : Nat) (limits : Limits)
    : Except Error Nat :=
  validateKeywordHeaderCountsWith minKeyInfoRowLen limits numBlocks numEntries keyInfoLen

def validateKeyBlockSizes (entryCount compSize decompSize : Nat) (encoding : TextEncoding)
    (limits : Limits)
    : Except Error Unit :=
  validateKeyBlockSizesWith 4 encoding limits entryCount compSize decompSize

/-- A one-byte length in encoding units and that many units. -/
def readSummary (p : Platform) (cursor : Cursor) (encoding : TextEncoding) (context : String)
    : Except Error (Str × Cursor) := do
  let (units, cursor) ← cursor.readU8 context
  let len ← okOr (checkedMul units encoding.unitSize)
    (.invalidFormat "keyword summary length overflow")
  let (bytes, cursor) ← cursor.readBytes len context
  let summary ← encoding.decode p bytes context
  return (summary, cursor)

def readKeyIndexRow (p : Platform) (encoding : TextEncoding) (cursor : Cursor)
    : Except Error (KeyIndexRow × Cursor) := do
  let (entryCount, cursor) ← cursor.readU32Be "keyword block entry count"
  let (firstKey, cursor) ← readSummary p cursor encoding "keyword block first key"
  let (lastKey, cursor) ← readSummary p cursor encoding "keyword block last key"
  let (compSize, cursor) ← cursor.readU32Be "keyword block compressed size"
  let (decompSize, cursor) ← cursor.readU32Be "keyword block decompressed size"
  return ({ entryCount, firstKey, lastKey, compSize, decompSize }, cursor)

def parseKeywordIndexEntries (p : Platform) (bytes : Bytes) (numBlocks : Nat)
    (encoding : TextEncoding) (keyBlocksOffset : Nat) (limits : Limits)
    : Except Error (List KeyBlockDescriptor) :=
  parseKeywordIndexEntriesWith minKeyInfoRowLen "minimum keyword index row length"
    (readKeyIndexRow p encoding)
    (fun entryCount compSize decompSize =>
      validateKeyBlockSizes entryCount compSize decompSize encoding limits)
    bytes numBlocks keyBlocksOffset

def decodeKeyRows (p : Platform) (bytes : Bytes) (context : KeyRowContext)
    : Except Error (List DecodedKeyRow) :=
  decodeKeyRowsWith p Cursor.readU32Be bytes context

/-- Parses and validates the whole version 1 keyword section. -/
def parseKeywordSection (source : FileSource) (header : Header) (keyEncoding : TextEncoding)
    (keywordSectionOffset : Nat) (options : OpenOptions)
    : Exec KeywordSection := do
  let encryption := header.encryptionMode
  failIf (encryption.hasKeywordHeader ∨ encryption.hasKeywordIndex)
    (.unsupported "encrypted MDict version 1 keyword sections")

  let headerLen ← checkedUsize keywordHeaderLen "keyword section header length"
  Exec.reserve headerLen "keyword section header"
  let rawHeader ← source.readExactAt keywordSectionOffset headerLen "keyword section header"

  let cursor := Cursor.new rawHeader
  let (numBlocks, cursor) ← cursor.readU32Be "keyword num_blocks"
  let (numEntries, cursor) ← cursor.readU32Be "keyword num_entries"
  let (keyInfoLen, cursor) ← cursor.readU32Be "keyword index length"
  let (keyBlocksLen, _) ← cursor.readU32Be "keyword blocks length"

  ensureLimit "key_index_bytes" keyInfoLen options.limits.keyIndexBytes
  let numBlocks ← validateKeywordHeaderCounts numBlocks numEntries keyInfoLen options.limits

  let keyInfoOffset ←
    addU64 keywordSectionOffset keywordHeaderLen "keyword index offset overflow"
  let keyBlocksOffset ← addU64 keyInfoOffset keyInfoLen "keyword blocks offset overflow"
  let recordSectionOffset ← addU64 keyBlocksOffset keyBlocksLen "record section offset overflow"
  source.ensureRange keyInfoOffset keyInfoLen "keyword index"
  source.ensureRange keyBlocksOffset keyBlocksLen "keyword block section"

  let keyInfoLenUsize ← checkedUsize keyInfoLen "keyword index length"
  Exec.reserve keyInfoLenUsize "raw keyword index"
  let keyInfo ← source.readExactAt keyInfoOffset keyInfoLenUsize "keyword index"

  let p ← Exec.platform
  let decodedSummaryBytes ← keyEncoding.maxDecodedLen p keyInfoLenUsize
  let retainedBytes ← okOr
    ((checkedMul numBlocks sizeOfKeyBlockDescriptor).bind (checkedAdd decodedSummaryBytes))
    (.invalidFormat "keyword metadata size overflow")
  Exec.reserve retainedBytes "keyword block metadata"

  let blocks ←
    parseKeywordIndexEntries p keyInfo numBlocks keyEncoding keyBlocksOffset options.limits

  let totalEntries ← totalKeyEntries blocks
  failIf (totalEntries ≠ numEntries)
    (.invalidData s!"keyword entry count mismatch: header={numEntries}, summed={totalEntries}")

  let totalComp ← sumCompSizes 0 blocks
  failIf (totalComp ≠ keyBlocksLen)
    (.invalidData s!"keyword blocks length mismatch: header={keyBlocksLen}, summed={totalComp}")

  blocks.forM fun block => source.ensureRange block.compOffset block.compSize "keyword block"

  return {
    numEntries
    recordSectionOffset
    blocks
    retainedBytes
    sections := {
      header := ⟨keywordSectionOffset, keywordHeaderLen⟩
      index := ⟨keyInfoOffset, keyInfoLen⟩
      blocks := ⟨keyBlocksOffset, keyBlocksLen⟩
    }
  }

end Mdict.V1
