import Mdict.Format.Common.Compression
import Mdict.Format.Common.KeyRows
import Mdict.Format.Common.Source
import Mdict.Format.V2.Crypto

/-!
This module contains the version 2 keyword section: a checksummed header of 44 bytes, a compressed
and optionally encrypted keyword index, and terminated summaries. One legacy variant, which signals
itself by the byte order of the header checksum, has no summary terminators.
-/

namespace Mdict.V2

inductive KeywordIndexLayout where
  | canonical
  | legacyLittleEndianChecksumWithoutSummaryTerminators
  deriving DecidableEq, Repr

def detectKeywordIndexLayout (header checksumBytes : Bytes) (checksumPolicy : ChecksumPolicy)
    : Except Error KeywordIndexLayout :=
  let actual := adler32 header
  let canonicalChecksum := Bytes.toBE checksumBytes
  let legacyChecksum := Bytes.toLE checksumBytes
  if actual = canonicalChecksum then
    .ok .canonical
  else if actual = legacyChecksum then
    .ok .legacyLittleEndianChecksumWithoutSummaryTerminators
  else if checksumPolicy = .skip then
    .ok .canonical
  else
    .error (.checksumMismatch "keyword section header" canonicalChecksum actual)

def minimumKeywordIndexEntryBytes (encoding : TextEncoding) (layout : KeywordIndexLayout)
    : Except Error Nat :=
  let summaryTerminators := match layout with
    | .canonical => 2
    | .legacyLittleEndianChecksumWithoutSummaryTerminators => 0
  okOr ((checkedMul encoding.unitSize summaryTerminators).bind (checkedAdd 28))
    (.invalidFormat "keyword index entry size overflow")

def validateKeywordHeaderCounts (numBlocks numEntries keyIndexDecompLen : Nat)
    (encoding : TextEncoding) (layout : KeywordIndexLayout) (limits : Limits)
    : Except Error Nat := do
  let minimumRowLen ← minimumKeywordIndexEntryBytes encoding layout
  validateKeywordHeaderCountsWith minimumRowLen limits numBlocks numEntries keyIndexDecompLen

def validateKeyBlockSizes (entryCount compSize decompSize : Nat) (encoding : TextEncoding)
    (limits : Limits)
    : Except Error Unit :=
  validateKeyBlockSizesWith 8 encoding limits entryCount compSize decompSize

/-- A two-byte length in encoding units, that many units and, canonically, a terminator. -/
def readSummary (p : Platform) (cursor : Cursor) (encoding : TextEncoding)
    (layout : KeywordIndexLayout) (which invalidTerminator : String)
    : Except Error (Str × Cursor) := do
  let (units, cursor) ← cursor.readU16Be s!"keyword block {which} key size"
  let len ← okOr (checkedMul units encoding.unitSize)
    (.invalidFormat s!"keyword block {which} key length overflow")
  let (bytes, cursor) ← cursor.readBytes len s!"keyword block {which} key"
  let summary ← encoding.decode p bytes s!"keyword block {which} key"
  match layout with
  | .canonical =>
    let (terminator, cursor) ←
      cursor.readBytes encoding.unitSize s!"keyword block {which} key terminator"
    failIf (terminator.any (· != 0)) (.invalidFormat invalidTerminator)
    return (summary, cursor)
  | .legacyLittleEndianChecksumWithoutSummaryTerminators =>
    return (summary, cursor)

def readKeyIndexRow (p : Platform) (encoding : TextEncoding) (layout : KeywordIndexLayout)
    (cursor : Cursor)
    : Except Error (KeyIndexRow × Cursor) := do
  let (entryCount, cursor) ← cursor.readU64Be "keyword block entry count"
  let (firstKey, cursor) ←
    readSummary p cursor encoding layout "first" "invalid keyword block first-key terminator"
  let (lastKey, cursor) ←
    readSummary p cursor encoding layout "last" "invalid keyword block last-key terminator"
  let (compSize, cursor) ← cursor.readU64Be "keyword block compressed size"
  let (decompSize, cursor) ← cursor.readU64Be "keyword block decompressed size"
  return ({ entryCount, firstKey, lastKey, compSize, decompSize }, cursor)

def parseKeywordIndexEntries (p : Platform) (bytes : Bytes) (numBlocks : Nat)
    (encoding : TextEncoding) (layout : KeywordIndexLayout) (keyBlocksOffset : Nat)
    (limits : Limits)
    : Except Error (List KeyBlockDescriptor) := do
  let minimumRowLen ← minimumKeywordIndexEntryBytes encoding layout
  parseKeywordIndexEntriesWith minimumRowLen "minimum keyword index entry length"
    (readKeyIndexRow p encoding layout)
    (fun entryCount compSize decompSize =>
      validateKeyBlockSizes entryCount compSize decompSize encoding limits)
    bytes numBlocks keyBlocksOffset

def decodeKeyRows (p : Platform) (bytes : Bytes) (context : KeyRowContext)
    : Except Error (List DecodedKeyRow) :=
  decodeKeyRowsWith p Cursor.readU64Be bytes context

/-- The first 40 bytes of the keyword header, decrypted when the header says so. -/
def plainKeywordHeader (header : Header) (options : OpenOptions) (rawHeader : Bytes)
    : Except Error Bytes :=
  if header.encryptionMode.hasKeywordHeader then do
    let passcode ← okOr options.passcode .missingPasscode
    decryptKeywordHeaderBlock (rawHeader.take 40) passcode
  else
    .ok (rawHeader.take 40)

/-- The keyword index block, its payload decrypted when the header says so. -/
def plainKeywordIndex (header : Header) (keyIndexBytes : Bytes) : Except Error Bytes :=
  if header.encryptionMode.hasKeywordIndex then do
    failIf (keyIndexBytes.length < 8) (.truncated "keyword index block" 8 keyIndexBytes.length)
    let blockChecksum := Bytes.toBE ((keyIndexBytes.drop 4).take 4)
    return keyIndexBytes.take 8 ++ decryptKeywordIndexBlock blockChecksum (keyIndexBytes.drop 8)
  else
    .ok keyIndexBytes

/-- Parses and validates the whole version 2 keyword section. -/
def parseKeywordSection (source : FileSource) (header : Header) (keyEncoding : TextEncoding)
    (keywordSectionOffset : Nat) (options : OpenOptions)
    : Exec KeywordSection := do
  Exec.reserve 44 "keyword section header"
  let rawHeader ← source.readExactAt keywordSectionOffset 44 "keyword section header"
  let checksumBytes := (rawHeader.drop 40).take 4
  let plainHeader ← plainKeywordHeader header options rawHeader
  let layout ← detectKeywordIndexLayout plainHeader checksumBytes options.checksumPolicy

  let cursor := Cursor.new plainHeader
  let (numBlocks, cursor) ← cursor.readU64Be "keyword num_blocks"
  let (numEntries, cursor) ← cursor.readU64Be "keyword num_entries"
  let (keyIndexDecompLen, cursor) ← cursor.readU64Be "keyword index decompressed length"
  let (keyIndexCompLen, cursor) ← cursor.readU64Be "keyword index compressed length"
  let (keyBlocksLen, _) ← cursor.readU64Be "keyword blocks length"

  ensureLimit "key_index_decompressed_bytes" keyIndexDecompLen options.limits.keyIndexBytes
  ensureLimit "key_index_compressed_bytes" keyIndexCompLen options.limits.keyIndexBytes
  failIf (keyIndexCompLen < 8)
    (.invalidData s!"keyword index block is {keyIndexCompLen} bytes; at least 8 are required")
  let numBlocks ← validateKeywordHeaderCounts numBlocks numEntries keyIndexDecompLen keyEncoding
    layout options.limits

  let keyIndexOffset ← okOr (checkedAdd keywordSectionOffset 44)
    (.invalidFormat "keyword index offset overflow")
  let keyBlocksOffset ← okOr (checkedAdd keyIndexOffset keyIndexCompLen)
    (.invalidFormat "keyword blocks offset overflow")
  let recordSectionOffset ← okOr (checkedAdd keyBlocksOffset keyBlocksLen)
    (.invalidFormat "record section offset overflow")
  source.ensureRange keyIndexOffset keyIndexCompLen "keyword index block"
  source.ensureRange keyBlocksOffset keyBlocksLen "keyword block section"

  let keyIndexCompLenUsize ← checkedUsize keyIndexCompLen "keyword index compressed length"
  Exec.reserve keyIndexCompLenUsize "compressed keyword index"
  let keyIndexBytes ←
    source.readExactAt keyIndexOffset keyIndexCompLenUsize "keyword index block"
  let keyIndexBytes ← plainKeywordIndex header keyIndexBytes
  let keyIndexDecompLen ← checkedUsize keyIndexDecompLen "keyword index decompressed length"
  Exec.reserve keyIndexDecompLen "decoded keyword index"
  let p ← Exec.platform
  let decodedSummaryBytes ← keyEncoding.maxDecodedLen p keyIndexDecompLen
  let retainedBytes ← okOr
    ((checkedMul numBlocks sizeOfKeyBlockDescriptor).bind (checkedAdd decodedSummaryBytes))
    (.invalidFormat "keyword metadata size overflow")
  Exec.reserve retainedBytes "keyword block metadata"
  let decoded ← decodeBlock "keyword index block" keyIndexBytes keyIndexDecompLen
    options.limits options.checksumPolicy

  let blocks ← parseKeywordIndexEntries p decoded numBlocks keyEncoding layout keyBlocksOffset
    options.limits
  let totalEntries ← totalKeyEntries blocks
  failIf (totalEntries ≠ numEntries)
    (.invalidData s!"keyword entry count mismatch: header={numEntries}, summed={totalEntries}")

  let totalComp ← sumCompSizes 0 blocks
  failIf (totalComp ≠ keyBlocksLen)
    (.invalidData s!"keyword blocks length mismatch: header={keyBlocksLen}, summed={totalComp}")

  blocks.forM fun block => source.ensureRange block.compOffset block.compSize "keyword block"

  return {
    numEntries
    recordSectionOffset
    blocks
    retainedBytes
    sections := {
      header := ⟨keywordSectionOffset, 44⟩
      index := ⟨keyIndexOffset, keyIndexCompLen⟩
      blocks := ⟨keyBlocksOffset, keyBlocksLen⟩
    }
  }

end Mdict.V2
