import Mdict.Format.Open
import Mdict.Lemmas.Grammar

/-!
This module contains a writer of dictionary files: the documented layout with blocks that are neither
compressed nor encrypted. The library itself only reads; this is what a reader is to undo.
-/

namespace Mdict

/--
What goes into a dictionary file: the text of its header, and entries of a key and a record that are
cut into blocks. The record blocks cut the same record bytes anywhere.
-/
structure Volume where
  version : WireVersion
  kind : ContainerKind
  encoding : UnicodeEncoding
  xml : Str
  keyBlocks : List (List (Str × Bytes))
  recordBlocks : List Bytes
  encoding_eq : kind = .mdd → encoding = .utf16Le
  keyBlocks_ne_nil : ∀ block ∈ keyBlocks, block ≠ []
  keys_terminated : ∀ entry ∈ keyBlocks.flatten, Char.ofNat 0 ∉ entry.1
  recordBlocks_flatten : recordBlocks.flatten = keyBlocks.flatten.flatMap (·.2)

/-- A block that is not compressed: its tag, its checksum and its payload. -/
def envelope (payload : Bytes) : Bytes := [0, 0, 0, 0] ++ Bytes.ofBE 4 (adler32 payload) ++ payload

namespace WireVersion

/-- The bytes of an integer. -/
def width : (version : WireVersion) → Nat
  | v1 => 4
  | v2 => 8

/-- The bytes of the length of a summary. -/
def summaryWidth : (version : WireVersion) → Nat
  | v1 => 1
  | v2 => 2

/-- The number that the header declares. -/
def major : (version : WireVersion) → Nat
  | v1 => 1
  | v2 => 2

def wire : (version : WireVersion) → WireOperations
  | v1 => .v1
  | v2 => .v2

def encodeKeyIndexRow (version : WireVersion) (encoding : UnicodeEncoding) (row : KeyIndexRow)
    : Bytes :=
  match version with
  | v1 => V1.encodeKeyIndexRow encoding row
  | v2 => V2.encodeKeyIndexRow encoding .canonical row

end WireVersion

/-- The rows of the entries of a block whose first record starts at `start`. -/
def rowsFrom (start : Nat) : List (Str × Bytes) → List DecodedKeyRow
  | [] => []
  | (key, record) :: entries =>
    { key, recordStart := start } :: rowsFrom (start + record.length) entries

/-- The rows of all blocks. -/
def blocksFrom (start : Nat) : List (List (Str × Bytes)) → List (List DecodedKeyRow)
  | [] => []
  | entries :: blocks =>
    rowsFrom start entries
      :: blocksFrom (start + (entries.flatMap (·.2)).length) blocks

/-- The descriptors of blocks with these rows of metadata. -/
def keyBlocksAt (compOffset entryStartIndex : Nat) : List KeyIndexRow → List KeyBlockDescriptor
  | [] => []
  | row :: rows =>
    { entryCount := row.entryCount, entryStartIndex, firstKey := row.firstKey
      lastKey := row.lastKey, compOffset, compSize := row.compSize, decompSize := row.decompSize }
      :: keyBlocksAt (compOffset + row.compSize) (entryStartIndex + row.entryCount) rows

/-- The descriptors of record blocks with these sizes of their envelopes and of themselves. -/
def recordBlocksAt (compOffset decompOffset : Nat) : List (Nat × Nat) → List RecordBlockDescriptor
  | [] => []
  | (compSize, decompSize) :: sizes =>
    { compOffset, compSize, decompOffset, decompSize }
      :: recordBlocksAt (compOffset + compSize) (decompOffset + decompSize) sizes

namespace Volume

def entries (volume : Volume) : List (Str × Bytes) := volume.keyBlocks.flatten

def rows (volume : Volume) : List (List DecodedKeyRow) := blocksFrom 0 volume.keyBlocks

def keyPayload (volume : Volume) (rows : List DecodedKeyRow) : Bytes :=
  rows.flatMap (encodeKeyRow volume.version.width volume.encoding)

/-- What the keyword metadata says about a block. -/
def indexRow (volume : Volume) (rows : List DecodedKeyRow) : KeyIndexRow where
  entryCount := rows.length
  firstKey := (rows.head?.map (·.key)).getD []
  lastKey := (rows.getLast?.map (·.key)).getD []
  compSize := (envelope (volume.keyPayload rows)).length
  decompSize := (volume.keyPayload rows).length

def keyIndex (volume : Volume) : Bytes :=
  (volume.rows.map volume.indexRow).flatMap
    (volume.version.encodeKeyIndexRow volume.encoding)

def keyBlockBytes (volume : Volume) : Bytes :=
  (volume.rows.map fun rows => envelope (volume.keyPayload rows)).flatten

def keywordHeader (volume : Volume) : Bytes :=
  match volume.version with
  | .v1 =>
    Bytes.ofBE 4 volume.keyBlocks.length ++ Bytes.ofBE 4 volume.entries.length
      ++ Bytes.ofBE 4 volume.keyIndex.length ++ Bytes.ofBE 4 volume.keyBlockBytes.length
  | .v2 =>
    let header := Bytes.ofBE 8 volume.keyBlocks.length ++ Bytes.ofBE 8 volume.entries.length
      ++ Bytes.ofBE 8 volume.keyIndex.length ++ Bytes.ofBE 8 (envelope volume.keyIndex).length
      ++ Bytes.ofBE 8 volume.keyBlockBytes.length
    header ++ Bytes.ofBE 4 (adler32 header)

/-- The keyword metadata; version 2 has it in an envelope. -/
def keywordIndex (volume : Volume) : Bytes :=
  match volume.version with
  | .v1 => volume.keyIndex
  | .v2 => envelope volume.keyIndex

def recordIndex (volume : Volume) : Bytes :=
  volume.recordBlocks.flatMap fun block =>
    Bytes.ofBE volume.version.width (envelope block).length
      ++ Bytes.ofBE volume.version.width block.length

def recordBlockBytes (volume : Volume) : Bytes := (volume.recordBlocks.map envelope).flatten

def recordHeader (volume : Volume) : Bytes :=
  Bytes.ofBE volume.version.width volume.recordBlocks.length
    ++ Bytes.ofBE volume.version.width volume.entries.length
    ++ Bytes.ofBE volume.version.width volume.recordIndex.length
    ++ Bytes.ofBE volume.version.width volume.recordBlockBytes.length

/-- The text of the tag in UTF-16LE between its length and its checksum. -/
def headerSection (volume : Volume) : Bytes :=
  let text := Unicode.utf16le volume.xml
  Bytes.ofBE 4 text.length ++ text ++ Bytes.ofLE 4 (adler32 text)

/-- The seven sections of a file, in their order. -/
def sections (volume : Volume) : List Bytes :=
  [volume.headerSection, volume.keywordHeader, volume.keywordIndex, volume.keyBlockBytes,
    volume.recordHeader, volume.recordIndex, volume.recordBlockBytes]

def bytes (volume : Volume) : Bytes := volume.sections.flatten

/-- Where section `i` starts. -/
def offset (volume : Volume) (i : Nat) : Nat := Search.start (volume.sections.map List.length) i

/-- What is written in an envelope. -/
def payloads (volume : Volume) : List Bytes :=
  (match volume.version with
    | .v1 => []
    | .v2 => [volume.keyIndex])
    ++ volume.rows.map volume.keyPayload ++ volume.recordBlocks

/-- The fields of the format can describe the file, and it is within the limits of its reader. -/
structure Fits (volume : Volume) (limits : Limits) : Prop where
  length : 64 * volume.bytes.length < u64Bound
  narrow : volume.version = .v1 → ∀ part ∈ [volume.keyIndex, volume.keyBlockBytes,
    volume.recordIndex, volume.recordBlockBytes], part.length < u32Bound
  xml : (Unicode.utf16le volume.xml).length < u32Bound
  xmlLimit : (Unicode.utf16le volume.xml).length ≤ limits.headerXmlBytes
  summaries : ∀ rows ∈ volume.rows, ∀ row ∈ rows,
    volume.encoding.unitsOf row.key < 256 ^ volume.version.summaryWidth
  keywordIndex : volume.keywordIndex.length ≤ limits.keyIndexBytes
  keyMetadata : volume.keyBlocks.length * sizeOfKeyBlockDescriptor ≤ limits.blockMetadataBytes
  keyBlockEntries : ∀ block ∈ volume.keyBlocks, block.length ≤ limits.keyBlockEntries
  recordIndex : volume.recordIndex.length ≤ limits.recordIndexBytes
  recordMetadata : volume.recordBlocks.length * sizeOfRecordBlockDescriptor
    ≤ limits.blockMetadataBytes
  payloads : ∀ payload ∈ volume.payloads, payload.length + 8 ≤ limits.compressedBlockBytes
    ∧ payload.length ≤ limits.decompressedBlockBytes

/-- The tag of the header declares the version, the encoding and no encryption. -/
structure Declares (volume : Volume) (limits : Limits) (header : Header) : Prop where
  parsed : ∃ tagName attributes parsed,
    parseSingleTag (Str.trim (Str.trimMatches (· == Char.ofNat 0) volume.xml)) limits
        = .ok (tagName, attributes)
      ∧ buildHeaderSection volume.kind (Unicode.utf16le volume.xml).length
          (Str.trim (Str.trimMatches (· == Char.ofNat 0) volume.xml)) tagName attributes 0
        = .ok parsed
      ∧ parsed.header = header
  plain : header.encrypted = 0
  generated : declaredMajorVersion header.generatedByEngineVersion
    "malformed GeneratedByEngineVersion" = .ok volume.version.major
  required : ∃ requiredMajor,
    declaredMajorVersion header.requiredEngineVersion "malformed RequiredEngineVersion"
        = .ok requiredMajor
      ∧ validateVersionRelationship volume.version.major requiredMajor = .ok ()
  encoding : TextEncoding.forKeys volume.kind header = .ok volume.encoding.text

/-! ## What a reader is to make of it -/

def keyBlockDescriptors (volume : Volume) : List KeyBlockDescriptor :=
  keyBlocksAt (volume.offset 3) 0 (volume.rows.map volume.indexRow)

def recordBlockDescriptors (volume : Volume) : List RecordBlockDescriptor :=
  recordBlocksAt (volume.offset 6) 0
    (volume.recordBlocks.map fun block => ((envelope block).length, block.length))

def keywordSection (volume : Volume) (retainedBytes : Nat) : KeywordSection where
  numEntries := volume.entries.length
  blocks := volume.keyBlockDescriptors
  recordSectionOffset := volume.offset 4
  retainedBytes
  sections := {
    header := ⟨volume.offset 1, volume.keywordHeader.length⟩
    index := ⟨volume.offset 2, volume.keywordIndex.length⟩
    blocks := ⟨volume.offset 3, volume.keyBlockBytes.length⟩
  }

def recordSection (volume : Volume) (retainedBytes : Nat) : RecordSection where
  numEntries := volume.entries.length
  totalDecompressedLen := volume.recordBlocks.flatten.length
  blocks := volume.recordBlockDescriptors
  retainedBytes
  sections := {
    header := ⟨volume.offset 4, volume.recordHeader.length⟩
    index := ⟨volume.offset 5, volume.recordIndex.length⟩
    blocks := ⟨volume.offset 6, volume.recordBlockBytes.length⟩
  }

def layout (volume : Volume) (header : Header) : ValidatedLayout where
  header
  keyEncoding := volume.encoding.text
  recordEncoding :=
    match volume.kind with
    | .mdx => some volume.encoding.text
    | .mdd => none
  sections := {
    header := ⟨0, volume.headerSection.length⟩
    keywordHeader := ⟨volume.offset 1, volume.keywordHeader.length⟩
    keywordIndex := ⟨volume.offset 2, volume.keywordIndex.length⟩
    keywordBlocks := ⟨volume.offset 3, volume.keyBlockBytes.length⟩
    recordHeader := ⟨volume.offset 4, volume.recordHeader.length⟩
    recordIndex := ⟨volume.offset 5, volume.recordIndex.length⟩
    recordBlocks := ⟨volume.offset 6, volume.recordBlockBytes.length⟩
  }
  totalEntries := volume.entries.length
  totalDecodedRecordLen := volume.recordBlocks.flatten.length
  keyBlocks := volume.keyBlockDescriptors
  recordBlocks := volume.recordBlockDescriptors
  wire := volume.version.wire

end Volume

end Mdict
