import Mdict.Core.Persistent.Index

/-!
This module contains the file format of the persistent key index: how its header is built and
parsed, and how its sections are laid out.
-/

namespace Mdict.Persistent

open Effect

/-- The error of an index whose geometry violates an invariant. -/
def invalidLayout (reason : String) : Error := reject (.invalidLayout reason)

/-! ## Arithmetic of the layout -/

/-- `is_power_of_two` -/
def isPowerOfTwo (n : Nat) : Bool := n != 0 && n &&& (n - 1) == 0

/-- The number of chunks of a section. -/
def chunkCount (len chunkBytes : Nat) : Except Error Nat :=
  if chunkBytes = 0 then
    .error (invalidLayout "chunk length is zero")
  else if len = 0 then
    .ok 0
  else do
    let value ← okOr (checkedAdd len (chunkBytes - 1)) (invalidLayout "chunk count overflow")
    return value / chunkBytes

/-- The next multiple of eight. -/
def align8 (value : Nat) : Except Error Nat := do
  let value ← okOr (checkedAdd value 7) (invalidLayout "section alignment overflow")
  return value / 8 * 8

def validateOptions (options : KeyIndexOptions) : Except Error Unit := do
  failIf (options.buildMemoryBytes < minBuildMemoryBytes)
    (.invalidData s!"key-index build memory must be at least {minBuildMemoryBytes} bytes")
  let maximumChunkBytes := min options.buildMemoryBytes u32Max
  failIf (options.chunkBytes < minChunkBytes ∨ options.chunkBytes > maximumChunkBytes
      ∨ ¬isPowerOfTwo options.chunkBytes)
    (.invalidData (s!"key-index chunk bytes must be a power of two from {minChunkBytes} " ++
      s!"through {maximumChunkBytes}"))
  failIf (options.maxMetadataBytes < headerBytes)
    (.invalidData s!"key-index metadata limit must be at least {headerBytes} bytes")

def checkCancelled (operation : String) : Exec Unit := do
  Exec.log (.checkpoint operation)
  let w ← Prog.ask
  let s ← Prog.get
  if w.cancelled s.events then Prog.fail (.cancelled operation) else pure ()

/-! ## Building a header -/

/-- The sum of the checksum counts of `sections`, each of which has one for every chunk. -/
def checksumTotal (chunkBytes : Nat) (checksumCount : Nat)
    : (sections : List SectionFile) → Except Error Nat
  | [] => .ok checksumCount
  | «section» :: sections => do
    let expected ← chunkCount section.len chunkBytes
    failIf (section.checksums.length ≠ expected)
      (.invalidFormat "key-index section checksum count mismatch")
    let checksumCount ← okOr (checkedAdd checksumCount section.checksums.length)
      (.invalidFormat "key-index checksum count overflow")
    checksumTotal chunkBytes checksumCount sections

/-- Lay out `sections` from `offset` on, aligned; also the end of the last one. -/
def layOut (offset checksumStart : Nat) (descriptors : SectionTable)
    : (sections : List SectionFile) → Except Error (SectionTable × Nat)
  | [] => .ok (descriptors, offset)
  | «section» :: sections => do
    let offset ← align8 offset
    let descriptors := descriptors.set section.kind
      { offset, len := section.len, checksumStart, checksumCount := section.checksums.length }
    let checksumStart ← okOr (checkedAdd checksumStart section.checksums.length)
      (.invalidFormat "key-index checksum index overflow")
    let offset ← okOr (checkedAdd offset section.len)
      (.invalidFormat "key-index section end overflow")
    layOut offset checksumStart descriptors sections

def pushU32 (output : Bytes) (value : Nat) : Bytes := output ++ Bytes.ofLE 4 value

def pushU64 (output : Bytes) (value : Nat) : Bytes := output ++ Bytes.ofLE 8 value

def pushI128 (output : Bytes) (value : BitVec 128) : Bytes := output ++ Bytes.ofLE 16 value.toNat

def pushDescriptor (output : Bytes) (descriptor : SectionDescriptor) : Bytes :=
  let output := pushU64 output descriptor.offset
  let output := pushU64 output descriptor.len
  let output := pushU64 output descriptor.checksumStart
  pushU64 output descriptor.checksumCount

/-- The fields of a header, without padding and checksum. -/
def headerFields (totalLen chunkBytes : Nat) (identity : KeyIndexSourceIdentity)
    (normalizedTextLen : Nat) (descriptors : SectionTable)
    : Bytes :=
  let header := magic
  let header := pushU32 header keyIndexFormatRevision
  let header := pushU32 header endianMarker
  let header := pushU64 header headerBytes
  let header := pushU64 header totalLen
  let header := pushU32 header keyIndexParserRevision
  let header := pushU32 header keyIndexNormalizationRevision
  let header := pushU32 header chunkBytes
  let header := pushU32 header sectionCount
  let header := pushU64 header identity.sourceBytes
  let header := pushI128 header identity.sourceModifiedUnixNanos
  let header := pushU64 header identity.keyCount
  let header := pushU64 header normalizedTextLen
  SectionKind.all.foldl (fun header kind => pushDescriptor header (descriptors kind)) header

def buildHeader (sections : List SectionFile) (identity : KeyIndexSourceIdentity)
    (normalizedTextLen : Nat) (options : KeyIndexOptions)
    : Except Error (Bytes × SectionTable × Nat) := do
  let chunkBytes ← okOr (toU32? options.chunkBytes)
    (.invalidData "key-index chunk size exceeds u32")
  ensureLimit "key_index_header_bytes" headerBytes options.maxMetadataBytes
  let checksumCount ← checksumTotal chunkBytes 0 sections
  let checksumBytes ← okOr (checkedMul checksumCount 4)
    (.invalidFormat "key-index checksum table overflow")
  let metadataBytes ← okOr (checkedAdd headerBytes checksumBytes)
    (.invalidFormat "key-index metadata length overflow")
  ensureLimit "key_index_metadata_bytes" metadataBytes options.maxMetadataBytes
  let offset ← align8 metadataBytes
  let (descriptors, totalLen) ← layOut offset 0 (fun _ => .empty) sections
  ensureLimit "key_index_bytes" totalLen options.maxIndexBytes
  let header := headerFields totalLen chunkBytes identity normalizedTextLen descriptors
  failIf (header.length ≠ headerFieldsBytes)
    (.invalidFormat "key-index fixed header field length mismatch")
  let checksumAt := headerBytes - headerChecksumBytes
  let header := header ++ List.replicate (checksumAt - header.length) 0
  let checksum := if options.checksumPolicy = .verify then adler32 header else 0
  let header := pushU32 header checksum
  failIf (header.length ≠ headerBytes) (.invalidFormat "key-index header length mismatch")
  return (header, descriptors, totalLen)

/-! ## Reading a header -/

/--
The bytes of an index file.
-/
structure IndexSource where
  bytes : Bytes

namespace IndexSource

def len (source : IndexSource) : Nat := source.bytes.length

def readExact (source : IndexSource) (offset len : Nat) : Exec Bytes := do
  let stop ← okOr (checkedAdd offset len) (invalidLayout "read range overflow")
  failIf (stop > source.len) (invalidLayout "read range exceeds file length")
  Exec.log (.indexRead offset len)
  Exec.io
  return (source.bytes.drop offset).take len

end IndexSource

def readU32Slice (bytes : Bytes) (offset : Nat) : Except Error Nat := do
  let stop ← okOr (checkedAdd offset 4) (invalidLayout "header offset overflow")
  let value ← okOr (bytes.get? offset stop) (invalidLayout "truncated header field")
  return Bytes.toLE value

def readU64Slice (bytes : Bytes) (offset : Nat) : Except Error Nat := do
  let stop ← okOr (checkedAdd offset 8) (invalidLayout "header offset overflow")
  let value ← okOr (bytes.get? offset stop) (invalidLayout "truncated header field")
  return Bytes.toLE value

structure HeaderCursor where
  bytes : Bytes
  position : Nat
  deriving DecidableEq, Repr

namespace HeaderCursor

def readArray (cursor : HeaderCursor) (n : Nat) : Except Error (Bytes × HeaderCursor) := do
  let stop ← okOr (checkedAdd cursor.position n) (invalidLayout "header cursor overflow")
  let output ← okOr (cursor.bytes.get? cursor.position stop) (invalidLayout "truncated header field")
  return (output, { cursor with position := stop })

def readU32 (cursor : HeaderCursor) : Except Error (Nat × HeaderCursor) := do
  let (bytes, cursor) ← cursor.readArray 4
  return (Bytes.toLE bytes, cursor)

def readU64 (cursor : HeaderCursor) : Except Error (Nat × HeaderCursor) := do
  let (bytes, cursor) ← cursor.readArray 8
  return (Bytes.toLE bytes, cursor)

def readI128 (cursor : HeaderCursor) : Except Error (BitVec 128 × HeaderCursor) := do
  let (bytes, cursor) ← cursor.readArray 16
  return (BitVec.ofNat 128 (Bytes.toLE bytes), cursor)

def readDescriptor (cursor : HeaderCursor) : Except Error (SectionDescriptor × HeaderCursor) := do
  let (offset, cursor) ← cursor.readU64
  let (len, cursor) ← cursor.readU64
  let (checksumStart, cursor) ← cursor.readU64
  let (checksumCount, cursor) ← cursor.readU64
  return ({ offset, len, checksumStart, checksumCount }, cursor)

def readDescriptors (cursor : HeaderCursor) (table : SectionTable)
    : (kinds : List SectionKind) → Except Error (SectionTable × HeaderCursor)
  | [] => .ok (table, cursor)
  | kind :: kinds => do
    let (descriptor, cursor) ← cursor.readDescriptor
    readDescriptors cursor (table.set kind descriptor) kinds

/-- The fields before the lengths: what the file is and how it was written. -/
def readMarkers (cursor : HeaderCursor) : Except Error HeaderCursor := do
  let (found, cursor) ← cursor.readArray 8
  failIf (found ≠ magic) (reject .invalidMagic)
  let (formatRevision, cursor) ← cursor.readU32
  failIf (formatRevision ≠ keyIndexFormatRevision)
    (reject (.unsupportedFormatRevision formatRevision))
  let (endian, cursor) ← cursor.readU32
  failIf (endian ≠ endianMarker) (reject (.unsupportedEndianMarker endian))
  return cursor

def readRevisions (cursor : HeaderCursor) : Except Error HeaderCursor := do
  let (parserRevision, cursor) ← cursor.readU32
  failIf (parserRevision ≠ keyIndexParserRevision)
    (reject (.incompatibleParserRevision parserRevision))
  let (normalizationRevision, cursor) ← cursor.readU32
  failIf (normalizationRevision ≠ keyIndexNormalizationRevision)
    (reject (.incompatibleNormalizationRevision normalizationRevision))
  return cursor

def readChunkBytes (cursor : HeaderCursor) (options : KeyIndexOptions)
    : Except Error (Nat × HeaderCursor) := do
  let (chunkBytes, cursor) ← cursor.readU32
  failIf (chunkBytes < minChunkBytes ∨ ¬isPowerOfTwo chunkBytes)
    (invalidLayout "chunk length is not a supported power of two")
  failIf (chunkBytes > options.chunkBytes)
    (.limitExceeded "key_index_chunk_bytes" chunkBytes options.chunkBytes)
  return (chunkBytes, cursor)

def readIdentity (cursor : HeaderCursor) : Except Error (KeyIndexSourceIdentity × HeaderCursor) := do
  let (sourceBytes, cursor) ← cursor.readU64
  let (sourceModifiedUnixNanos, cursor) ← cursor.readI128
  let (keyCount, cursor) ← cursor.readU64
  failIf (keyCount > u32Max) (invalidLayout "key count exceeds ordinal representation")
  return ({ sourceBytes, sourceModifiedUnixNanos, keyCount }, cursor)

end HeaderCursor

/-- The checksum ranges of `sections` follow one another; the end of the last one. -/
def checkChecksumRanges (chunkBytes expectedStart : Nat)
    : (sections : List SectionDescriptor) → Except Error Nat
  | [] => .ok expectedStart
  | descriptor :: sections => do
    failIf (descriptor.checksumStart ≠ expectedStart)
      (invalidLayout "checksum ranges are not contiguous")
    let expectedCount ← chunkCount descriptor.len chunkBytes
    failIf (descriptor.checksumCount ≠ expectedCount)
      (invalidLayout "section checksum count is inconsistent")
    let expectedStart ← okOr (checkedAdd expectedStart descriptor.checksumCount)
      (invalidLayout "checksum count overflow")
    checkChecksumRanges chunkBytes expectedStart sections

/-- The bytes between the fields and the checksum are zero. -/
def checkPadding (cursor : HeaderCursor) : Except Error Unit := do
  let paddingEnd ← okOr (checkedSub cursor.bytes.length headerChecksumBytes)
    (invalidLayout "header checksum underflow")
  let padding := (cursor.bytes.drop cursor.position).take (paddingEnd - cursor.position)
  failIf (cursor.position > paddingEnd ∨ padding.any (· ≠ 0))
    (invalidLayout "header padding is not zero")

/-- The sections have the lengths that the counts of the header ask for. -/
def checkSectionLengths (keyCount normalizedTextLen : Nat) (sections : SectionTable)
    : Except Error Unit := do
  let boundsLen ← okOr ((checkedAdd keyCount 1).bind (checkedMul · 8))
    (invalidLayout "bounds length overflow")
  let rowArrayLen ← okOr (checkedMul keyCount 4) (invalidLayout "row array length overflow")
  failIf ((sections .text).len ≠ normalizedTextLen ∨ (sections .bounds).len ≠ boundsLen
      ∨ (sections .raw).len ≠ rowArrayLen ∨ (sections .order).len ≠ rowArrayLen)
    (invalidLayout "section lengths do not match header counts")

def parseHeader (bytes : Bytes) (actualLen : Nat) (options : KeyIndexOptions)
    : Except Error IndexHeader := do
  let cursor ← HeaderCursor.readMarkers { bytes, position := 0 }
  let (headerLen, cursor) ← cursor.readU64
  failIf (headerLen ≠ bytes.length) (invalidLayout "header length changed while parsing")
  let (totalLen, cursor) ← cursor.readU64
  failIf (totalLen ≠ actualLen) (reject (.fileLengthMismatch totalLen actualLen))
  ensureLimit "key_index_bytes" totalLen options.maxIndexBytes
  let cursor ← cursor.readRevisions
  let (chunkBytes, cursor) ← cursor.readChunkBytes options
  let (count, cursor) ← cursor.readU32
  failIf (count ≠ sectionCount) (invalidLayout "unexpected section count")
  let (sourceIdentity, cursor) ← cursor.readIdentity
  let (normalizedTextLen, cursor) ← cursor.readU64
  let (sections, cursor) ← cursor.readDescriptors (fun _ => .empty) SectionKind.all
  let checksumCount ← checkChecksumRanges chunkBytes 0 (SectionKind.all.map sections)
  let checksumBytes ← okOr (checkedMul checksumCount 4) (invalidLayout "checksum table overflow")
  let metadataBytes ← okOr (checkedAdd headerLen checksumBytes)
    (invalidLayout "metadata length overflow")
  ensureLimit "key_index_metadata_bytes" metadataBytes options.maxMetadataBytes
  checkPadding cursor
  checkSectionLengths sourceIdentity.keyCount normalizedTextLen sections
  return {
    headerLen
    totalLen
    chunkBytes
    sourceIdentity
    normalizedTextLen
    sections
    checksumCount
  }

/-- The length that the prefix of an index file declares for its header. -/
def readHeaderLen (source : IndexSource) : Exec Nat := do
  failIf (source.len < headerPrefixBytes) (invalidLayout "truncated header prefix")
  Exec.reserve headerPrefixBytes "persistent key-index header prefix"
  let start ← source.readExact 0 headerPrefixBytes
  failIf (start.get? 0 8 ≠ some magic) (reject .invalidMagic)
  let formatRevision ← readU32Slice start 8
  failIf (formatRevision ≠ keyIndexFormatRevision)
    (reject (.unsupportedFormatRevision formatRevision))
  let endian ← readU32Slice start 12
  failIf (endian ≠ endianMarker) (reject (.unsupportedEndianMarker endian))
  readU64Slice start 16

def readIndexHeader (source : IndexSource) (options : KeyIndexOptions)
    (checksumPolicy : ChecksumPolicy)
    : Exec IndexHeader := do
  let headerLen ← readHeaderLen source
  let headerLen ← checkedUsize headerLen "persistent key-index header length"
  ensureLimit "key_index_header_bytes" headerLen options.maxMetadataBytes
  failIf (headerLen ≠ headerBytes ∨ headerLen > source.len) (invalidLayout "invalid header length")
  Exec.reserve headerLen "persistent key-index header"
  let bytes ← source.readExact 0 headerLen
  let checksumAt := headerLen - headerChecksumBytes
  let expected ← readU32Slice bytes checksumAt
  let actual := adler32 (bytes.take checksumAt)
  failIf (checksumPolicy = .verify ∧ expected ≠ actual)
    (reject (.checksumMismatch "header" none expected actual))
  parseHeader bytes source.len options

/-- Every section starts at the next multiple of eight after the one before. -/
def checkSectionOffsets (sourceLen cursor : Nat)
    : (sections : List SectionDescriptor) → Except Error Nat
  | [] => .ok cursor
  | descriptor :: sections => do
    let aligned ← align8 cursor
    failIf (descriptor.offset ≠ aligned ∨ descriptor.offset % 8 ≠ 0)
      (invalidLayout "sections are not ordered and aligned")
    let cursor ← okOr (checkedAdd descriptor.offset descriptor.len)
      (invalidLayout "section end overflow")
    failIf (cursor > sourceLen) (invalidLayout "section exceeds file length")
    checkSectionOffsets sourceLen cursor sections

def validateSectionLayout (source : IndexSource) (header : IndexHeader) : Except Error Unit := do
  let checksumBytes ← okOr (checkedMul header.checksumCount 4)
    (invalidLayout "checksum table overflow")
  let cursor ← okOr (checkedAdd header.headerLen checksumBytes)
    (invalidLayout "checksum table end overflow")
  let cursor ← if cursor % 8 ≠ 0 then align8 cursor else pure cursor
  let cursor ← checkSectionOffsets source.len cursor (SectionKind.all.map header.sections)
  failIf (cursor ≠ header.totalLen) (invalidLayout "last section does not end at total length")

/-! ## Writing an index -/

/--
A caller's destination: its bytes and the position of the next write.
-/
structure Destination where
  bytes : Bytes
  position : Nat
  deriving DecidableEq, Repr

namespace Destination

/-- Overwrite the bytes from the position on. -/
def writeAll (destination : Destination) (data : Bytes) : Exec Destination := do
  Exec.log (.write data.length)
  Exec.io
  let before := destination.bytes.take destination.position
    ++ List.replicate (destination.position - destination.bytes.length) 0
  return {
    bytes := before ++ data ++ destination.bytes.drop (destination.position + data.length)
    position := destination.position + data.length
  }

/-- Move to a position; nothing is written. -/
def seek (destination : Destination) (position : Nat) : Exec Destination := do
  Exec.log (.write 0)
  Exec.io
  return { destination with position }

/-- Write zeros up to `target`, which is less than eight bytes ahead. -/
def padTo (destination : Destination) (target : Nat) : Exec Destination := do
  failIf (destination.position > target) (.invalidFormat "key-index section overlaps predecessor")
  let padding ← checkedUsize (target - destination.position) "key-index section padding"
  failIf (padding > 7) (.invalidFormat "key-index section padding exceeds alignment")
  destination.writeAll (List.replicate padding 0)

/--
Copy `remaining` bytes of a scratch file from `position` on through a buffer. The options of a
build are validated, so the buffer is not empty.
-/
def copyExact (destination : Destination) (source : Bytes) (position remaining bufferBytes : Nat)
    : Exec Destination :=
  if _ : remaining > 0 ∧ bufferBytes > 0 then do
    checkCancelled "writing persistent key index"
    let readLen ← checkedUsize (min remaining bufferBytes) "key-index copy length"
    Exec.log (.scratch readLen)
    Exec.io
    -- `read_exact` fails when the file ends too soon.
    failIf (position + min remaining bufferBytes > source.length) .io
    let destination ← destination.writeAll ((source.drop position).take readLen)
    copyExact destination source (position + min remaining bufferBytes)
      (remaining - min remaining bufferBytes) bufferBytes
  else
    return destination
termination_by remaining

end Destination

/-- Write the checksum table. -/
def writeChecksums (destination : Destination) (checksums : List Nat) : Exec Destination :=
  checksums.foldlM (fun destination checksum => destination.writeAll (Bytes.ofLE 4 checksum))
    destination

/-- Write the sections, each at its offset. -/
def writeSections (destination : Destination) (bufferBytes : Nat)
    (sections : List (SectionFile × SectionDescriptor))
    : Exec Destination :=
  sections.foldlM (fun (destination : Destination) («section», descriptor) => do
    checkCancelled "writing persistent key index"
    let destination ← destination.padTo descriptor.offset
    destination.copyExact section.file 0 section.len bufferBytes) destination

def writeBuiltIndex (built : BuiltIndex) (destination : Destination) (bufferBytes : Nat)
    : Exec Destination := do
  let destination ← destination.seek 0
  let destination ← destination.writeAll built.header
  let destination ← built.sections.foldlM
    (fun destination «section» => writeChecksums destination section.checksums) destination
  let destination ← writeSections destination bufferBytes
    (built.sections.zip (SectionKind.all.map built.descriptors))
  let written := destination.position
  failIf (written ≠ built.report.bytesWritten)
    (.invalidFormat "generated key-index length mismatch")
  let destination ← destination.seek destination.bytes.length
  failIf (destination.position ≠ built.report.bytesWritten)
    (.invalidFormat "key-index destination was not empty or truncated")
  destination.seek written

end Mdict.Persistent
