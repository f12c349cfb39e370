import Mdict.Core.Persistent.Format

/-!
This module contains an open key index: reads of its sections through caches of one chunk each, and
the binary search over its rows.
-/

namespace Mdict

open Effect

/-- Check that the dictionary is the one an identity describes, and that nobody changed it. -/
def MdictFile.validateDictionaryIdentity (file : MdictFile) (identity : KeyIndexSourceIdentity)
    : Exec Unit := do
  let current ← FileSource.currentIdentity
  failIf (file.source.len ≠ identity.sourceBytes ∨ current.len ≠ identity.sourceBytes)
    (reject (.sourceLengthMismatch identity.sourceBytes current.len))
  failIf (current.modifiedUnixNanos ≠ identity.sourceModifiedUnixNanos)
    (reject (.sourceModifiedMismatch identity.sourceModifiedUnixNanos current.modifiedUnixNanos))
  failIf (file.len ≠ identity.keyCount)
    (reject (.keyCountMismatch identity.keyCount file.len))

/--
Validated file-backed key index. Large section chunks remain lazy.
-/
structure PersistentKeyIndex where
  source : Persistent.IndexSource
  header : IndexHeader
  maxRowBytes : Nat
  checksumPolicy : ChecksumPolicy

namespace PersistentKeyIndex

open Persistent

def sourceIdentity (index : PersistentKeyIndex) : KeyIndexSourceIdentity :=
  index.header.sourceIdentity

def len (index : PersistentKeyIndex) : Nat := index.header.sourceIdentity.keyCount

/-- The memory that the caches of an index may take. -/
def cacheBytes (header : IndexHeader) (checksumPolicy : ChecksumPolicy) : Except Error Nat := do
  let chunkBytes ← checkedUsize header.chunkBytes "persistent key-index chunk cache"
  let chunkCacheBytes ← okOr (checkedMul chunkBytes sectionCount)
    (.invalidFormat "persistent key-index chunk cache size overflow")
  let checksumTableBytes ← okOr (checkedMul header.checksumCount 4)
    (.invalidFormat "persistent checksum table overflow")
  let checksumCacheBytes ← checkedUsize
    (if checksumPolicy = .verify then min checksumTableBytes checksumPageBytes else 0)
    "persistent checksum cache"
  okOr (checkedAdd chunkCacheBytes checksumCacheBytes)
    (.invalidFormat "persistent key-index cache size overflow")

def openFile (bytes : Bytes) (file : MdictFile) (expected : KeyIndexSourceIdentity)
    (options : KeyIndexOptions)
    : Exec PersistentKeyIndex := do
  validateOptions options
  Exec.log (.indexRead 0 0)
  Exec.io
  let source : IndexSource := { bytes }
  ensureLimit "key_index_bytes" source.len options.maxIndexBytes
  let header ← readIndexHeader source options options.checksumPolicy
  failIf (header.sourceIdentity ≠ expected) (reject .sourceIdentityMismatch)
  file.validateDictionaryIdentity expected
  validateSectionLayout source header
  let cacheBytes ← cacheBytes header options.checksumPolicy
  Exec.reserve cacheBytes "persistent key-index chunk cache"
  Prog.modify ({ · with chunkCache := fun _ => .new, checksumCache := .new })
  return {
    source
    header
    maxRowBytes := file.limits.decompressedBlockBytes
    checksumPolicy := options.checksumPolicy
  }

variable (index : PersistentKeyIndex)

/-! ## Chunks -/

/-- The bytes of a slot after `Vec::resize`. -/
def resize (bytes : Bytes) (len : Nat) : Bytes :=
  bytes.take len ++ List.replicate (len - bytes.length) 0

/-- Make sure that the checksum cache holds page `page`, which has `pageLen` bytes. -/
def loadChecksumPage (page pageStart pageLen : Nat) : Exec Bytes := do
  let s ← Prog.get
  if s.checksumCache.number ≠ some page ∨ s.checksumCache.bytes.length ≠ pageLen then
    Prog.modify fun s =>
      { s with checksumCache := ⟨none, resize s.checksumCache.bytes pageLen⟩ }
    let absolute ← okOr (checkedAdd index.header.headerLen pageStart)
      (invalidLayout "checksum table offset overflow")
    let bytes ← index.source.readExact absolute pageLen
    Prog.modify ({ · with checksumCache := ⟨some page, bytes⟩ })
    return bytes
  else
    return s.checksumCache.bytes

def expectedChecksum (checksumIndex : Nat) : Exec Nat := do
  failIf (checksumIndex ≥ index.header.checksumCount)
    (invalidLayout "checksum index is out of range")
  let byteOffset ← okOr (checkedMul checksumIndex 4) (invalidLayout "checksum offset overflow")
  let page := byteOffset / checksumPageBytes
  let pageStart ← okOr (checkedMul page checksumPageBytes) (invalidLayout "checksum page overflow")
  let tableBytes ← okOr (checkedMul index.header.checksumCount 4)
    (invalidLayout "checksum table overflow")
  let pageLen ← checkedUsize (min (tableBytes - pageStart) checksumPageBytes)
    "persistent checksum page length"
  let bytes ← index.loadChecksumPage page pageStart pageLen
  let relative ← checkedUsize (byteOffset - pageStart) "persistent checksum offset"
  let stop ← okOr (checkedAdd relative 4) (invalidLayout "checksum offset overflow")
  let field ← okOr (bytes.get? relative stop) (invalidLayout "checksum exceeds cached page")
  return Bytes.toLE field

/-- The checksum that a chunk must have, if the policy is to verify it. -/
def expectedChunkChecksum (checksumIndex : Nat) : Exec (Option Nat) :=
  match index.checksumPolicy with
  | .verify => do
    let expected ← index.expectedChecksum checksumIndex
    return some expected
  | .skip => return none

/-- Put `slot` into the chunk cache. -/
def setSlot (kind : SectionKind) (slot : VerifiedChunk) : Exec Unit :=
  Prog.modify fun s =>
    { s with chunkCache := fun other => if other = kind then slot else s.chunkCache other }

/-- Read a chunk that is not in its slot, verify it and keep it. -/
def readChunk (kind : SectionKind) (chunk offset len : Nat) (expected : Option Nat)
    : Exec Bytes := do
  let s ← Prog.get
  setSlot kind ⟨none, resize (s.chunkCache kind).bytes len⟩
  let bytes ← index.source.readExact offset len
  match expected with
  | none =>
    setSlot kind ⟨some chunk, bytes⟩
    return bytes
  | some expected =>
    let actual := adler32 bytes
    if expected ≠ actual then
      setSlot kind ⟨none, []⟩
      Prog.fail (reject (.checksumMismatch kind.name (some chunk) expected actual))
    else
      setSlot kind ⟨some chunk, bytes⟩
      return bytes

def loadVerifiedChunk (kind : SectionKind) (chunk : Nat) : Exec Bytes := do
  let descriptor := index.header.sections kind
  failIf (chunk ≥ descriptor.checksumCount) (invalidLayout "chunk index is out of range")
  let checksumIndex ← okOr (checkedAdd descriptor.checksumStart chunk)
    (invalidLayout "checksum index overflow")
  let expected ← index.expectedChunkChecksum checksumIndex
  let relative ← okOr (checkedMul chunk index.header.chunkBytes)
    (invalidLayout "chunk offset overflow")
  let remaining ← okOr (checkedSub descriptor.len relative) (invalidLayout "chunk exceeds section")
  let len := min remaining index.header.chunkBytes
  let offset ← okOr (checkedAdd descriptor.offset relative) (invalidLayout "chunk offset overflow")
  let len ← checkedUsize len "persistent key-index chunk length"
  let s ← Prog.get
  let slot := s.chunkCache kind
  if slot.number = some chunk ∧ slot.bytes.length = len then
    return slot.bytes
  else
    index.readChunk kind chunk offset len expected

/-! ## Sections -/

/-- The part of a chunk that lies between `offset` and `stop`. -/
def copyChunk (kind : SectionKind) (offset stop chunk : Nat) : Exec Bytes := do
  let bytes ← index.loadVerifiedChunk kind chunk
  let chunkStart ← okOr (checkedMul chunk index.header.chunkBytes)
    (invalidLayout "chunk offset overflow")
  let chunkEnd ← okOr (checkedAdd chunkStart bytes.length) (invalidLayout "chunk end overflow")
  let copyStart := max offset chunkStart
  let copyEnd := min stop chunkEnd
  return (bytes.drop (copyStart - chunkStart)).take (copyEnd - copyStart)

/-- The chunks of a read are adjacent, so each is copied behind the one before. -/
def readSectionIntoCached (kind : SectionKind) (offset len : Nat) : Exec Bytes := do
  let descriptor := index.header.sections kind
  let stop ← okOr (checkedAdd offset len) (invalidLayout "section read overflow")
  failIf (stop > descriptor.len) (invalidLayout "section read exceeds its bounds")
  if len = 0 then
    return []
  else
    let first := offset / index.header.chunkBytes
    let last := (stop - 1) / index.header.chunkBytes
    (List.range' first (last + 1 - first)).foldlM (fun output chunk => do
      let part ← index.copyChunk kind offset stop chunk
      return output ++ part) []

def readSection (kind : SectionKind) (offset len : Nat) : Exec Bytes := do
  let descriptor := index.header.sections kind
  let stop ← okOr (checkedAdd offset len) (invalidLayout "section read overflow")
  failIf (stop > descriptor.len) (invalidLayout "section read exceeds its bounds")
  Exec.reserve len "persistent key-index read result"
  if len = 0 then
    return []
  else
    index.readSectionIntoCached kind offset len

def boundAt (position : Nat) : Exec Nat := do
  failIf (position > index.len) (invalidLayout "text-bound index is out of range")
  let offset ← okOr (checkedMul position 8) (invalidLayout "text-bound offset overflow")
  let bytes ← index.readSectionIntoCached .bounds offset 8
  return Bytes.toLE bytes

def orderAt (position : Nat) : Exec Nat := do
  failIf (position ≥ index.len) (invalidLayout "order position is out of range")
  let offset ← okOr (checkedMul position 4) (invalidLayout "order offset overflow")
  let bytes ← index.readSectionIntoCached .order offset 4
  return Bytes.toLE bytes

def rawDigestAt (ordinal : Nat) : Exec Nat := do
  failIf (ordinal ≥ index.len) (invalidLayout "raw-digest ordinal is out of range")
  let offset ← okOr (checkedMul ordinal 4) (invalidLayout "raw-digest offset overflow")
  let bytes ← index.readSectionIntoCached .raw offset 4
  return Bytes.toLE bytes

/-- The normalized text of a row; it is valid UTF-8. -/
def rowText (ordinal : Nat) : Exec Bytes := do
  failIf (ordinal ≥ index.len) (invalidLayout "text ordinal is out of range")
  let start ← index.boundAt ordinal
  let stop ← index.boundAt (ordinal + 1)
  let len ← okOr (checkedSub stop start) (invalidLayout "text bounds are inverted")
  failIf (stop > index.header.normalizedTextLen) (invalidLayout "text bounds exceed text section")
  let len ← checkedUsize len "persistent normalized key length"
  ensureLimit "key_index_row_bytes" len index.maxRowBytes
  let bytes ← index.readSection .text start len
  failIf (Unicode.utf8Decode? bytes = none) (invalidLayout "normalized key is not UTF-8")
  return bytes

/-! ## Searching -/

/-- Whether the search for `query` goes on to the left of a row. -/
def goesLeft (query row : Bytes) (inclusiveEnd : Bool) : Bool :=
  if inclusiveEnd then decide (query < row) else decide (¬row < query)

def lowerBoundFrom (query : Bytes) (inclusiveEnd : Bool) (left right : Nat) : Exec Nat :=
  if left < right then do
    let middle := left + (right - left) / 2
    let ordinal ← index.orderAt middle
    let row ← index.rowText ordinal
    if goesLeft query row inclusiveEnd then
      lowerBoundFrom query inclusiveEnd left middle
    else
      lowerBoundFrom query inclusiveEnd (middle + 1) right
  else
    return left
termination_by right - left

def lowerBound (query : Bytes) (inclusiveEnd : Bool) : Exec Nat :=
  index.lowerBoundFrom query inclusiveEnd 0 index.len

def equalRange (query : Bytes) : Exec (Option (Nat × Nat)) := do
  let start ← index.lowerBound query false
  let stop ← index.lowerBound query true
  return if start < stop then some (start, stop) else none

def ordinalsIn (start stop : Nat) : Exec (List Nat) := do
  let count ← okOr (checkedSub stop start) (invalidLayout "order range is inverted")
  let _ ← checkedUsize count "persistent key-index match count"
  (List.range' start (stop - start)).mapM index.orderAt

end PersistentKeyIndex

end Mdict
