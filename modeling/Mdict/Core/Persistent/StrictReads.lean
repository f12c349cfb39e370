import Mdict.Core.Persistent.Cache
import Mdict.Strict

/-!
This module contains the reads of a key index with all that the program leaves to its build: to
subtract too much, to divide by zero and to slice out of range is a panic.
-/

namespace Mdict

open Effect

namespace PersistentKeyIndex

open Persistent

variable (index : PersistentKeyIndex)

/-! ## Chunks -/

def expectedChecksumStrict (checksumIndex : Nat) : Exec Nat := do
  failIf (checksumIndex ≥ index.header.checksumCount)
    (invalidLayout "checksum index is out of range")
  let byteOffset ← okOr (checkedMul checksumIndex 4) (invalidLayout "checksum offset overflow")
  let page := byteOffset / checksumPageBytes
  let pageStart ← okOr (checkedMul page checksumPageBytes) (invalidLayout "checksum page overflow")
  let tableBytes ← okOr (checkedMul index.header.checksumCount 4)
    (invalidLayout "checksum table overflow")
  let remaining ← subtract tableBytes pageStart
  let pageLen ← checkedUsize (min remaining checksumPageBytes) "persistent checksum page length"
  let bytes ← index.loadChecksumPage page pageStart pageLen
  let offset ← subtract byteOffset pageStart
  let relative ← checkedUsize offset "persistent checksum offset"
  let stop ← okOr (checkedAdd relative 4) (invalidLayout "checksum offset overflow")
  let field ← okOr (bytes.get? relative stop) (invalidLayout "checksum exceeds cached page")
  return Bytes.toLE field

def expectedChunkChecksumStrict (checksumIndex : Nat) : Exec (Option Nat) :=
  match index.checksumPolicy with
  | .verify => do
    let expected ← index.expectedChecksumStrict checksumIndex
    return some expected
  | .skip => return none

def loadVerifiedChunkStrict (kind : SectionKind) (chunk : Nat) : Exec Bytes := do
  let descriptor := index.header.sections kind
  failIf (chunk ≥ descriptor.checksumCount) (invalidLayout "chunk index is out of range")
  let checksumIndex ← okOr (checkedAdd descriptor.checksumStart chunk)
    (invalidLayout "checksum index overflow")
  let expected ← index.expectedChunkChecksumStrict checksumIndex
  let relative ← okOr (checkedMul chunk index.header.chunkBytes)
    (invalidLayout "chunk offset overflow")
  let remaining ← okOr (checkedSub descriptor.len relative) (invalidLayout "chunk exceeds section")
  let len := min remaining index.header.chunkBytes
  let offset ← okOr (checkedAdd descriptor.offset relative) (invalidLayout "chunk offset overflow")
  let len ← checkedUsize len "persistent key-index chunk length"
  let s ← Prog.get
  let slot := s.chunkCache kind
  if slot.number = some chunk ∧ slot.bytes.length = len then
    return slot.bytes
  else
    index.readChunk kind chunk offset len expected

/-! ## Sections -/

/-- Copy the part of a chunk that lies between `offset` and `stop` to its place in `output`. -/
def copyChunkStrict (kind : SectionKind) (offset stop : Nat) (output : Bytes) (chunk : Nat)
    : Exec Bytes := do
  let bytes ← index.loadVerifiedChunkStrict kind chunk
  let chunkStart ← okOr (checkedMul chunk index.header.chunkBytes)
    (invalidLayout "chunk offset overflow")
  let chunkEnd ← okOr (checkedAdd chunkStart bytes.length) (invalidLayout "chunk end overflow")
  let copyStart := max offset chunkStart
  let copyEnd := min stop chunkEnd
  let sourceStart ← subtract copyStart chunkStart
  let sourceStart ← checkedUsize sourceStart "chunk copy source"
  let sourceEnd ← subtract copyEnd chunkStart
  let sourceEnd ← checkedUsize sourceEnd "chunk copy source"
  let targetStart ← subtract copyStart offset
  let targetStart ← checkedUsize targetStart "chunk copy target"
  let targetEnd ← subtract copyEnd offset
  let targetEnd ← checkedUsize targetEnd "chunk copy target"
  copyFromSlice output targetStart targetEnd bytes sourceStart sourceEnd

def readSectionIntoCachedStrict (kind : SectionKind) (offset : Nat) (output : Bytes)
    : Exec Bytes := do
  let descriptor := index.header.sections kind
  let stop ← okOr (checkedAdd offset output.length) (invalidLayout "section read overflow")
  failIf (stop > descriptor.len) (invalidLayout "section read exceeds its bounds")
  if output.length = 0 then
    return output
  else
    let first ← divide offset index.header.chunkBytes
    let lastByte ← subtract stop 1
    let last ← divide lastByte index.header.chunkBytes
    (List.range' first (last + 1 - first)).foldlM
      (index.copyChunkStrict kind offset stop) output

def readSectionStrict (kind : SectionKind) (offset len : Nat) : Exec Bytes := do
  let descriptor := index.header.sections kind
  let stop ← okOr (checkedAdd offset len) (invalidLayout "section read overflow")
  failIf (stop > descriptor.len) (invalidLayout "section read exceeds its bounds")
  Exec.reserve len "persistent key-index read result"
  let output := List.replicate len 0
  if len = 0 then
    return output
  else
    index.readSectionIntoCachedStrict kind offset output

/-- A little-endian number of `width` bytes. -/
def readArrayStrict (kind : SectionKind) (offset width : Nat) : Exec Nat := do
  let bytes ← index.readSectionIntoCachedStrict kind offset (List.replicate width 0)
  return Bytes.toLE bytes

def boundAtStrict (position : Nat) : Exec Nat := do
  failIf (position > index.len) (invalidLayout "text-bound index is out of range")
  let offset ← okOr (checkedMul position 8) (invalidLayout "text-bound offset overflow")
  index.readArrayStrict .bounds offset 8

def orderAtStrict (position : Nat) : Exec Nat := do
  failIf (position ≥ index.len) (invalidLayout "order position is out of range")
  let offset ← okOr (checkedMul position 4) (invalidLayout "order offset overflow")
  index.readArrayStrict .order offset 4

def rawDigestAtStrict (ordinal : Nat) : Exec Nat := do
  failIf (ordinal ≥ index.len) (invalidLayout "raw-digest ordinal is out of range")
  let offset ← okOr (checkedMul ordinal 4) (invalidLayout "raw-digest offset overflow")
  index.readArrayStrict .raw offset 4

end PersistentKeyIndex

/-! ## Runs of reads -/

/-- The reads that the queries of a key index are made of. -/
inductive IndexRead where
  | «section» (kind : SectionKind) (offset len : Nat)
  | bound (position : Nat)
  | order (position : Nat)
  | rawDigest (ordinal : Nat)
  deriving DecidableEq, Repr

/-- The answer of a read. -/
inductive IndexValue where
  | bytes (bytes : Bytes)
  | number (number : Nat)
  deriving DecidableEq, Repr

namespace PersistentKeyIndex

variable (index : PersistentKeyIndex)

def readStrict : (read : IndexRead) → Exec IndexValue
  | .section kind offset len => .bytes <$> index.readSectionStrict kind offset len
  | .bound position => .number <$> index.boundAtStrict position
  | .order position => .number <$> index.orderAtStrict position
  | .rawDigest ordinal => .number <$> index.rawDigestAtStrict ordinal

/-- Reads one after the other, each in its world, and their results. -/
def readAll : (reads : List (World × IndexRead)) → (s : Session)
    → List (World × IndexRead × Except Error IndexValue)
  | [], _ => []
  | (w, read) :: reads, s =>
    let run := index.readStrict read w s
    (w, read, run.1) :: readAll reads run.2

end PersistentKeyIndex

end Mdict
