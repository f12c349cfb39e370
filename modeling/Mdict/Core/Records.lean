import Mdict.Core.Keys

/-!
This module contains access to records: from a key to its span of the decoded record stream, and
from a span to its bytes through a cache of one block.
-/

namespace Mdict.MdictFile

open Effect

structure RecordDescriptor where
  key : KeyEntry
  start : Nat
  stop : Nat
  deriving DecidableEq, Repr

/-- Where the record of a row ends: where the next one starts, in its block or in the next. -/
def recordStop (file : MdictFile) (hit : KeyBlockHit) : Exec Nat :=
  match hit.entries[hit.entryIndex + 1]? with
  | some next => return next.recordStart
  | none =>
    if hit.blockIndex + 1 < file.keyBlockCount then do
      let nextBlock ← file.decodeKeyBlock (hit.blockIndex + 1)
      let first ← okOr nextBlock.head? (.invalidFormat "empty key block")
      return first.recordStart
    else
      return file.layout.totalDecodedRecordLen

def recordDescriptorFromHit (file : MdictFile) (hit : KeyBlockHit) : Exec RecordDescriptor := do
  let block ← okOr file.layout.keyBlocks[hit.blockIndex]?
    (.invalidFormat "key block index out of range")
  let ordinal ← okOr (checkedAdd block.entryStartIndex hit.entryIndex)
    (.invalidFormat "key ordinal overflow")
  let entry ← okOr hit.entries[hit.entryIndex]? (.invalidFormat "key entry index out of range")
  let stop ← file.recordStop hit
  failIf (stop < entry.recordStart)
    (.invalidData s!"record span decreases from {entry.recordStart} to {stop}")
  return { key := { ordinal, key := entry.key }, start := entry.recordStart, stop }

def recordAtOrdinal (file : MdictFile) (ordinal : Nat) : Exec (Option RecordDescriptor) := do
  let hit ← file.keyEntryAtOrdinal ordinal
  match hit with
  | none => return none
  | some hit =>
    let descriptor ← file.recordDescriptorFromHit hit
    return some descriptor

/-! ## Spans -/

def validateRecordSpan (file : MdictFile) (start stop : Nat) : Except Error Nat := do
  failIf (stop < start) (.invalidFormat "record range is inverted")
  let len ← okOr (checkedSub stop start) (.invalidFormat "record range overflow")
  failIf (stop > file.layout.totalDecodedRecordLen)
    (.invalidFormat "record range exceeds record data")
  return len

def materializedRecordSpanLen (file : MdictFile) (start stop : Nat) : Except Error Nat := do
  let len ← file.validateRecordSpan start stop
  ensureLimit "materialized_record_bytes" len file.limits.materializedRecordBytes
  okOr (if len < u64Bound then some len else none)
    (.invalidFormat "materialized record length exceeds usize")

def decodeRecordBlockUncached (file : MdictFile) (index : Nat) : Exec Bytes := do
  let block ← okOr file.layout.recordBlocks[index]?
    (.invalidFormat "record block index out of range")
  let compSize ← checkedUsize block.compSize "record block compressed length"
  let decompSize ← checkedUsize block.decompSize "record block decompressed length"
  Exec.reserve decompSize "decoded record block"
  Exec.reserve compSize "compressed record block"
  let blockBytes ← file.source.readExactAt block.compOffset compSize "record block"
  decodeBlock "record block" blockBytes decompSize file.limits file.checksumPolicy

/-- Decode block `index`, which is not the cached one, and cache what comes out of it. -/
def decodeAndCacheRecordBlock (file : MdictFile) (index : Nat) : Exec Bytes := do
  Prog.modify ({ · with recordBlockCache := none })
  let result ← Prog.attempt (file.decodeRecordBlockUncached index)
  match result with
  | .ok decoded =>
    Prog.modify ({ · with recordBlockCache := some (index, .ready decoded) })
    return decoded
  | .error error =>
    let cached ← CachedFailureKind.capture error
    Prog.modify fun s =>
      match cached with
      | some failure => { s with recordBlockCache := some (index, .failed failure) }
      | none => s
    Prog.fail error

def decodeRecordBlock (file : MdictFile) (index : Nat) : Exec Bytes := do
  let s ← Prog.get
  match s.recordBlockCache with
  | some (cachedIndex, value) =>
    if cachedIndex = index then
      match value with
      | .ready data => return data
      | .failed failure => Prog.fail failure.replay
    else
      file.decodeAndCacheRecordBlock index
  | none => file.decodeAndCacheRecordBlock index

/-- The part of one record block that a traversal up to `stop` visits next, and where it ends. -/
def recordChunk (file : MdictFile) (cursor stop : Nat) : Exec (Bytes × Nat) := do
  let blockIndex ← okOr (findRecordBlock file.layout.recordBlocks cursor)
    (.invalidFormat "record offset not covered by record blocks")
  let block ← okOr file.layout.recordBlocks[blockIndex]? (.panic "record block index out of range")
  let decoded ← file.decodeRecordBlock blockIndex
  let localStart ← okOr (checkedSub cursor block.decompOffset)
    (.invalidFormat "record block offset underflow")
  let localStart ← checkedUsize localStart "record block local start"
  let blockEnd ← okOr (checkedAdd block.decompOffset block.decompSize)
    (.invalidFormat "record block end overflow")
  let chunkEnd := min stop blockEnd
  let localEnd ← okOr (checkedSub chunkEnd block.decompOffset)
    (.invalidFormat "record block offset underflow")
  let localEnd ← checkedUsize localEnd "record block local end"
  failIf (localStart > localEnd ∨ localEnd > decoded.length)
    (.invalidFormat "record block slice is out of range")
  let nextCursor ← okOr (checkedAdd block.decompOffset localEnd)
    (.invalidFormat "record cursor overflow")
  return ((decoded.drop localStart).take (localEnd - localStart), nextCursor)

/-- Visit the chunks of the record stream from `cursor` up to `stop`. -/
def visitRecordSpanFrom {β : Type} (file : MdictFile) (stop : Nat) (visitor : β → Bytes → Exec β)
    (cursor : Nat) (acc : β)
    : Exec β :=
  if cursor < stop then do
    let (chunk, nextCursor) ← file.recordChunk cursor stop
    let acc ← visitor acc chunk
    if nextCursor ≤ cursor then
      Prog.fail (.invalidFormat "record traversal made no progress")
    else
      visitRecordSpanFrom file stop visitor nextCursor acc
  else
    return acc
termination_by stop - cursor

/-- Hand the chunks of a span to `visitor`, which accumulates in `acc` what it makes of them. -/
def visitRecordSpan {β : Type} (file : MdictFile) (start stop : Nat)
    (visitor : β → Bytes → Exec β) (acc : β)
    : Exec β := do
  let _ ← file.validateRecordSpan start stop
  file.visitRecordSpanFrom stop visitor start acc

def readRecordSpan (file : MdictFile) (start stop : Nat) : Exec Bytes := do
  let len ← file.materializedRecordSpanLen start stop
  Exec.reserve len "materialized record"
  file.visitRecordSpan start stop (fun output chunk => return output ++ chunk) []

end Mdict.MdictFile
