import Mdict.Core.File

/-!
This module contains access to physical keys: the decoding of key blocks behind a cache of one
block.
-/

namespace Mdict.MdictFile

open Effect

/-- Locates the key block holding an ordinal. -/
def findKeyBlockByOrdinal (file : MdictFile) (ordinal : Nat) : Except Error (Option Nat) :=
  go 0 file.layout.keyBlocks.length
where
  go (left right : Nat) : Except Error (Option Nat) :=
    if left < right then do
      let mid := (left + right) / 2
      let block ← okOr file.layout.keyBlocks[mid]? (.panic "key block index out of range")
      let blockEnd ← okOr (checkedAdd block.entryStartIndex block.entryCount)
        (.invalidFormat "keyword entry count overflow")
      if ordinal < block.entryStartIndex then
        go left mid
      else if ordinal ≥ blockEnd then
        go (mid + 1) right
      else
        return some mid
    else
      return none
  termination_by right - left

/-- Whether a decoded boundary key is, up to normalization, the one the keyword index declares. -/
def keySummaryMatches (file : MdictFile) (decodedKey indexSummary : Str) : Exec Bool := do
  let p ← Exec.platform
  let decodedLen ← file.normalizer.normalizedLen p decodedKey
  let summaryLen ← file.normalizer.normalizedLen p indexSummary
  let memoryLen ← okOr (checkedAdd decodedLen summaryLen)
    (.invalidFormat "normalized key summary size overflow")
  Exec.reserve memoryLen "normalized key block summaries"
  let decoded ← file.normalizer.normalize p decodedKey
  let summary ← file.normalizer.normalize p indexSummary
  return decoded == summary

def boundariesMatch (file : MdictFile) (first last : DecodedKeyRow) (block : KeyBlockDescriptor)
    : Exec Bool := do
  let firstMatches ← file.keySummaryMatches first.key block.firstKey
  if firstMatches then
    file.keySummaryMatches last.key block.lastKey
  else
    return false

def decodeKeyBlockUncached (file : MdictFile) (index : Nat) : Exec (List DecodedKeyRow) := do
  let block ← okOr file.layout.keyBlocks[index]? (.invalidFormat "key block index out of range")
  let compSize ← checkedUsize block.compSize "key block compressed length"
  let decompSize ← checkedUsize block.decompSize "key block decompressed length"
  let entryCount ← checkedUsize block.entryCount "key block entry count"
  let p ← Exec.platform
  let decodedTextBytes ← file.layout.keyEncoding.maxDecodedLen p decompSize
  let metadataBytes ← okOr (checkedMul entryCount sizeOfDecodedKeyRow)
    (.invalidFormat "decoded key metadata size overflow")
  let retainedBytes ← okOr (checkedAdd decodedTextBytes metadataBytes)
    (.invalidFormat "decoded key block size overflow")
  Exec.reserve retainedBytes "decoded key block"
  Exec.reserve compSize "compressed key block"
  Exec.reserve decompSize "raw decoded key block"

  let blockBytes ← file.source.readExactAt block.compOffset compSize "key block"
  let decoded ← decodeBlock "key block" blockBytes decompSize file.limits file.checksumPolicy
  let parsed ← file.layout.wire.decodeKeyRows p decoded
    { encoding := file.layout.keyEncoding
      expectedEntries := block.entryCount
      totalDecodedRecordLen := file.layout.totalDecodedRecordLen }
  let first ← okOr parsed.head? (.invalidFormat "empty decoded key block")
  let last ← okOr parsed.getLast? (.invalidFormat "empty decoded key block")
  let summariesMatch ← file.boundariesMatch first last block
  failIf (¬summariesMatch)
    (.invalidFormat "keyword block summaries do not match decoded boundary keys")
  return parsed

/-- The rows of block `index` for its successor: from the cache, or else decoded and not cached. -/
def previousRows (file : MdictFile) (index : Nat)
    (cache : Option (Nat × CachedValue (List DecodedKeyRow)))
    : Exec (List DecodedKeyRow) :=
  match cache with
  | some (cachedIndex, value) =>
    if cachedIndex = index then
      match value with
      | .ready rows => return rows
      | .failed failure => Prog.fail failure.replay
    else
      file.decodeKeyBlockUncached index
  | none => file.decodeKeyBlockUncached index

/-- The record start of the last row before block `index`. -/
def previousLast (file : MdictFile) (index : Nat)
    (cache : Option (Nat × CachedValue (List DecodedKeyRow)))
    : Exec (Option Nat) :=
  match index with
  | 0 => return none
  | previous + 1 => do
    let rows ← file.previousRows previous cache
    let last ← okOr rows.getLast? (.invalidFormat "empty decoded key block")
    return some last.recordStart

/-- Check that the rows of a block do not start before the last row of the block before. -/
def checkBoundary (previousLast : Option Nat) (entries : List DecodedKeyRow)
    : Except Error Unit :=
  match previousLast with
  | none => .ok ()
  | some previousLast => do
    let first ← okOr entries.head? (.invalidFormat "empty decoded key block")
    failIf (previousLast > first.recordStart)
      (.invalidData (s!"record starts decrease across key blocks from {previousLast} " ++
        s!"to {first.recordStart}"))

/-- Decode block `index`, which is not the cached one, and check it against its predecessor. -/
def decodeKeyBlockMiss (file : MdictFile) (index : Nat)
    (cache : Option (Nat × CachedValue (List DecodedKeyRow)))
    : Exec (List DecodedKeyRow) := do
  failIf (file.layout.keyBlocks[index]? = none) (.invalidFormat "key block index out of range")
  let previousLast ← file.previousLast index cache
  Prog.modify ({ · with keyBlockCache := none })
  let entries ← file.decodeKeyBlockUncached index
  checkBoundary previousLast entries
  return entries

/-- Keep the failure of block `index` if it is one to keep, and fail. -/
def failKeyBlock {α : Type} (index : Nat) (error : Error) : Exec α := do
  let cached ← CachedFailureKind.capture error
  Prog.modify fun s =>
    match cached with
    | some failure => { s with keyBlockCache := some (index, .failed failure) }
    | none => s
  Prog.fail error

/-- Decode block `index`, which is not the cached one, and cache what comes out of it. -/
def decodeAndCacheKeyBlock (file : MdictFile) (index : Nat)
    (cache : Option (Nat × CachedValue (List DecodedKeyRow)))
    : Exec (List DecodedKeyRow) := do
  let result ← Prog.attempt (file.decodeKeyBlockMiss index cache)
  match result with
  | .ok entries =>
    Prog.modify ({ · with keyBlockCache := some (index, .ready entries) })
    return entries
  | .error error => failKeyBlock index error

def decodeKeyBlock (file : MdictFile) (index : Nat) : Exec (List DecodedKeyRow) := do
  let s ← Prog.get
  match s.keyBlockCache with
  | some (cachedIndex, value) =>
    if cachedIndex = index then
      match value with
      | .ready entries => return entries
      | .failed failure => Prog.fail failure.replay
    else
      file.decodeAndCacheKeyBlock index s.keyBlockCache
  | none => file.decodeAndCacheKeyBlock index none

/-- A row of a decoded key block together with its place. -/
structure KeyBlockHit where
  blockIndex : Nat
  entryIndex : Nat
  entries : List DecodedKeyRow
  deriving DecidableEq, Repr

/-- The block of an ordinal below `len` and the position inside it. -/
def keyPosition (file : MdictFile) (ordinal : Nat) : Except Error (Nat × Nat) := do
  let found ← file.findKeyBlockByOrdinal ordinal
  let blockIndex ← okOr found (.invalidFormat "key ordinal not covered by key blocks")
  let block ← okOr file.layout.keyBlocks[blockIndex]?
    (.invalidFormat "key block index out of range")
  let entryOffset ← okOr (checkedSub ordinal block.entryStartIndex)
    (.invalidFormat "key ordinal underflow")
  let entryIndex ← okOr (if entryOffset < u64Bound then some entryOffset else none)
    (.invalidFormat "key ordinal exceeds usize")
  return (blockIndex, entryIndex)

def keyEntryAtOrdinal (file : MdictFile) (ordinal : Nat) : Exec (Option KeyBlockHit) :=
  if ordinal ≥ file.len then
    return none
  else do
    let (blockIndex, entryIndex) ← file.keyPosition ordinal
    let entries ← file.decodeKeyBlock blockIndex
    failIf (entryIndex ≥ entries.length)
      (.invalidData (s!"key ordinal {ordinal} resolved past decoded block length " ++
        s!"{entries.length}"))
    return some { blockIndex, entryIndex, entries }

def keyAtOrdinal (file : MdictFile) (ordinal : Nat) : Exec (Option KeyEntry) := do
  let hit ← file.keyEntryAtOrdinal ordinal
  match hit with
  | none => return none
  | some hit =>
    let entry ← okOr hit.entries[hit.entryIndex]? (.panic "key entry index out of range")
    return some { ordinal, key := entry.key }

/-! ## Batches -/

/-- A key to find in a batch: its block, its place in the block and its place in the batch. -/
structure KeyRequest where
  blockIndex : Nat
  entryIndex : Nat
  inputIndex : Nat
  ordinal : Nat
  deriving DecidableEq, Repr

/-- The requests for the ordinals from position `inputIndex` of the batch on. -/
def keyRequests (file : MdictFile) (inputIndex : Nat)
    : (ordinals : List Nat) → Except Error (List KeyRequest)
  | [] => .ok []
  | ordinal :: ordinals =>
    if ordinal ≥ file.len then
      keyRequests file (inputIndex + 1) ordinals
    else do
      let (blockIndex, entryIndex) ← file.keyPosition ordinal
      let requests ← keyRequests file (inputIndex + 1) ordinals
      return { blockIndex, entryIndex, inputIndex, ordinal } :: requests

/-- Fill in the results of the requests, which all are for the block with these rows. -/
def fillKeys (entries : List DecodedKeyRow) (results : List (Option KeyEntry))
    : (requests : List KeyRequest) → Except Error (List (Option KeyEntry))
  | [] => .ok results
  | request :: requests => do
    let entry ← okOr entries[request.entryIndex]?
      (.invalidData (s!"key ordinal {request.ordinal} resolved past decoded block length " ++
        s!"{entries.length}"))
    fillKeys entries
      (results.set request.inputIndex (some { ordinal := request.ordinal, key := entry.key }))
      requests

/-- Fill in the results of requests sorted by block, decoding each block once. -/
def fillBlocks (file : MdictFile) (results : List (Option KeyEntry))
    (requests : List KeyRequest)
    : Exec (List (Option KeyEntry)) :=
  match requests with
  | [] => return results
  | request :: rest => do
    let entries ← file.decodeKeyBlock request.blockIndex
    let inBlock := request :: rest.takeWhile (·.blockIndex == request.blockIndex)
    let results ← fillKeys entries results inBlock
    fillBlocks file results (rest.dropWhile (·.blockIndex == request.blockIndex))
termination_by requests.length
decreasing_by
  have := (List.dropWhile_sublist (l := rest) (·.blockIndex == request.blockIndex)).length_le
  simp only [List.length_cons]
  omega

def keysAtOrdinals (file : MdictFile) (ordinals : List Nat) : Exec (List (Option KeyEntry)) := do
  let requests ← file.keyRequests 0 ordinals
  let requests := requests.mergeSort (fun a b => a.blockIndex ≤ b.blockIndex)
  file.fillBlocks (List.replicate ordinals.length none) requests

end Mdict.MdictFile
