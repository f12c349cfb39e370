import Mdict.Core.Records

/-!
This module contains the iterators over keys and records.
-/

namespace Mdict

open Effect

/--
Where an iterator over the rows of all key blocks stands.
-/
structure RowIter where
  blockIndex : Nat
  entryIndex : Nat
  currentBlock : Option (List DecodedKeyRow)
  done : Bool
  deriving DecidableEq, Repr

/-- Both iterators start before the first row. -/
def RowIter.new : RowIter where
  blockIndex := 0
  entryIndex := 0
  currentBlock := none
  done := false

namespace RowIter

/-- The next row: its block, its index in the block and the rows of the block. -/
abbrev Position := Nat × Nat × List DecodedKeyRow

/--
Advance to the next row, decoding blocks on the way; nothing when the rows are exhausted. An
iterator whose block fails to decode is done.
-/
def advance (file : MdictFile) (iter : RowIter)
    : Exec (Option (Except Error Position) × RowIter) :=
  if iter.blockIndex ≥ file.keyBlockCount then
    return (none, { iter with done := true })
  else
    match iter.currentBlock with
    | some entries =>
      if iter.entryIndex ≥ entries.length then
        advance file { iter with blockIndex := iter.blockIndex + 1, currentBlock := none }
      else
        return (some (.ok (iter.blockIndex, iter.entryIndex, entries)), iter)
    | none => do
      let decoded ← Prog.attempt (file.decodeKeyBlock iter.blockIndex)
      match decoded with
      | .ok entries =>
        let iter := { iter with currentBlock := some entries, entryIndex := 0 }
        if entries.length ≤ 0 then
          advance file { iter with blockIndex := iter.blockIndex + 1, currentBlock := none }
        else
          return (some (.ok (iter.blockIndex, 0, entries)), iter)
      | .error error => return (some (.error error), { iter with done := true })
termination_by file.keyBlockCount - iter.blockIndex

end RowIter

/-- `KeyIter::next` -/
def KeyIter.next (file : MdictFile) (iter : RowIter)
    : Exec (Option (Except Error KeyEntry) × RowIter) :=
  if iter.done then
    return (none, iter)
  else do
    let (position, iter) ← iter.advance file
    match position with
    | none => return (none, iter)
    | some (.error error) => return (some (.error error), iter)
    | some (.ok (blockIndex, entryIndex, entries)) =>
      let result : Except Error KeyEntry := do
        let block ← okOr file.layout.keyBlocks[blockIndex]? (.panic "key block index out of range")
        let ordinal ← okOr (checkedAdd block.entryStartIndex entryIndex)
          (.invalidFormat "key ordinal overflow")
        let entry ← okOr entries[entryIndex]? (.panic "key entry index out of range")
        return { ordinal, key := entry.key }
      let iter := { iter with entryIndex := iter.entryIndex + 1 }
      return (some result, { iter with done := result.isOk == false })

/-- `RecordIter::next` -/
def RecordIter.next (file : MdictFile) (iter : RowIter)
    : Exec (Option (Except Error MdictFile.RecordDescriptor) × RowIter) :=
  if iter.done then
    return (none, iter)
  else do
    let (position, iter) ← iter.advance file
    match position with
    | none => return (none, iter)
    | some (.error error) => return (some (.error error), iter)
    | some (.ok (blockIndex, entryIndex, entries)) =>
      let result ← Prog.attempt (file.recordDescriptorFromHit { blockIndex, entryIndex, entries })
      let iter :=
        if entryIndex + 1 = entries.length then
          { iter with blockIndex := iter.blockIndex + 1, entryIndex := 0, currentBlock := none }
        else
          { iter with entryIndex := iter.entryIndex + 1 }
      return (some result, { iter with done := result.isOk == false })

end Mdict
