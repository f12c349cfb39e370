import Mdict.Core.Persistent.Cache

/-!
This module contains the queries of a persistent key index: every positive answer is verified
against the source.
-/

namespace Mdict

open Effect

namespace MdictFile

open Persistent

variable (file : MdictFile) (index : PersistentKeyIndex)

/-- The source key of a row, which must have the normalized text and agree with the index. -/
def verifiedSourceKey (ordinal : Nat) (expectedNormalized : Bytes) : Exec KeyEntry := do
  let entry ← file.keyAtOrdinal ordinal
  let entry ← okOr entry (reject (.sourceKeyMismatch ordinal))
  let p ← Exec.platform
  let normalized ← file.normalizer.normalize p entry.key
  failIf (Unicode.utf8 normalized ≠ expectedNormalized) (reject (.sourceKeyMismatch ordinal))
  let row ← index.rowText ordinal
  failIf (row ≠ Unicode.utf8 normalized) (reject (.sourceKeyMismatch ordinal))
  let digest ← index.rawDigestAt ordinal
  failIf (digest ≠ rawDigest entry.key) (reject (.sourceKeyMismatch ordinal))
  return entry

/-- The normalized form of a query and its equal range, after a look at the dictionary. -/
def indexedRange (query : Str) (context : String) : Exec (Bytes × Option (Nat × Nat)) := do
  file.validateDictionaryIdentity index.sourceIdentity
  let normalized ← file.normalizedQuery query context
  let range ← index.equalRange normalized
  return (normalized, range)

def locateCaseVariantsWithIndex (query : Str) (offset limit : Nat)
    : Exec (Option LocatedKeyPage) := do
  let (normalized, range) ← file.indexedRange index query "persistent case-variant query"
  match range with
  | none => return none
  | some (start, stop) =>
    let count ← okOr (checkedSub stop start) (invalidLayout "order range is inverted")
    let count ← checkedUsize count "persistent case-variant count"
    CaseVariants.selectPage file query count offset limit fun position => do
      let ordinal ← index.orderAt (start + position)
      let key ← file.verifiedSourceKey index ordinal normalized
      return (ordinal, key.key)

/-- Whether the source key of a row is `query`; the digest of the row rules out most. -/
def rawExactRow (digest : Nat) (query : Str) (normalized : Bytes) (ordinal : Nat)
    : Exec Bool := do
  let rowDigest ← index.rawDigestAt ordinal
  if rowDigest ≠ digest then
    return false
  else
    let key ← file.verifiedSourceKey index ordinal normalized
    return key.key == query

/-- Move the exact rows to the front of `ordinals`; also their number. -/
def moveExactRows (digest : Nat) (query : Str) (normalized : Bytes) (ordinals : List Nat)
    : Exec (List Nat × Nat) :=
  (List.range ordinals.length).foldlM (fun (state : List Nat × Nat) position => do
    let (ordinals, exactCount) := state
    let ordinal ← okOr ordinals[position]? (.panic "ordinal position out of range")
    let isExact ← file.rawExactRow index digest query normalized ordinal
    return if isExact then (ordinals.set exactCount ordinal, exactCount + 1) else state)
    (ordinals, 0)

def locateWithIndex (query : Str) : Exec (Option LocatedKeys) := do
  let (normalized, range) ← file.indexedRange index query "persistent key-index query"
  match range with
  | none => return none
  | some (start, stop) =>
    let matchCount ← okOr (checkedSub stop start) (invalidLayout "order range is inverted")
    let matchCount ← checkedUsize matchCount "persistent key-index match count"
    let matchBytes ← okOr (checkedMul matchCount 4)
      (.invalidFormat "persistent key-index match size overflow")
    ensureLimit "key_index_match_bytes" matchBytes file.limits.locatorBytes
    Exec.reserve matchBytes "persistent key-index matches"
    let ordinals ← index.ordinalsIn start stop
    let (ordinals, exactCount) ←
      file.moveExactRows index (rawDigest query) query normalized ordinals
    if exactCount ≠ 0 then
      return LocatedKeys.fromOwned .rawExact (ordinals.take exactCount)
    else
      let _ ← ordinals.mapM fun ordinal => file.verifiedSourceKey index ordinal normalized
      return LocatedKeys.fromOwned .headerNormalized ordinals

def locatePageWithIndex (query : Str) (offset limit : Nat) : Exec (Option LocatedKeyPage) := do
  let (normalized, range) ← file.indexedRange index query "persistent paged key-index query"
  match range with
  | none => return none
  | some (start, stop) =>
    let total ← okOr (checkedSub stop start) (invalidLayout "order range is inverted")
    let total ← checkedUsize total "persistent key-index match count"
    let pageCapacity := min limit (total - offset)
    let pageBytes ← okOr (checkedMul pageCapacity 4)
      (.invalidFormat "persistent key-index page size overflow")
    ensureLimit "key_match_page_bytes" pageBytes file.limits.locatorBytes
    Exec.reserve pageBytes "persistent key-index match page"
    let rows ← (positions start stop).foldlM (fun (rows : PageRows) position => do
      let ordinal ← index.orderAt position
      let isExact ← file.rawExactRow index (rawDigest query) query normalized ordinal
      if isExact then rows.push offset limit ordinal else pure rows)
      { ordinals := [], exactCount := 0 }
    if rows.exactCount ≠ 0 then
      return some { basis := .rawExact, total := rows.exactCount, ordinals := rows.ordinals }
    else
      let ordinals ← (List.range (stop - start)).foldlM (fun (ordinals : List Nat) matchIndex => do
        let ordinal ← index.orderAt (start + matchIndex)
        let _ ← file.verifiedSourceKey index ordinal normalized
        return if matchIndex ≥ offset ∧ ordinals.length < limit then ordinals ++ [ordinal]
          else ordinals) []
      return some { basis := .headerNormalized, total, ordinals }

/-- Collect the rows from `position` on whose normalized text starts with `normalized`. -/
def prefixRowsFrom (normalized : Bytes) (limit position : Nat) (found : List KeyEntry)
    : Exec (List KeyEntry) :=
  if _ : position < index.len ∧ found.length < limit then do
    let ordinal ← index.orderAt position
    let row ← index.rowText ordinal
    if normalized.isPrefixOf row then
      let key ← file.verifiedSourceKey index ordinal row
      prefixRowsFrom normalized limit (position + 1) (found ++ [key])
    else
      return found
  else
    return found
termination_by index.len - position

def prefixWithIndex (keyPrefix : Str) (limit : Nat) : Exec (List KeyEntry) :=
  if limit = 0 then
    return []
  else do
    file.validateDictionaryIdentity index.sourceIdentity
    let normalized ← file.normalizedQuery keyPrefix "persistent key-index prefix query"
    let position ← index.lowerBound normalized false
    file.prefixRowsFrom index normalized limit position []

/-- Visit the rows until `visit` says to stop. -/
def scanRows {β : Type} (visit : β → Nat → Bytes → β × Bool) : (rows : List Nat) → β → Exec β
  | [], acc => return acc
  | row :: rows, acc => do
    let ordinal ← okOr (toU32? row) (invalidLayout "key count exceeds ordinal representation")
    let text ← index.rowText ordinal
    let _ ← file.verifiedSourceKey index ordinal text
    match visit acc row text with
    | (acc, true) => return acc
    | (acc, false) => scanRows visit rows acc

def scanWithIndex {β : Type} (visit : β → Nat → Bytes → β × Bool) (acc : β) : Exec β := do
  file.validateDictionaryIdentity index.sourceIdentity
  file.scanRows index visit (List.range index.len) acc

end MdictFile

end Mdict
