import Mdict.Core.Keys

/-!
This module contains global lookup: an index over all keys by normalized text, built on first use,
and the queries that search it.
-/

namespace Mdict

open Effect

/-! ## Digests -/

/--
A cheap order-sensitive digest, used only to skip rows that cannot be raw-exact.
-/
def rawDigest (raw : Str) : Nat :=
  (Unicode.utf8 raw).foldl (fun hash byte => (hash ^^^ byte.toNat) * 16777619 % u32Bound) 2166136261

/-! ## Rows -/

/-- `str::get` with a default: the empty string when the range is no slice of `text`. -/
def textSlice (text : Bytes) (start stop : Nat) : Bytes :=
  if Unicode.isCharBoundary text start && Unicode.isCharBoundary text stop then
    (text.get? start stop).getD []
  else
    []

def rowText (text : Bytes) (bounds : List Nat) (row : Nat) : Bytes :=
  match bounds[row]?, bounds[row + 1]? with
  | some start, some stop => textSlice text start stop
  | _, _ => []

def compareRows (text : Bytes) (bounds : List Nat) (left right : Nat) : Ordering :=
  (compareOfLessAndEq (rowText text bounds left) (rowText text bounds right)).then
    (compareOfLessAndEq left right)

namespace KeyLocator

/-- The normalized text of one physical row. -/
def row (locator : KeyLocator) (row : Nat) : Bytes := rowText locator.text locator.bounds row

def rowCount (locator : KeyLocator) : Nat := locator.order.length

def equalRange (locator : KeyLocator) (query : Bytes) : Option (Nat × Nat) :=
  let start := Search.partitionPoint (fun row => decide (locator.row row < query)) locator.order
  let stop := Search.partitionPoint (fun row => decide (¬query < locator.row row)) locator.order
  if start < stop then some (start, stop) else none

end KeyLocator

/-! ## Results -/

inductive LocatorBasis where
  | rawExact
  | headerNormalized
  | caseVariants
  deriving DecidableEq, Repr

inductive LocatedOrdinals where
  | locator (locator : KeyLocator) (start stop : Nat)
  | owned (ordinals : List Nat)
  deriving DecidableEq, Repr

structure LocatedKeys where
  basis : LocatorBasis
  ordinals : LocatedOrdinals
  deriving DecidableEq, Repr

namespace LocatedKeys

def fromOwned (basis : LocatorBasis) (ordinals : List Nat) : Option LocatedKeys :=
  if ordinals = [] then none else some { basis, ordinals := .owned ordinals }

def len (keys : LocatedKeys) : Nat :=
  match keys.ordinals with
  | .locator _ start stop => stop - start
  | .owned ordinals => ordinals.length

def ordinalAt (keys : LocatedKeys) (index : Nat) : Option Nat :=
  match keys.ordinals with
  | .locator locator start stop => do
    let position ← checkedAdd start index
    if position ≥ stop then none else locator.order[position]?
  | .owned ordinals => ordinals[index]?

/-- The ordinals that iterating over the matches yields. -/
def iter (keys : LocatedKeys) : List Nat := (List.range keys.len).filterMap keys.ordinalAt

end LocatedKeys

structure LocatedKeyPage where
  basis : LocatorBasis
  total : Nat
  ordinals : List Nat
  deriving DecidableEq, Repr

def LocatedKeyPage.intoMatches (page : LocatedKeyPage) : Option LocatedKeys :=
  LocatedKeys.fromOwned page.basis page.ordinals

namespace MdictFile

/-! ## Building the locator -/

def enforceLocatorSize (bytes maximum : Nat) : Except Error Unit :=
  failIf (bytes > maximum) (.limitExceeded "locator_bytes" bytes maximum)

/-- The accumulators of the loop over all rows. -/
structure LocatorRows where
  text : Bytes
  bounds : List Nat
  digests : List Nat
  estimatedBytes : Nat
  previousRecordStart : Option Nat
  deriving DecidableEq, Repr

def appendLocatorRow (file : MdictFile) (rows : LocatorRows) (entry : DecodedKeyRow)
    : Exec LocatorRows := do
  failIf (entry.recordStart > file.layout.totalDecodedRecordLen)
    (.invalidData (s!"record start {entry.recordStart} exceeds total record bytes " ++
      s!"{file.layout.totalDecodedRecordLen}"))
  failIf (rows.previousRecordStart.any (· > entry.recordStart))
    (.invalidData (s!"record starts decrease from {rows.previousRecordStart.getD 0} " ++
      s!"to {entry.recordStart}"))
  let p ← Exec.platform
  let normalizedLen ← file.normalizer.normalizedLen p entry.key
  let estimatedBytes ← okOr (checkedAdd rows.estimatedBytes normalizedLen)
    (.invalidFormat "key locator size overflow")
  enforceLocatorSize estimatedBytes file.limits.locatorBytes
  Exec.reserve normalizedLen "key locator"
  let text := rows.text ++ Unicode.utf8 (file.normalizer.normalizeText p entry.key)
  let bound ← okOr (toU32? text.length) (.invalidFormat "key locator text exceeds u32")
  return {
    text
    bounds := rows.bounds ++ [bound]
    digests := rows.digests ++ [rawDigest entry.key]
    estimatedBytes
    previousRecordStart := some entry.recordStart
  }

def appendLocatorBlock (file : MdictFile) (rows : LocatorRows) (blockIndex : Nat)
    : Exec LocatorRows := do
  let block ← okOr file.layout.keyBlocks[blockIndex]?
    (.invalidFormat "key block index out of range")
  let entries ← file.decodeKeyBlock blockIndex
  let rows ← entries.foldlM file.appendLocatorRow rows
  let expectedEnd ← okOr (checkedAdd block.entryStartIndex block.entryCount)
    (.invalidFormat "keyword entry count overflow")
  failIf (rows.digests.length ≠ expectedEnd)
    (.invalidData (s!"locator row count mismatch after block {blockIndex}: expected " ++
      s!"{expectedEnd}, decoded {rows.digests.length}"))
  return rows

def buildKeyLocator (file : MdictFile) : Exec KeyLocator := do
  let maximumEntries := min file.limits.locatorEntries u32Max
  failIf (file.len > maximumEntries) (.limitExceeded "locator_entries" file.len maximumEntries)
  let entryCount ← checkedUsize file.len "locator entry count"
  let fixedBytes ← okOr (do
    let boundSlots ← checkedAdd entryCount 1
    let orderAndDigestSlots ← checkedMul entryCount 2
    let slots ← checkedAdd boundSlots orderAndDigestSlots
    checkedMul slots 4) (.invalidFormat "key locator size overflow")
  enforceLocatorSize fixedBytes file.limits.locatorBytes
  Exec.reserve fixedBytes "key locator"
  let rows ← (List.range file.keyBlockCount).foldlM file.appendLocatorBlock
    { text := [], bounds := [0], digests := [], estimatedBytes := fixedBytes
      previousRecordStart := none }
  failIf (rows.digests.length ≠ entryCount)
    (.invalidData (s!"locator row count mismatch: expected {entryCount}, decoded " ++
      s!"{rows.digests.length}"))
  let order := (List.range entryCount).mergeSort
    fun left right => (compareRows rows.text rows.bounds left right).isLE
  return { text := rows.text, bounds := rows.bounds, order, rawDigest := rows.digests }

/-- Build the locator and keep what comes out of it. -/
def buildAndKeepKeyLocator (file : MdictFile) : Exec KeyLocator := do
  let result ← Prog.attempt file.buildKeyLocator
  match result with
  | .ok locator =>
    Prog.modify ({ · with locator := some (.ready locator) })
    return locator
  | .error error =>
    let cached ← CachedFailureKind.capture error
    Prog.modify fun s =>
      match cached with
      | some failure => { s with locator := some (.failed failure) }
      | none => s
    Prog.fail error

def keyLocator (file : MdictFile) : Exec KeyLocator := do
  let s ← Prog.get
  match s.locator with
  | some (.ready locator) => return locator
  | some (.failed failure) => Prog.fail failure.replay
  | none => file.buildAndKeepKeyLocator

/-! ## Queries -/

/-- The normalized form of a query, within the limits. -/
def normalizedQuery (file : MdictFile) (query : Str) (context : String) : Exec Bytes := do
  let p ← Exec.platform
  let normalizedLen ← file.normalizer.normalizedLen p query
  ensureLimit "normalized_query_bytes" normalizedLen file.limits.locatorBytes
  Exec.reserve normalizedLen context
  let normalized ← file.normalizer.normalize p query
  return Unicode.utf8 normalized

/-- Whether the raw key of the row at a position of the order is `query`; with the row. -/
def rawExactAt (file : MdictFile) (locator : KeyLocator) (digest : Nat) (query : Str)
    (position : Nat)
    : Exec (Nat × Bool) := do
  let row ← okOr locator.order[position]?
    (.invalidFormat "locator range escaped its order index")
  let rowDigest ← okOr locator.rawDigest[row]? (.invalidFormat "locator row has no raw digest")
  if rowDigest ≠ digest then
    return (row, false)
  else
    -- A digest hit is only a candidate; the key block decides.
    let hit ← file.keyEntryAtOrdinal row
    let hit ← okOr hit (.invalidFormat "locator row has no key block entry")
    let entry ← okOr hit.entries[hit.entryIndex]?
      (.invalidFormat "locator row escaped its key block")
    return (row, entry.key == query)

/-- The positions of a range. -/
def positions (start stop : Nat) : List Nat := List.range' start (stop - start)

/-- Ordinals inside a range whose raw key equals `query`, ascending, or nothing. -/
def rawExactWithin (file : MdictFile) (locator : KeyLocator) (start stop : Nat) (query : Str)
    : Exec (Option (List Nat)) := do
  let digest := rawDigest query
  let found ← (positions start stop).foldlM (fun (found : List Nat) position => do
    let (row, isMatch) ← file.rawExactAt locator digest query position
    return if isMatch then found ++ [row] else found) []
  if found = [] then
    return none
  else
    return some (found.mergeSort (· ≤ ·))

def locateKeys (file : MdictFile) (query : Str) : Exec (Option LocatedKeys) := do
  let locator ← file.keyLocator
  let normalized ← file.normalizedQuery query "normalized lookup query"
  match locator.equalRange normalized with
  | none => return none
  | some (start, stop) =>
    -- Raw equality implies normalized equality.
    let exact ← file.rawExactWithin locator start stop query
    match exact with
    | some exact => return some { basis := .rawExact, ordinals := .owned exact }
    | none =>
      return some { basis := .headerNormalized, ordinals := .locator locator start stop }

/-- The accumulators of a paged exact search. -/
structure PageRows where
  ordinals : List Nat
  exactCount : Nat
  deriving DecidableEq, Repr

/-- Count one more match and keep it when it lies in the window. -/
def PageRows.push (rows : PageRows) (offset limit row : Nat) : Except Error PageRows := do
  let exactCount ← okOr (checkedAdd rows.exactCount 1)
    (.invalidFormat "raw-exact match count overflow")
  return {
    ordinals :=
      if rows.exactCount ≥ offset ∧ rows.ordinals.length < limit then
        rows.ordinals ++ [row]
      else
        rows.ordinals
    exactCount
  }

def locateKeyPage (file : MdictFile) (query : Str) (offset limit : Nat)
    : Exec (Option LocatedKeyPage) := do
  let locator ← file.keyLocator
  let normalized ← file.normalizedQuery query "normalized paged lookup query"
  match locator.equalRange normalized with
  | none => return none
  | some (start, stop) =>
    let total := stop - start
    let pageCapacity := min limit (total - offset)
    let pageBytes ← okOr (checkedMul pageCapacity 4) (.invalidFormat "key match page size overflow")
    ensureLimit "key_match_page_bytes" pageBytes file.limits.locatorBytes
    Exec.reserve pageBytes "key match page"
    let digest := rawDigest query
    let rows ← (positions start stop).foldlM (fun (rows : PageRows) position => do
      let (row, isMatch) ← file.rawExactAt locator digest query position
      if isMatch then rows.push offset limit row else pure rows)
      { ordinals := [], exactCount := 0 }
    if rows.exactCount ≠ 0 then
      return some { basis := .rawExact, total := rows.exactCount, ordinals := rows.ordinals }
    else
      let pageStart := saturatingAdd start (min offset total)
      let pageEnd := min (saturatingAdd pageStart limit) stop
      let ordinals ← (positions pageStart pageEnd).mapM fun position =>
        (okOr locator.order[position]?
          (.invalidFormat "locator page escaped its order index") : Except Error Nat)
      return some { basis := .headerNormalized, total, ordinals }

def locatePrefix (file : MdictFile) (keyPrefix : Str) (limit : Nat) : Exec (List Nat) :=
  if limit = 0 then
    return []
  else do
    let locator ← file.keyLocator
    let normalized ← file.normalizedQuery keyPrefix "normalized prefix query"
    let start := Search.partitionPoint (fun row => decide (locator.row row < normalized))
      locator.order
    let rows := (locator.order.drop start).takeWhile fun row =>
      normalized.isPrefixOf (locator.row row)
    return rows.take limit

/-- Visits every physical row's normalized key in physical order, until `visit` says to stop. -/
def scanNormalizedKeys {β : Type} (file : MdictFile) (visit : β → Nat → Bytes → β × Bool)
    (acc : β)
    : Exec β := do
  let locator ← file.keyLocator
  return go locator (List.range locator.rowCount) acc
where
  go (locator : KeyLocator) : List Nat → β → β
    | [], acc => acc
    | row :: rows, acc =>
      match visit acc row (locator.row row) with
      | (acc, true) => acc
      | (acc, false) => go locator rows acc

end MdictFile

end Mdict
