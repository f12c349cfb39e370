import Mdict.Core.Iter
import Mdict.Core.Persistent.Build
import Mdict.Core.Persistent.Query

/-!
This module contains the operations on MDX dictionaries.
-/

namespace Mdict

open Effect

inductive MatchMode where
  | preferExact
  | includeCaseVariants
  deriving DecidableEq, Repr

structure MdxEntry where
  key : KeyEntry
  text : Str
  deriving DecidableEq, Repr

/-- The largest `usize`. -/
def usizeMax : Nat := u64Max

def decodeRecordText (p : Platform) (encoding : TextEncoding) (bytes : Bytes)
    : Except Error Str := do
  let text ← encoding.decode p bytes "mdx record"
  return (text.reverse.dropWhile (· == Char.ofNat 0)).reverse

/--
An open MDX dictionary.
-/
structure MdxFile where
  inner : MdictFile

namespace MdxFile

def openWithOptions (bytes : Bytes) (options : OpenOptions) : Exec MdxFile := do
  let inner ← MdictFile.open bytes .mdx options
  return { inner }

def header (file : MdxFile) : Header := file.inner.header

def len (file : MdxFile) : Nat := file.inner.len

def keyAt (file : MdxFile) (ordinal : Nat) : Exec (Option KeyEntry) :=
  file.inner.keyAtOrdinal ordinal

def keysAt (file : MdxFile) (ordinals : List Nat) : Exec (List (Option KeyEntry)) :=
  file.inner.keysAtOrdinals ordinals

def readEntry (file : MdxFile) (descriptor : MdictFile.RecordDescriptor) : Exec MdxEntry := do
  let encodedLen ← okOr (checkedSub descriptor.stop descriptor.start)
    (.invalidFormat "record range is inverted")
  file.inner.reserveDecodedRecordText encodedLen
  let bytes ← file.inner.readRecordSpan descriptor.start descriptor.stop
  let p ← Exec.platform
  let encoding ← file.inner.recordTextEncoding
  let text ← decodeRecordText p encoding bytes
  return { key := descriptor.key, text }

def entryAt (file : MdxFile) (ordinal : Nat) : Exec (Option MdxEntry) := do
  let descriptor ← file.inner.recordAtOrdinal ordinal
  match descriptor with
  | none => return none
  | some descriptor =>
    let entry ← file.readEntry descriptor
    return some entry

def locate (file : MdxFile) (query : Str) : Exec (Option LocatedKeys) :=
  file.inner.locateKeys query

def includesCaseVariants (file : MdxFile) (mode : MatchMode) : Bool :=
  mode == .includeCaseVariants && !file.header.keyCaseSensitive

def locateWithMode (file : MdxFile) (query : Str) (mode : MatchMode)
    : Exec (Option LocatedKeys) :=
  if file.includesCaseVariants mode then do
    let page ← file.inner.locateCaseVariants query 0 usizeMax
    match page with
    | some page => return page.intoMatches
    | none => file.locate query
  else
    file.locate query

def locatePage (file : MdxFile) (query : Str) (offset limit : Nat)
    : Exec (Option LocatedKeyPage) :=
  file.inner.locateKeyPage query offset limit

def locatePageWithMode (file : MdxFile) (query : Str) (offset limit : Nat) (mode : MatchMode)
    : Exec (Option LocatedKeyPage) :=
  if file.includesCaseVariants mode then do
    let page ← file.inner.locateCaseVariants query offset limit
    match page with
    | some page => return some page
    | none => file.locatePage query offset limit
  else
    file.locatePage query offset limit

def prefixKeys (file : MdxFile) (keyPrefix : Str) (limit : Nat) : Exec (List KeyEntry) := do
  let ordinals ← file.inner.locatePrefix keyPrefix limit
  let entries ← file.inner.keysAtOrdinals ordinals
  return entries.filterMap id

def scanNormalizedKeys {β : Type} (file : MdxFile) (visit : β → Nat → Bytes → β × Bool) (acc : β)
    : Exec β :=
  file.inner.scanNormalizedKeys visit acc

def lookup (file : MdxFile) (query : Str) : Exec (Option MdxEntry) := do
  let found ← file.locate query
  match found with
  | none => return none
  | some found =>
    let first ← okOr (found.ordinalAt 0) (.panic "KeyMatches always contains at least one ordinal")
    file.entryAt first

/-! ## Persistent key indexes -/

def keyIndexSourceIdentity (file : MdxFile) : Exec KeyIndexSourceIdentity :=
  file.inner.sourceIdentity

def buildKeyIndex (file : MdxFile) (destination : Persistent.Destination)
    (options : KeyIndexOptions)
    : Exec (KeyIndexBuild × Persistent.Destination) :=
  file.inner.buildToWriter destination options

def buildKeyIndexToPath (file : MdxFile) (options : KeyIndexOptions)
    : Exec (KeyIndexBuild × Bytes) :=
  file.inner.buildToPath options

def openKeyIndex (file : MdxFile) (bytes : Bytes) (expected : KeyIndexSourceIdentity)
    (options : KeyIndexOptions)
    : Exec PersistentKeyIndex :=
  PersistentKeyIndex.openFile bytes file.inner expected options

def locateWithKeyIndex (file : MdxFile) (index : PersistentKeyIndex) (query : Str)
    : Exec (Option LocatedKeys) :=
  file.inner.locateWithIndex index query

def locateWithKeyIndexAndMode (file : MdxFile) (index : PersistentKeyIndex) (query : Str)
    (mode : MatchMode)
    : Exec (Option LocatedKeys) :=
  if file.includesCaseVariants mode then do
    let page ← file.inner.locateCaseVariantsWithIndex index query 0 usizeMax
    match page with
    | some page => return page.intoMatches
    | none => file.locateWithKeyIndex index query
  else
    file.locateWithKeyIndex index query

def locatePageWithKeyIndex (file : MdxFile) (index : PersistentKeyIndex) (query : Str)
    (offset limit : Nat)
    : Exec (Option LocatedKeyPage) :=
  file.inner.locatePageWithIndex index query offset limit

def locatePageWithKeyIndexAndMode (file : MdxFile) (index : PersistentKeyIndex) (query : Str)
    (offset limit : Nat) (mode : MatchMode)
    : Exec (Option LocatedKeyPage) :=
  if file.includesCaseVariants mode then do
    let page ← file.inner.locateCaseVariantsWithIndex index query offset limit
    match page with
    | some page => return some page
    | none => file.locatePageWithKeyIndex index query offset limit
  else
    file.locatePageWithKeyIndex index query offset limit

def prefixKeysWithIndex (file : MdxFile) (index : PersistentKeyIndex) (keyPrefix : Str)
    (limit : Nat)
    : Exec (List KeyEntry) :=
  file.inner.prefixWithIndex index keyPrefix limit

def scanNormalizedKeysWithIndex {β : Type} (file : MdxFile) (index : PersistentKeyIndex)
    (visit : β → Nat → Bytes → β × Bool) (acc : β)
    : Exec β :=
  file.inner.scanWithIndex index visit acc

end MdxFile

/-- An iterator over entries: the one over records, fused after the first failure. -/
structure MdxEntryIter where
  records : RowIter
  done : Bool

/-- `MdxEntryIter::next` -/
def MdxEntryIter.next (file : MdxFile) (iter : MdxEntryIter)
    : Exec (Option (Except Error MdxEntry) × MdxEntryIter) :=
  if iter.done then
    return (none, iter)
  else do
    let (descriptor, records) ← RecordIter.next file.inner iter.records
    match descriptor with
    | none => return (none, { iter with records })
    | some (.error error) => return (some (.error error), { records, done := true })
    | some (.ok descriptor) =>
      let result ← Prog.attempt (file.readEntry descriptor)
      return (some result, { records, done := result.isOk == false })

end Mdict
