import Mdict.Core.CaseVariants
import Mdict.Core.Iter

/-!
This module contains the operations on MDD resource containers.
-/

namespace Mdict

open Effect

structure MddResource where
  key : KeyEntry
  bytes : Bytes
  deriving DecidableEq, Repr

structure MddResourceSpan where
  source : MdictFile
  key : KeyEntry
  start : Nat
  stop : Nat
  len : Nat

namespace MddResourceSpan

def new (source : MdictFile) (descriptor : MdictFile.RecordDescriptor)
    : Except Error MddResourceSpan := do
  let len ← source.validateRecordSpan descriptor.start descriptor.stop
  return { source, key := descriptor.key, start := descriptor.start, stop := descriptor.stop, len }

def read (span : MddResourceSpan) : Exec MddResource := do
  let bytes ← span.source.readRecordSpan span.start span.stop
  return { key := span.key, bytes }

/-- Append the resource to `destination`; also the number of bytes written. -/
def copyTo (span : MddResourceSpan) (destination : Bytes) : Exec (Nat × Bytes) :=
  span.source.visitRecordSpan span.start span.stop
    (fun (state : Nat × Bytes) chunk => do
      let (written, destination) := state
      Exec.log (.write chunk.length)
      Exec.io
      let written ← okOr (checkedAdd written chunk.length)
        (.invalidFormat "resource write length overflow")
      return (written, destination ++ chunk))
    (0, destination)

end MddResourceSpan

/--
An open MDD container.
-/
structure MddFile where
  inner : MdictFile

namespace MddFile

def openWithOptions (bytes : Bytes) (options : OpenOptions) : Exec MddFile := do
  let inner ← MdictFile.open bytes .mdd options
  return { inner }

def len (file : MddFile) : Nat := file.inner.len

def keyAt (file : MddFile) (ordinal : Nat) : Exec (Option KeyEntry) :=
  file.inner.keyAtOrdinal ordinal

def keysAt (file : MddFile) (ordinals : List Nat) : Exec (List (Option KeyEntry)) :=
  file.inner.keysAtOrdinals ordinals

def spanAt (file : MddFile) (ordinal : Nat) : Exec (Option MddResourceSpan) := do
  let descriptor ← file.inner.recordAtOrdinal ordinal
  match descriptor with
  | none => return none
  | some descriptor =>
    let span ← MddResourceSpan.new file.inner descriptor
    return some span

def resourceAt (file : MddFile) (ordinal : Nat) : Exec (Option MddResource) := do
  let span ← file.spanAt ordinal
  match span with
  | none => return none
  | some span =>
    let resource ← span.read
    return some resource

def locate (file : MddFile) (query : Str) : Exec (Option LocatedKeys) :=
  file.inner.locateKeys query

def locatePage (file : MddFile) (query : Str) (offset limit : Nat)
    : Exec (Option LocatedKeyPage) :=
  file.inner.locateKeyPage query offset limit

def lookupSpan (file : MddFile) (query : Str) : Exec (Option MddResourceSpan) := do
  let found ← file.locate query
  match found with
  | none => return none
  | some found =>
    let first ← okOr (found.ordinalAt 0) (.panic "KeyMatches always contains at least one ordinal")
    file.spanAt first

def lookup (file : MddFile) (query : Str) : Exec (Option MddResource) := do
  let span ← file.lookupSpan query
  match span with
  | none => return none
  | some span =>
    let resource ← span.read
    return some resource

def readResource (file : MddFile) (descriptor : MdictFile.RecordDescriptor)
    : Exec MddResource := do
  let bytes ← file.inner.readRecordSpan descriptor.start descriptor.stop
  return { key := descriptor.key, bytes }

end MddFile

/-- An iterator over resources: the one over records, fused after the first failure. -/
structure MddResourceIter where
  records : RowIter
  done : Bool

/-- `MddResourceIter::next` -/
def MddResourceIter.next (file : MddFile) (iter : MddResourceIter)
    : Exec (Option (Except Error MddResource) × MddResourceIter) :=
  if iter.done then
    return (none, iter)
  else do
    let (descriptor, records) ← RecordIter.next file.inner iter.records
    match descriptor with
    | none => return (none, { iter with records })
    | some (.error error) => return (some (.error error), { records, done := true })
    | some (.ok descriptor) =>
      let result ← Prog.attempt (file.readResource descriptor)
      return (some result, { records, done := result.isOk == false })

end Mdict
