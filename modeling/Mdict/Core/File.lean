import Mdict.Format.Open
import Mdict.Core.Normalize

/-!
This module contains the open dictionary that MDX and MDD files share.
-/

namespace Mdict

/--
One open dictionary. Its layout is known to be verified, as `open` leaves it.
-/
structure MdictFile where
  kind : ContainerKind
  source : FileSource
  layout : ValidatedLayout
  limits : Limits
  checksumPolicy : ChecksumPolicy
  verified : layout.verify = .ok ()

namespace MdictFile

def «open» (bytes : Bytes) (kind : ContainerKind) (options : OpenOptions) : Exec MdictFile := do
  let source ← FileSource.open bytes
  let layout ← openLayout source kind options
  return {
    kind
    source
    layout := layout.val
    limits := options.limits
    checksumPolicy := options.checksumPolicy
    verified := layout.property
  }

def normalizer (file : MdictFile) : KeyNormalizer := .fromHeader file.layout.header file.kind

def header (file : MdictFile) : Header := file.layout.header

def len (file : MdictFile) : Nat := file.layout.totalEntries

def keyBlockCount (file : MdictFile) : Nat := file.layout.keyBlocks.length

def recordTextEncoding (file : MdictFile) : Except Error TextEncoding :=
  okOr file.layout.recordEncoding (.invalidFormat "container records are not text")

def reserveDecodedRecordText (file : MdictFile) (encodedLen : Nat) : Exec Unit := do
  let encoding ← file.recordTextEncoding
  let encodedLen ← checkedUsize encodedLen "encoded MDX record length"
  ensureLimit "materialized_record_bytes" encodedLen file.limits.materializedRecordBytes
  let p ← Exec.platform
  let decodedLen ← encoding.maxDecodedLen p encodedLen
  ensureLimit "materialized_record_bytes" decodedLen file.limits.materializedRecordBytes
  let combined ← okOr (checkedAdd encodedLen decodedLen)
    (.invalidFormat "decoded record working size overflow")
  Exec.reserve combined "decoded MDX record"

end MdictFile

end Mdict
