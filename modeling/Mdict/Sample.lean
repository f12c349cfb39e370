import Mdict.Core.Persistent.Build
import Mdict.Mdd
import Mdict.Lib.Bytes
import Mdict.Lemmas.Session

/-!
This module contains a small dictionary of three key blocks, on which the operations can be
evaluated, a small file that opens and a key index of the dictionary.
-/

namespace Mdict.Sample

/-- Third-party code that knows no compression and the lower case of ASCII only. -/
def platform : Platform where
  toLowercase := fun c => [c.toLower]
  inflate := fun _ _ _ => { status := .failed, inputRead := 0, actual := 0, output := [] }
  lzo := none
  decodeLegacy := fun _ _ => .malformed
  maxLegacyLen := fun _ len => some len
  growCapacity := fun _ capacity needed => max (2 * capacity) needed

/-- A block without compression; its checksum is not verified. -/
def envelope (payload : Bytes) : Bytes := [0, 0, 0, 0, 0, 0, 0, 0] ++ payload

/-- The key blocks of the keys `aa`, `AA` and `b`, which have two, no and four bytes of records. -/
def keyBlocks : List Bytes :=
  [ envelope [0, 0, 0, 0, 0, 0, 0, 0, 97, 97, 0],
    envelope [0, 0, 0, 0, 0, 0, 0, 2, 65, 65, 0],
    envelope [0, 0, 0, 0, 0, 0, 0, 2, 98, 0] ]

/-- The record blocks; one of them is empty. -/
def recordBlocks : List Bytes := [envelope [1, 2, 3], envelope [], envelope [4, 5, 6]]

def header (keyCaseSensitive : Bool) : Header where
  rawXml := []
  tagName := "Dictionary".toList
  attributes := []
  generatedByEngineVersion := "2.0".toList
  requiredEngineVersion := "2.0".toList
  encodingLabel := none
  format := none
  keyCaseSensitive
  stripKey := false
  encrypted := 0
  registerBy := none
  regCode := none
  description := none
  title := none
  creationDate := none

def layout (keyCaseSensitive : Bool) : ValidatedLayout where
  header := header keyCaseSensitive
  keyEncoding := .utf8
  recordEncoding := some .utf8
  sections := {
    header := ⟨0, 0⟩
    keywordHeader := ⟨0, 0⟩
    keywordIndex := ⟨0, 0⟩
    keywordBlocks := ⟨0, 56⟩
    recordHeader := ⟨56, 0⟩
    recordIndex := ⟨56, 0⟩
    recordBlocks := ⟨56, 30⟩
  }
  totalEntries := 3
  totalDecodedRecordLen := 6
  keyBlocks := [
    { entryCount := 1, entryStartIndex := 0, firstKey := ['a', 'a'], lastKey := ['a', 'a'],
      compOffset := 0, compSize := 19, decompSize := 11 },
    { entryCount := 1, entryStartIndex := 1, firstKey := ['A', 'A'], lastKey := ['A', 'A'],
      compOffset := 19, compSize := 19, decompSize := 11 },
    { entryCount := 1, entryStartIndex := 2, firstKey := ['b'], lastKey := ['b'],
      compOffset := 38, compSize := 18, decompSize := 10 } ]
  recordBlocks := [
    { compOffset := 56, compSize := 11, decompOffset := 0, decompSize := 3 },
    { compOffset := 67, compSize := 8, decompOffset := 3, decompSize := 0 },
    { compOffset := 75, compSize := 11, decompOffset := 3, decompSize := 3 } ]
  wire := .v2

/-- The dictionary with these bytes. -/
def fileOf (bytes : Bytes) : MdictFile where
  kind := .mdx
  source := { bytes }
  layout := layout false
  limits := .new
  checksumPolicy := .skip
  verified := by decide +kernel

/-- The dictionary. -/
def file : MdictFile := fileOf (keyBlocks.flatten ++ recordBlocks.flatten)

/-- The dictionary with a tag of its first key block that nobody knows. -/
def damaged : MdictFile := fileOf (9 :: (keyBlocks.flatten ++ recordBlocks.flatten).drop 1)

/-! ## A file to open -/

/-- The text of a header in UTF-16LE, with its length and a checksum that is not verified. -/
def headerBytes (xml : Str) : Bytes :=
  let text := xml.flatMap fun c => [UInt8.ofNat c.toNat, 0]
  Bytes.ofBE 4 text.length ++ text ++ [0, 0, 0, 0]

/-- A version 1 file with the key `a` and the record `x`. -/
def container : Bytes :=
  headerBytes "<Dictionary GeneratedByEngineVersion=\"1.2\" Encoding=\"UTF-8\"/>".toList
    ++ [0, 0, 0, 1, 0, 0, 0, 1, 0, 0, 0, 16, 0, 0, 0, 14]
    ++ [0, 0, 0, 1, 1, 97, 1, 97, 0, 0, 0, 14, 0, 0, 0, 6]
    ++ envelope [0, 0, 0, 0, 97, 0]
    ++ [0, 0, 0, 1, 0, 0, 0, 1, 0, 0, 0, 8, 0, 0, 0, 9]
    ++ [0, 0, 0, 9, 0, 0, 0, 1]
    ++ envelope [120]

/-- A header whose checksum is right. -/
def checkedHeaderBytes (xml : Str) : Bytes :=
  let text := xml.flatMap fun c => [UInt8.ofNat c.toNat, 0]
  Bytes.ofBE 4 text.length ++ text ++ Bytes.ofLE 4 (adler32 text)

/-- A block without compression whose checksum is right. -/
def checkedEnvelope (payload : Bytes) : Bytes :=
  [0, 0, 0, 0] ++ Bytes.ofBE 4 (adler32 payload) ++ payload

/-- The same file with the checksums that belong to it. -/
def checkedContainer : Bytes :=
  checkedHeaderBytes "<Dictionary GeneratedByEngineVersion=\"1.2\" Encoding=\"UTF-8\"/>".toList
    ++ [0, 0, 0, 1, 0, 0, 0, 1, 0, 0, 0, 16, 0, 0, 0, 14]
    ++ [0, 0, 0, 1, 1, 97, 1, 97, 0, 0, 0, 14, 0, 0, 0, 6]
    ++ checkedEnvelope [0, 0, 0, 0, 97, 0]
    ++ [0, 0, 0, 1, 0, 0, 0, 1, 0, 0, 0, 8, 0, 0, 0, 9]
    ++ [0, 0, 0, 9, 0, 0, 0, 1]
    ++ checkedEnvelope [120]

/-- The options of a reader that verifies checksums. -/
def verifying : OpenOptions := { OpenOptions.new with checksumPolicy := .verify }

/-! ## A key index -/

/-- The sections of the key index: no chunk has a checksum to verify. -/
def sections : List SectionFile := [
  { kind := .text, file := [97, 97, 97, 97, 98], len := 5, checksums := [0] },
  { kind := .bounds, file := [0, 2, 4, 5].flatMap (Bytes.ofLE 8), len := 32, checksums := [0] },
  { kind := .raw, file := [['a', 'a'], ['A', 'A'], ['b']].flatMap (Bytes.ofLE 4 ∘ rawDigest),
    len := 12, checksums := [0] },
  { kind := .order, file := [0, 1, 2].flatMap (Bytes.ofLE 4), len := 12, checksums := [0] } ]

/-- What identifies the dictionary. -/
def identity : KeyIndexSourceIdentity where
  sourceBytes := 86
  sourceModifiedUnixNanos := 0
  keyCount := 3

/-- The key index with these sections. -/
def built : Except Error BuiltIndex := do
  let (header, descriptors, bytesWritten) ← Persistent.buildHeader sections identity 5 .new
  return { header, sections, descriptors, report := { sourceIdentity := identity, bytesWritten } }

/-- The bytes of the key index. -/
def indexBytes (w : World) : Bytes :=
  match built with
  | .error _ => []
  | .ok built =>
    match (Persistent.writeBuiltIndex built ⟨[], 0⟩ 64 w .fresh).1 with
    | .error _ => []
    | .ok destination => destination.bytes

end Mdict.Sample
