import Mdict.Format.Common.Header
import Mdict.Format.Common.RecordSection
import Mdict.Format.V1.Keyword
import Mdict.Format.V2.Keyword

/-!
This module contains the one-time grammar dispatch: from the bytes of a file to its layout.
-/

namespace Mdict

/-- The major wire version a file declares. -/
inductive WireVersion where
  | v1
  | v2
  deriving DecidableEq, Repr

/-- Checks every numeric component of a version and returns the major one. -/
def declaredMajorVersion (version : Str) (malformed : String) : Except Error Nat :=
  let numeric (component : Str) := component ≠ [] && component.all Char.isDigit
  match Str.split '.' version with
  | [] => .error (.invalidFormat malformed)
  | major :: components => do
    let major ← okOr (if numeric major then Str.parseNat? u32Bound major else none)
      (.invalidFormat malformed)
    failIf (components.any (!numeric ·)) (.invalidFormat malformed)
    return major

def validateVersionRelationship (generatedMajor requiredMajor : Nat) : Except Error Unit := do
  failIf (requiredMajor = 0)
    (.invalidFormat "RequiredEngineVersion must have a non-zero major version")
  failIf (requiredMajor > 2)
    (.unsupported "required MDict engine major version other than 1 or 2")
  failIf (generatedMajor = 1 ∧ requiredMajor ≠ 1)
    (.invalidFormat "GeneratedByEngineVersion 1 conflicts with RequiredEngineVersion")

def resolveWireVersion (declaredMajor : Nat) : Except Error WireVersion :=
  match declaredMajor with
  | 1 => .ok .v1
  | 2 => .ok .v2
  | _ => .error (.unsupported "MDict format major version other than 1 or 2")

/--
The layout of a file from its two sections; the same in both versions but for the parsers.
-/
def parseLayoutWith (wire : WireOperations)
    (parseKeywordSection : FileSource → Header → TextEncoding → Nat → OpenOptions
      → Exec KeywordSection)
    (parseRecordSection : FileSource → Nat → Limits → Exec RecordSection)
    (source : FileSource) (headerSection : HeaderSection) (kind : ContainerKind)
    (options : OpenOptions)
    : Exec ValidatedLayout := do
  Exec.reserve headerSection.retainedBytes "parsed header"
  let keyEncoding ← TextEncoding.forKeys kind headerSection.header
  let recordEncoding ← TextEncoding.forRecords kind headerSection.header
  let keys ← parseKeywordSection source headerSection.header keyEncoding
    headerSection.keywordSectionOffset options
  Exec.reserve keys.retainedBytes "keyword block metadata"
  let records ← parseRecordSection source keys.recordSectionOffset options.limits
  Exec.reserve records.retainedBytes "record block metadata"
  failIf (keys.numEntries ≠ records.numEntries)
    (.invalidData (s!"entry count mismatch between key index ({keys.numEntries}) " ++
      s!"and record index ({records.numEntries})"))
  return {
    header := headerSection.header
    keyEncoding
    recordEncoding
    sections := {
      header := headerSection.range
      keywordHeader := keys.sections.header
      keywordIndex := keys.sections.index
      keywordBlocks := keys.sections.blocks
      recordHeader := records.sections.header
      recordIndex := records.sections.index
      recordBlocks := records.sections.blocks
    }
    totalEntries := keys.numEntries
    totalDecodedRecordLen := records.totalDecompressedLen
    keyBlocks := keys.blocks
    recordBlocks := records.blocks
    wire
  }

def V1.parseLayout : FileSource → HeaderSection → ContainerKind → OpenOptions
    → Exec ValidatedLayout :=
  parseLayoutWith .v1 V1.parseKeywordSection V1.parseRecordSection

def V2.parseLayout : FileSource → HeaderSection → ContainerKind → OpenOptions
    → Exec ValidatedLayout :=
  parseLayoutWith .v2 V2.parseKeywordSection V2.parseRecordSection

def WireVersion.parseLayout
    : WireVersion → FileSource → HeaderSection → ContainerKind → OpenOptions → Exec ValidatedLayout
  | v1 => V1.parseLayout
  | v2 => V2.parseLayout

/-- Decodes one whole decompressed key block into physical key rows. -/
def WireOperations.decodeKeyRows (wire : WireOperations) (p : Platform) (bytes : Bytes)
    (context : KeyRowContext)
    : Except Error (List DecodedKeyRow) :=
  match wire with
  | .v1 => V1.decodeKeyRows p bytes context
  | .v2 => V2.decodeKeyRows p bytes context

/--
A layout that has passed its own verification.
-/
abbrev VerifiedLayout := { layout : ValidatedLayout // layout.verify = .ok () }

/-- The layout when it passes its own verification. -/
def ValidatedLayout.verified (layout : ValidatedLayout) : Except Error VerifiedLayout :=
  match h : layout.verify with
  | .ok () => .ok ⟨layout, h⟩
  | .error error => .error error

/-- Parses one dictionary file into a version-neutral validated layout. -/
def openLayout (source : FileSource) (kind : ContainerKind) (options : OpenOptions)
    : Exec VerifiedLayout := do
  let headerSection ← parseHeader source kind options.limits options.checksumPolicy
  let generatedMajor ← declaredMajorVersion headerSection.header.generatedByEngineVersion
    "malformed GeneratedByEngineVersion"
  let version ← resolveWireVersion generatedMajor
  let requiredMajor ← declaredMajorVersion headerSection.header.requiredEngineVersion
    "malformed RequiredEngineVersion"
  validateVersionRelationship generatedMajor requiredMajor
  let layout ← version.parseLayout source headerSection kind options
  layout.verified

end Mdict
