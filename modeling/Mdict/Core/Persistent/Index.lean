import Mdict.Core.CaseVariants

/-!
This module contains the data of the persistent key index: the options of its construction and use,
the source identity bound into it and its header.
-/

namespace Mdict

def keyIndexFormatRevision : Nat := 3

def keyIndexParserRevision : Nat := 1

def keyIndexNormalizationRevision : Nat := 1

structure KeyIndexOptions where
  maxIndexBytes : Nat
  maxMetadataBytes : Nat
  buildMemoryBytes : Nat
  chunkBytes : Nat
  checksumPolicy : ChecksumPolicy
  deriving DecidableEq, Repr

def KeyIndexOptions.new : KeyIndexOptions where
  maxIndexBytes := 64 * 1024 * 1024 * 1024
  maxMetadataBytes := 64 * 1024 * 1024
  buildMemoryBytes := 32 * 1024 * 1024
  chunkBytes := 64 * 1024
  checksumPolicy := .skip

/--
Source identity bound into a persistent key index: it detects ordinary staleness.
-/
structure KeyIndexSourceIdentity where
  sourceBytes : Nat
  sourceModifiedUnixNanos : BitVec 128
  keyCount : Nat
  deriving DecidableEq, Repr

/-- Result of writing one complete persistent key index. -/
structure KeyIndexBuild where
  sourceIdentity : KeyIndexSourceIdentity
  bytesWritten : Nat
  deriving DecidableEq, Repr

namespace Persistent

def magic : Bytes := [77, 68, 75, 73, 68, 88, 48, 49]

def endianMarker : Nat := 0x01020304

def sectionCount : Nat := 4

def headerFieldsBytes : Nat := 216

def headerBytes : Nat := 224

def headerPrefixBytes : Nat := 24

def headerChecksumBytes : Nat := 4

def checksumPageBytes : Nat := 4 * 1024

def maxMergeFanIn : Nat := 32

def minBuildMemoryBytes : Nat := 256

def minChunkBytes : Nat := 64

def runReadBufferBytes : Nat := 64 * 1024

end Persistent

/-- The sections in the order of their `index`. -/
def SectionKind.all : List SectionKind := [text, bounds, raw, order]

def SectionKind.name : SectionKind → String
  | text => "text"
  | bounds => "bounds"
  | raw => "raw"
  | order => "order"

/--
Where a section lies in the file, and where its checksums lie in the checksum table.
-/
structure SectionDescriptor where
  offset : Nat
  len : Nat
  checksumStart : Nat
  checksumCount : Nat
  deriving DecidableEq, Repr

def SectionDescriptor.empty : SectionDescriptor := ⟨0, 0, 0, 0⟩

/-- One descriptor for every section. -/
abbrev SectionTable := SectionKind → SectionDescriptor

/-- The table with one entry replaced. -/
def SectionTable.set (table : SectionTable) (kind : SectionKind) (descriptor : SectionDescriptor)
    : SectionTable :=
  fun other => if other = kind then descriptor else table other

structure IndexHeader where
  headerLen : Nat
  totalLen : Nat
  chunkBytes : Nat
  sourceIdentity : KeyIndexSourceIdentity
  normalizedTextLen : Nat
  sections : SectionTable
  checksumCount : Nat

/--
One section of an index under construction, with the checksums of its chunks.
-/
structure SectionFile where
  kind : SectionKind
  file : Bytes
  len : Nat
  checksums : List Nat
  deriving DecidableEq, Repr

/--
A complete index that is not written to its destination yet.
-/
structure BuiltIndex where
  header : Bytes
  sections : List SectionFile
  descriptors : SectionTable
  report : KeyIndexBuild

end Mdict
