import Mdict.Lib.Search
import Mdict.Format.Common.Encoding

/-!
This module contains the version-neutral description of a dictionary file: what the wire grammars
produce and the shared core consumes.
-/

namespace Mdict

structure SectionRange where
  offset : Nat
  len : Nat
  deriving DecidableEq, Repr

def SectionRange.stop (range : SectionRange) : Except Error Nat :=
  okOr (checkedAdd range.offset range.len) (.invalidFormat "section range end overflow")

structure SectionRanges where
  header : SectionRange
  keywordHeader : SectionRange
  keywordIndex : SectionRange
  keywordBlocks : SectionRange
  recordHeader : SectionRange
  recordIndex : SectionRange
  recordBlocks : SectionRange
  deriving DecidableEq, Repr

namespace SectionRanges

def ordered (sections : SectionRanges) : List (String × SectionRange) :=
  [("header", sections.header), ("keyword header", sections.keywordHeader),
    ("keyword index", sections.keywordIndex), ("keyword blocks", sections.keywordBlocks),
    ("record header", sections.recordHeader), ("record index", sections.recordIndex),
    ("record blocks", sections.recordBlocks)]

/-- Check that each section starts where its predecessor, called `expected`, ended. -/
def verifyFrom (cursor : Nat) (expected : String)
    : List (String × SectionRange) → Except Error Unit
  | [] => .ok ()
  | (name, range) :: rest => do
    failIf (range.offset ≠ cursor)
      (.invalidData
        s!"{name} section starts at {range.offset} but {expected} ended at {cursor}")
    let cursor ← range.stop
    verifyFrom cursor name rest

def verifyContiguous (sections : SectionRanges) : Except Error Unit :=
  verifyFrom sections.header.offset "header" sections.ordered

end SectionRanges

/--
One validated keyword block, independent of the grammar that produced it.
-/
structure KeyBlockDescriptor where
  entryCount : Nat
  entryStartIndex : Nat
  firstKey : Str
  lastKey : Str
  compOffset : Nat
  compSize : Nat
  decompSize : Nat
  deriving DecidableEq, Repr

/-- `size_of::<KeyBlockDescriptor>()` -/
def sizeOfKeyBlockDescriptor : Nat := 88

/--
One validated record block, independent of the grammar that produced it.
-/
structure RecordBlockDescriptor where
  compOffset : Nat
  compSize : Nat
  decompOffset : Nat
  decompSize : Nat
  deriving DecidableEq, Repr

/-- `size_of::<RecordBlockDescriptor>()` -/
def sizeOfRecordBlockDescriptor : Nat := 32

/-- Locates the record block covering a decoded record offset. -/
def findRecordBlock (blocks : List RecordBlockDescriptor) (recordOffset : Nat) : Option Nat :=
  go 0 blocks.length
where
  go (left right : Nat) : Option Nat :=
    if left < right then do
      let mid := (left + right) / 2
      let block ← blocks[mid]?
      let stop ← checkedAdd block.decompOffset block.decompSize
      if recordOffset < block.decompOffset then
        go left mid
      else if recordOffset ≥ stop then
        go (mid + 1) right
      else
        return mid
    else
      none
  termination_by right - left

/--
Everything a whole-key-block decoder needs.
-/
structure KeyRowContext where
  encoding : TextEncoding
  expectedEntries : Nat
  totalDecodedRecordLen : Nat
  deriving DecidableEq, Repr

/-- `size_of::<DecodedKeyRow>()` -/
def sizeOfDecodedKeyRow : Nat := 32

/--
The wire operations that stay version-specific after open.
-/
inductive WireOperations where
  | v1
  | v2
  deriving DecidableEq, Repr

/--
A fully validated, version-neutral description of one dictionary file.
-/
structure ValidatedLayout where
  header : Header
  keyEncoding : TextEncoding
  recordEncoding : Option TextEncoding
  sections : SectionRanges
  totalEntries : Nat
  totalDecodedRecordLen : Nat
  keyBlocks : List KeyBlockDescriptor
  recordBlocks : List RecordBlockDescriptor
  wire : WireOperations
  deriving DecidableEq, Repr

namespace ValidatedLayout

/-- The number of entries that the key blocks cover when they start at `expectedStart`. -/
def verifyKeyBlocks (expectedStart : Nat) : List KeyBlockDescriptor → Except Error Nat
  | [] => .ok expectedStart
  | block :: rest => do
    failIf (block.entryStartIndex ≠ expectedStart)
      (.invalidData
        s!"key block starts at ordinal {block.entryStartIndex} but {expectedStart} was expected")
    let expectedStart ← okOr (checkedAdd block.entryStartIndex block.entryCount)
      (.invalidFormat "keyword entry count overflow")
    verifyKeyBlocks expectedStart rest

/-- The number of bytes that the record blocks cover when they start at `expectedOffset`. -/
def verifyRecordBlocks (expectedOffset : Nat) : List RecordBlockDescriptor → Except Error Nat
  | [] => .ok expectedOffset
  | block :: rest => do
    failIf (block.decompOffset ≠ expectedOffset)
      (.invalidData
        s!"record block starts at {block.decompOffset} but {expectedOffset} was expected")
    let expectedOffset ← okOr (checkedAdd block.decompOffset block.decompSize)
      (.invalidFormat "record block offset overflow")
    verifyRecordBlocks expectedOffset rest

def verify (layout : ValidatedLayout) : Except Error Unit := do
  layout.sections.verifyContiguous
  let expectedStart ← verifyKeyBlocks 0 layout.keyBlocks
  failIf (expectedStart ≠ layout.totalEntries)
    (.invalidData
      s!"key blocks cover {expectedStart} entries but {layout.totalEntries} were declared")
  let expectedOffset ← verifyRecordBlocks 0 layout.recordBlocks
  failIf (expectedOffset ≠ layout.totalDecodedRecordLen)
    (.invalidData
      s!"record blocks cover {expectedOffset} bytes but {layout.totalDecodedRecordLen} were declared")

end ValidatedLayout

end Mdict
