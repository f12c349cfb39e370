import Mdict.Core.Persistent.Format

/-!
This module contains the writers of scratch files, with and without checksums of chunks.
-/

namespace Mdict.Persistent

open Effect

/-- An operation on a scratch file. -/
def scratchIo (len : Nat) : Exec Unit := do
  Exec.log (.scratch len)
  Exec.io

/-- An empty temporary file. -/
def scratchFile : Exec Bytes := do
  scratchIo 0
  return []

def scratchWriteBufferBytes (options : KeyIndexOptions) : Nat :=
  max (min options.chunkBytes (options.buildMemoryBytes / 16)) 1

structure BufferedScratchWriter where
  file : Bytes
  buffer : Bytes
  capacity : Nat
  deriving DecidableEq, Repr

namespace BufferedScratchWriter

def new (file : Bytes) (capacity : Nat) : BufferedScratchWriter := { file, buffer := [], capacity }

def flushBuffer (writer : BufferedScratchWriter) : Exec BufferedScratchWriter :=
  if writer.buffer = [] then
    return writer
  else do
    scratchIo writer.buffer.length
    return { writer with file := writer.file ++ writer.buffer, buffer := [] }

/-- Write some of `input`; also how much. -/
def write (writer : BufferedScratchWriter) (input : Bytes) : Exec (Nat × BufferedScratchWriter) :=
  if input = [] then
    return (0, writer)
  else if writer.buffer = [] ∧ input.length ≥ writer.capacity then do
    scratchIo input.length
    let written ← Exec.accepted input.length
    return (written, { writer with file := writer.file ++ input.take written })
  else do
    let writer ← if writer.buffer.length = writer.capacity then writer.flushBuffer else pure writer
    let written := min (writer.capacity - writer.buffer.length) input.length
    return (written, { writer with buffer := writer.buffer ++ input.take written })

/-- `write_all`: write until nothing is left; a write of nothing is an error. -/
def writeAll (writer : BufferedScratchWriter) (input : Bytes) : Exec BufferedScratchWriter :=
  if _ : input = [] then
    return writer
  else do
    let (written, writer) ← writer.write input
    if _ : written = 0 then
      Prog.fail .io
    else
      writeAll writer (input.drop written)
termination_by input.length
decreasing_by
  rw [List.length_drop]
  have : input.length ≠ 0 := by simpa using ‹¬input = []›
  omega

/-- `write_all` with at most so many rounds; to need more is a panic. -/
def writeRounds : Nat → BufferedScratchWriter → Bytes → Exec BufferedScratchWriter
  | rounds, writer, input =>
    if input = [] then
      return writer
    else
      match rounds with
      | 0 => Prog.fail (.panic "more rounds than expected")
      | rounds + 1 => do
        let (written, writer) ← writer.write input
        if written = 0 then
          Prog.fail .io
        else
          writeRounds rounds writer (input.drop written)

def intoFile (writer : BufferedScratchWriter) : Exec Bytes := do
  let writer ← writer.flushBuffer
  return writer.file

end BufferedScratchWriter

/--
A scratch file for one section: it collects the checksum of every chunk written.
-/
structure SectionScratchWriter where
  inner : BufferedScratchWriter
  chunkBytes : Nat
  chunkLen : Nat
  checksum : Option (Nat × Nat)
  checksums : List Nat
  len : Nat
  deriving DecidableEq, Repr

/-- The sums of an `IncrementalAdler32` that has seen nothing. -/
def newAdler32 : Nat × Nat := (1, 0)

/-- `IncrementalAdler32::finish` -/
def finishAdler32 (sums : Nat × Nat) : Nat := sums.2 * 2 ^ 16 + sums.1

namespace SectionScratchWriter

def new (file : Bytes) (bufferBytes chunkBytes : Nat) (checksumPolicy : ChecksumPolicy)
    : SectionScratchWriter where
  inner := .new file bufferBytes
  chunkBytes
  chunkLen := 0
  checksum := if checksumPolicy = .verify then some newAdler32 else none
  checksums := []
  len := 0

def finishChunk (writer : SectionScratchWriter) : SectionScratchWriter :=
  { writer with
    checksums := writer.checksums ++ [(writer.checksum.map finishAdler32).getD 0]
    chunkLen := 0
    checksum := writer.checksum.map fun _ => newAdler32 }

/-- Write `input`, closing a chunk wherever one is full. Chunks are not empty. -/
def writeAll (writer : SectionScratchWriter) (input : Bytes) : Exec SectionScratchWriter :=
  if _ : input ≠ [] ∧ writer.chunkLen < writer.chunkBytes then do
    let count := min (writer.chunkBytes - writer.chunkLen) input.length
    let bytes := input.take count
    let inner ← writer.inner.writeAll bytes
    let len ← okOr (checkedAdd writer.len count) .io
    let next := { writer with
      inner
      checksum := writer.checksum.map (adlerBlocks · bytes)
      chunkLen := writer.chunkLen + count
      len }
    writeAll (if next.chunkLen = next.chunkBytes then next.finishChunk else next)
      (input.drop count)
  else
    return writer
termination_by input.length
decreasing_by
  rename_i h
  have : input.length ≠ 0 := by simpa using h.1
  simp only [List.length_drop]
  omega

/--
The loop of `write` with at most so many rounds, and with the subtraction that it does not check. To
need more rounds is a panic, as it is to subtract too much.
-/
def writeRounds : Nat → SectionScratchWriter → Bytes → Exec SectionScratchWriter
  | rounds, writer, input =>
    if input = [] then
      return writer
    else
      match rounds with
      | 0 => Prog.fail (.panic "more rounds than expected")
      | rounds + 1 => do
        let remaining ← okOr (checkedSub writer.chunkBytes writer.chunkLen)
          (.panic "attempt to subtract with overflow")
        let count := min remaining input.length
        let bytes := input.take count
        let inner ← writer.inner.writeRounds bytes.length bytes
        let len ← okOr (checkedAdd writer.len count) .io
        let next := { writer with
          inner
          checksum := writer.checksum.map (adlerBlocks · bytes)
          chunkLen := writer.chunkLen + count
          len }
        writeRounds rounds (if next.chunkLen = next.chunkBytes then next.finishChunk else next)
          (input.drop count)

/-- Write some pieces one after another, each with as many rounds as it has bytes at most. -/
def writePieces (writer : SectionScratchWriter) (pieces : List Bytes) : Exec SectionScratchWriter :=
  pieces.foldlM (fun writer piece => writer.writeRounds piece.length piece) writer

def writeU32 (writer : SectionScratchWriter) (value : Nat) : Exec SectionScratchWriter :=
  writer.writeAll (Bytes.ofLE 4 value)

def writeU64 (writer : SectionScratchWriter) (value : Nat) : Exec SectionScratchWriter :=
  writer.writeAll (Bytes.ofLE 8 value)

def intoSection (writer : SectionScratchWriter) (kind : SectionKind) : Exec SectionFile := do
  let writer := if writer.chunkLen ≠ 0 then writer.finishChunk else writer
  let file ← writer.inner.intoFile
  failIf (file.length ≠ writer.len) (.invalidFormat "key-index scratch section length mismatch")
  return { kind, file, len := writer.len, checksums := writer.checksums }

/-- The section that is written in these pieces. -/
def sectionOfPieces (kind : SectionKind) (bufferBytes chunkBytes : Nat)
    (checksumPolicy : ChecksumPolicy) (pieces : List Bytes) : Exec SectionFile := do
  let writer ← (new [] bufferBytes chunkBytes checksumPolicy).writePieces pieces
  writer.intoSection kind

end SectionScratchWriter

end Mdict.Persistent
