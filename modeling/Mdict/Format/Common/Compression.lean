import Mdict.Session
import Mdict.Format.Common.Checksum

/-!
This module contains the shared envelope of compressed blocks.
-/

namespace Mdict

inductive CompressionType where
  | none
  | lzo
  | zlib
  deriving DecidableEq, Repr

/-- A byte as two lower case hexadecimal digits. -/
def hexByte (b : UInt8) : String :=
  let digits := Nat.toDigits 16 b.toNat
  String.ofList (if digits.length < 2 then '0' :: digits else digits)

def parseCompType (bytes : Bytes) : Except Error CompressionType :=
  if bytes = [0, 0, 0, 0] then
    .ok .none
  else if bytes = [1, 0, 0, 0] then
    .ok .lzo
  else if bytes = [2, 0, 0, 0] then
    .ok .zlib
  else
    let tag := String.intercalate ", " (bytes.map hexByte)
    .error (.invalidData s!"unknown compression tag: [{tag}]")

def decodeUncompressedBlock (context : String) (payload : Bytes) (expectedDecompressedLen : Nat)
    : Exec Bytes := do
  failIf (payload.length ≠ expectedDecompressedLen)
    (.invalidData
      s!"{context} contains {payload.length} uncompressed bytes, expected {expectedDecompressedLen}")
  Exec.log (.decode payload.length context)
  return payload

def decodeZlibBlock (p : Platform) (context : String) (payload : Bytes)
    (expectedDecompressedLen : Nat) (checksumPolicy : ChecksumPolicy)
    : Exec Bytes := do
  Exec.log (.decode expectedDecompressedLen context)
  let inflated := p.inflate payload expectedDecompressedLen (checksumPolicy == .skip)
  failIf (inflated.status ≠ .done)
    (.invalidData s!"invalid or oversized zlib block in {context}: {inflated.status.name}")
  failIf (inflated.inputRead ≠ payload.length)
    (.invalidData
      s!"zlib block in {context} has {payload.length - inflated.inputRead} trailing compressed bytes")
  failIf (inflated.actual ≠ expectedDecompressedLen)
    (.invalidData
      s!"{context} decompressed to {inflated.actual} bytes, expected {expectedDecompressedLen}")
  return inflated.output

def decodeLzoBlock (p : Platform) (context : String) (payload : Bytes)
    (expectedDecompressedLen : Nat)
    : Exec Bytes :=
  match p.lzo with
  | .none =>
    Effect.Prog.fail (.unsupported "LZO compressed blocks (enable the `lzo` feature)")
  | .some decompress => do
    Exec.log (.decode expectedDecompressedLen context)
    let (actual, output) ← okOr (decompress payload expectedDecompressedLen)
      (.invalidData s!"invalid lzo block in {context}")
    failIf (actual ≠ expectedDecompressedLen)
      (.invalidData s!"{context} decompressed to {actual} bytes, expected {expectedDecompressedLen}")
    return output

def decodePayload (p : Platform) (compType : CompressionType) (context : String) (payload : Bytes)
    (expectedDecompressedLen : Nat) (checksumPolicy : ChecksumPolicy)
    : Exec Bytes :=
  match compType with
  | .none => decodeUncompressedBlock context payload expectedDecompressedLen
  | .zlib => decodeZlibBlock p context payload expectedDecompressedLen checksumPolicy
  | .lzo => decodeLzoBlock p context payload expectedDecompressedLen

/-- Decode one enveloped block: four bytes of tag, four of checksum and the payload. -/
def decodeBlock (context : String) (block : Bytes) (expectedDecompressedLen : Nat)
    (limits : Limits) (checksumPolicy : ChecksumPolicy)
    : Exec Bytes := do
  failIf (block.length < 8) (.truncated context 8 block.length)
  ensureLimit "compressed_block_bytes" block.length limits.compressedBlockBytes
  ensureLimit "decompressed_block_bytes" expectedDecompressedLen limits.decompressedBlockBytes
  let compType ← parseCompType (block.take 4)
  let checksum := Bytes.toBE ((block.drop 4).take 4)
  let payload := block.drop 8
  let p ← Exec.platform
  let decoded ← decodePayload p compType context payload expectedDecompressedLen checksumPolicy
  failIf (decoded.length ≠ expectedDecompressedLen)
    (.invalidData
      s!"{context} decompressed to {decoded.length} bytes, expected {expectedDecompressedLen}")
  verifyChecksum checksumPolicy context decoded checksum
  return decoded

end Mdict
