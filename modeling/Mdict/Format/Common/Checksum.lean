import Mdict.Types

/-!
This module contains the ADLER32 checksum.
-/

namespace Mdict

def modAdler : Nat := 65521

def reductionBlockBytes : Nat := 5552

/-- The two sums after some more bytes, without reduction. -/
def adlerSums (sums : Nat × Nat) (bytes : Bytes) : Nat × Nat :=
  bytes.foldl (fun (a, b) byte => (a + byte.toNat, b + (a + byte.toNat))) sums

/-- The two sums after some more bytes, reduced after every block. -/
def adlerBlocks (sums : Nat × Nat) (bytes : Bytes) : Nat × Nat :=
  if bytes.length = 0 then
    sums
  else
    let (a, b) := adlerSums sums (bytes.take reductionBlockBytes)
    adlerBlocks (a % modAdler, b % modAdler) (bytes.drop reductionBlockBytes)
termination_by bytes.length
decreasing_by
  simp only [List.length_drop, reductionBlockBytes]
  omega

def adler32 (bytes : Bytes) : Nat :=
  let (a, b) := adlerBlocks (1, 0) bytes
  b * 2 ^ 16 + a

/-! ## Machine arithmetic -/

/-- The two sums after some more bytes in `u32`, or nothing when an addition overflows. -/
def adlerSumsU32 (sums : Nat × Nat) (bytes : Bytes) : Option (Nat × Nat) :=
  bytes.foldlM (fun sums byte => do
    let a ← toU32? (sums.1 + byte.toNat)
    let b ← toU32? (sums.2 + a)
    return (a, b)) sums

/-- The loop over blocks in `u32`: `IncrementalAdler32::update`. -/
def adlerBlocksU32 (sums : Nat × Nat) (bytes : Bytes) : Option (Nat × Nat) :=
  if bytes.length = 0 then
    some sums
  else do
    let sums ← adlerSumsU32 sums (bytes.take reductionBlockBytes)
    adlerBlocksU32 (sums.1 % modAdler, sums.2 % modAdler) (bytes.drop reductionBlockBytes)
termination_by bytes.length
decreasing_by
  simp only [List.length_drop, reductionBlockBytes]
  omega

/-- `(b << 16) | a` in `u32` -/
def finishAdlerU32 (sums : Nat × Nat) : Nat := ((sums.2 <<< 16) % u32Bound) ||| sums.1

/-- `adler32` in `u32` -/
def adler32U32 (bytes : Bytes) : Option Nat := (adlerBlocksU32 (1, 0) bytes).map finishAdlerU32

/-- The two sums with a reduction after every byte. -/
def bytewiseSums (bytes : Bytes) : Nat × Nat :=
  bytes.foldl (fun sums byte =>
    let a := (sums.1 + byte.toNat) % modAdler
    (a, (sums.2 + a) % modAdler)) (1, 0)

/-- The checksum as it is defined, byte by byte. -/
def bytewiseAdler32 (bytes : Bytes) : Nat :=
  (bytewiseSums bytes).2 * 2 ^ 16 + (bytewiseSums bytes).1

def verifyAdler32 (context : String) (bytes : Bytes) (expected : Nat) : Except Error Unit :=
  let actual := adler32 bytes
  failIf (actual ≠ expected) (.checksumMismatch context expected actual)

/-- Verify a checksum when the policy says so. -/
def verifyChecksum (policy : ChecksumPolicy) (context : String) (bytes : Bytes) (expected : Nat)
    : Except Error Unit :=
  match policy with
  | .verify => verifyAdler32 context bytes expected
  | .skip => .ok ()

end Mdict
