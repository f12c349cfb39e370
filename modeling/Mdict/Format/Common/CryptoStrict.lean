import Mdict.Format.Common.Crypto
import Mdict.Lib.Blocks
import Mdict.Strict

/-!
This module contains RIPEMD-128 with every index, slice and conversion that the program leaves to
its build: to be out of range is a panic.
-/

namespace Mdict

/-- The word that starts at byte `4 * idx`. -/
def wordStrict (chunk : Bytes) (idx : Nat) : Except Error UInt32 := do
  let start := idx * 4
  let first ← indexed chunk.toArray start
  let second ← indexed chunk.toArray (start + 1)
  let third ← indexed chunk.toArray (start + 2)
  let fourth ← indexed chunk.toArray (start + 3)
  return UInt32.ofNat (Bytes.toLE [first, second, third, fourth])

def ripemd128RoundStrict (words : Array UInt32) (lines : Ripemd128State × Ripemd128State)
    (idx : Nat)
    : Except Error (Ripemd128State × Ripemd128State) := do
  let (left, right) := lines
  let word ← indexed ripemd128R idx
  let word ← indexed words word
  let shift ← indexed ripemd128S idx
  let left := left.step (ripemd128F idx left.b left.c left.d) word (ripemd128K idx) shift
  let word ← indexed ripemd128Rp idx
  let word ← indexed words word
  let shift ← indexed ripemd128Sp idx
  let right := right.step (ripemd128Fp idx right.b right.c right.d) word (ripemd128Kp idx) shift
  return (left, right)

def ripemd128CompressStrict (state : Ripemd128State) (chunk : Bytes)
    : Except Error Ripemd128State := do
  failIf (chunk.length ≠ 64) (.panic "an array has another length")
  let words ← (List.range 16).mapM (wordStrict chunk)
  let (left, right) ← (List.range 64).foldlM (ripemd128RoundStrict words.toArray) (state, state)
  return {
    a := state.b + left.c + right.d
    b := state.c + left.d + right.a
    c := state.d + left.a + right.b
    d := state.a + left.b + right.c
  }

/-- `tail[remainder.len()] = 0x80` and what is written before and after it. -/
def ripemd128TailStrict (remainder : Bytes) (len : Nat) : Except Error Bytes := do
  let tail := List.replicate 128 0
  let tail ← copyFromSlice tail 0 remainder.length remainder 0 remainder.length
  failIf (tail.length ≤ remainder.length) (.panic "index out of bounds")
  let tail := tail.set remainder.length 0x80
  let paddedLen := if remainder.length < 56 then 64 else 128
  let bitLen := len * 8 % u64Bound
  let start ← subtract paddedLen 8
  let tail ← copyFromSlice tail start paddedLen (Bytes.ofLE 8 bitLen) 0 8
  okOr (tail.get? 0 paddedLen) (.panic "range out of bounds")

def ripemd128Strict (bytes : Bytes) : Except Error Bytes := do
  let state ← (Blocks.blocks 64 bytes).foldlM ripemd128CompressStrict ripemd128Init
  let remainder := bytes.drop (64 * (bytes.length / 64))
  let tail ← ripemd128TailStrict remainder bytes.length
  let state ← (Blocks.blocks 64 tail).foldlM ripemd128CompressStrict state
  return bytesOfWords state.words

end Mdict
