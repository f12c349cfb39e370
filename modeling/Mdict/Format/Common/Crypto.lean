import Mdict.Types

/-!
This module contains the cryptographic primitives: RIPEMD-128 and Salsa20/8.
-/

namespace Mdict

/-! ## Registration codes -/

def hexNibble (byte : UInt8) : Except Error UInt8 :=
  if 0x30 ≤ byte ∧ byte ≤ 0x39 then
    .ok (byte - 0x30)
  else if 0x61 ≤ byte ∧ byte ≤ 0x66 then
    .ok (byte - 0x61 + 10)
  else if 0x41 ≤ byte ∧ byte ≤ 0x46 then
    .ok (byte - 0x41 + 10)
  else
    .error (.invalidData "registration code contains non-hex bytes")

/-- The bytes that pairs of hexadecimal digits describe. -/
def decodeHexPairs : Bytes → Except Error Bytes
  | a :: b :: rest => do
    let high ← hexNibble a
    let low ← hexNibble b
    let bytes ← decodeHexPairs rest
    return ((high <<< 4) ||| low) :: bytes
  | _ => .ok []

def decodeHex16 (text : Str) : Except Error Bytes := do
  let bytes := Unicode.utf8 text
  failIf (bytes.length ≠ 32) (.invalidData "registration code must be 32 hex digits")
  decodeHexPairs bytes

/-! ## Words -/

def rotateLeft (word : UInt32) (n : UInt32) : UInt32 := (word <<< n) ||| (word >>> (32 - n))

/-- The little endian word at the start of a byte string. -/
def wordOfLE (bytes : Bytes) : UInt32 := UInt32.ofNat (Bytes.toLE (bytes.take 4))

/-- The little endian bytes of words. -/
def bytesOfWords (words : List UInt32) : Bytes := words.flatMap fun word => Bytes.ofLE 4 word.toNat

/-- The `n` words at the start of a byte string. -/
def wordsOfLE : (n : Nat) → Bytes → List UInt32
  | 0, _ => []
  | n + 1, bytes => wordOfLE bytes :: wordsOfLE n (bytes.drop 4)

/-! ## RIPEMD-128 -/

def ripemd128R : Array Nat := #[
  0, 1, 2, 3, 4, 5, 6, 7, 8, 9, 10, 11, 12, 13, 14, 15, 7, 4, 13, 1, 10, 6, 15, 3, 12, 0, 9, 5,
  2, 14, 11, 8, 3, 10, 14, 4, 9, 15, 8, 1, 2, 7, 0, 6, 13, 11, 5, 12, 1, 9, 11, 10, 0, 8, 12, 4,
  13, 3, 7, 15, 14, 5, 6, 2]

def ripemd128Rp : Array Nat := #[
  5, 14, 7, 0, 9, 2, 11, 4, 13, 6, 15, 8, 1, 10, 3, 12, 6, 11, 3, 7, 0, 13, 5, 10, 14, 15, 8, 12,
  4, 9, 1, 2, 15, 5, 1, 3, 7, 14, 6, 9, 11, 8, 12, 2, 10, 0, 4, 13, 8, 6, 4, 1, 3, 11, 15, 0, 5,
  12, 2, 13, 9, 7, 10, 14]

def ripemd128S : Array UInt32 := #[
  11, 14, 15, 12, 5, 8, 7, 9, 11, 13, 14, 15, 6, 7, 9, 8, 7, 6, 8, 13, 11, 9, 7, 15, 7, 12, 15,
  9, 11, 7, 13, 12, 11, 13, 6, 7, 14, 9, 13, 15, 14, 8, 13, 6, 5, 12, 7, 5, 11, 12, 14, 15, 14,
  15, 9, 8, 9, 14, 5, 6, 8, 6, 5, 12]

def ripemd128Sp : Array UInt32 := #[
  8, 9, 9, 11, 13, 15, 15, 5, 7, 7, 8, 11, 14, 14, 12, 6, 9, 13, 15, 7, 12, 8, 9, 11, 7, 7, 12,
  7, 6, 15, 13, 11, 9, 7, 15, 11, 8, 6, 6, 14, 12, 13, 5, 14, 13, 13, 7, 5, 15, 5, 8, 11, 14, 14,
  6, 14, 6, 9, 12, 9, 12, 5, 15, 8]

def ripemd128F (idx : Nat) (x y z : UInt32) : UInt32 :=
  if idx ≤ 15 then
    x ^^^ y ^^^ z
  else if idx ≤ 31 then
    (x &&& y) ||| (~~~x &&& z)
  else if idx ≤ 47 then
    (x ||| ~~~y) ^^^ z
  else
    (x &&& z) ||| (y &&& ~~~z)

def ripemd128Fp (idx : Nat) (x y z : UInt32) : UInt32 :=
  if idx ≤ 15 then
    (x &&& z) ||| (y &&& ~~~z)
  else if idx ≤ 31 then
    (x ||| ~~~y) ^^^ z
  else if idx ≤ 47 then
    (x &&& y) ||| (~~~x &&& z)
  else
    x ^^^ y ^^^ z

def ripemd128K (idx : Nat) : UInt32 :=
  if idx ≤ 15 then
    0x00000000
  else if idx ≤ 31 then
    0x5a827999
  else if idx ≤ 47 then
    0x6ed9eba1
  else
    0x8f1bbcdc

def ripemd128Kp (idx : Nat) : UInt32 :=
  if idx ≤ 15 then
    0x50a28be6
  else if idx ≤ 31 then
    0x5c4dd124
  else if idx ≤ 47 then
    0x6d703ef3
  else
    0x00000000

/-- The four words of a RIPEMD-128 state, or of one of its two lines. -/
structure Ripemd128State where
  a : UInt32
  b : UInt32
  c : UInt32
  d : UInt32
  deriving DecidableEq, Repr

def Ripemd128State.words (state : Ripemd128State) : List UInt32 :=
  [state.a, state.b, state.c, state.d]

/-- One step of a line: mix in `word`, rotate and shift the registers. -/
def Ripemd128State.step (state : Ripemd128State) (mixed word constant shift : UInt32)
    : Ripemd128State where
  a := state.d
  b := rotateLeft (state.a + mixed + word + constant) shift
  c := state.b
  d := state.c

def ripemd128Round (words : Array UInt32) (lines : Ripemd128State × Ripemd128State) (idx : Nat)
    : Ripemd128State × Ripemd128State :=
  let (left, right) := lines
  (left.step (ripemd128F idx left.b left.c left.d) words[ripemd128R[idx]!]! (ripemd128K idx)
      ripemd128S[idx]!,
    right.step (ripemd128Fp idx right.b right.c right.d) words[ripemd128Rp[idx]!]!
      (ripemd128Kp idx) ripemd128Sp[idx]!)

def ripemd128Compress (state : Ripemd128State) (chunk : Bytes) : Ripemd128State :=
  let words := (wordsOfLE 16 chunk).toArray
  let (left, right) := (List.range 64).foldl (ripemd128Round words) (state, state)
  { a := state.b + left.c + right.d
    b := state.c + left.d + right.a
    c := state.d + left.a + right.b
    d := state.a + left.b + right.c }

def ripemd128Init : Ripemd128State := ⟨0x67452301, 0xefcdab89, 0x98badcfe, 0x10325476⟩

/-- Compress the complete blocks of 64 bytes; the second component is the remainder. -/
def ripemd128Blocks (state : Ripemd128State) (bytes : Bytes) : Ripemd128State × Bytes :=
  if bytes.length < 64 then
    (state, bytes)
  else
    ripemd128Blocks (ripemd128Compress state (bytes.take 64)) (bytes.drop 64)
termination_by bytes.length
decreasing_by
  simp only [List.length_drop]
  omega

/-- The last block or blocks: the remainder, a one bit, zeros and the length in bits. -/
def ripemd128Tail (remainder : Bytes) (len : Nat) : Bytes :=
  let paddedLen := if remainder.length < 56 then 64 else 128
  let bitLen := len * 8 % u64Bound
  remainder ++ [0x80] ++ List.replicate (paddedLen - 8 - (remainder.length + 1)) 0
    ++ Bytes.ofLE 8 bitLen

def ripemd128 (bytes : Bytes) : Bytes :=
  let (state, remainder) := ripemd128Blocks ripemd128Init bytes
  let (state, _) := ripemd128Blocks state (ripemd128Tail remainder bytes.length)
  bytesOfWords state.words

/-! ## Salsa20/8 -/

def quarterRound (state : Array UInt32) (a b c d : Nat) : Array UInt32 :=
  let state := state.set! b (state[b]! ^^^ rotateLeft (state[a]! + state[d]!) 7)
  let state := state.set! c (state[c]! ^^^ rotateLeft (state[b]! + state[a]!) 9)
  let state := state.set! d (state[d]! ^^^ rotateLeft (state[c]! + state[b]!) 13)
  state.set! a (state[a]! ^^^ rotateLeft (state[d]! + state[c]!) 18)

def columnRound (state : Array UInt32) : Array UInt32 :=
  let state := quarterRound state 0 4 8 12
  let state := quarterRound state 5 9 13 1
  let state := quarterRound state 10 14 2 6
  quarterRound state 15 3 7 11

def rowRound (state : Array UInt32) : Array UInt32 :=
  let state := quarterRound state 0 1 2 3
  let state := quarterRound state 5 6 7 4
  let state := quarterRound state 10 11 8 9
  quarterRound state 15 12 13 14

def doubleRound (state : Array UInt32) : Array UInt32 := rowRound (columnRound state)

def salsa208Block (key : Bytes) (counter : Nat) : Bytes :=
  let constants := "expand 16-byte k".toUTF8.toList
  let word (bytes : Bytes) (i : Nat) := wordOfLE (bytes.drop (4 * i))
  let state := #[
    word constants 0, word key 0, word key 1, word key 2, word key 3, word constants 1, 0, 0,
    UInt32.ofNat counter, UInt32.ofNat (counter / 2 ^ 32), word constants 2, word key 0,
    word key 1, word key 2, word key 3, word constants 3]
  let working := doubleRound (doubleRound (doubleRound (doubleRound state)))
  bytesOfWords (List.zipWith (· + ·) working.toList state.toList)

/-- Combine `data` with the key stream from block `counter` on. -/
def salsa208XorFrom (key : Bytes) (counter : Nat) (data : Bytes) : Bytes :=
  if data.length = 0 then
    []
  else
    List.zipWith (· ^^^ ·) (data.take 64) (salsa208Block key counter)
      ++ salsa208XorFrom key (counter + 1) (data.drop 64)
termination_by data.length
decreasing_by
  simp only [List.length_drop]
  omega

def salsa208Xor (data key : Bytes) : Bytes := salsa208XorFrom key 0 data

end Mdict
