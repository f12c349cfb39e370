import Mdict.Format.Common.Header

/-!
This module contains the paths that callers mean when they write `file://` URLs. A path is the byte
string that the file system knows, and text is in its UTF-8 form.
-/

namespace Mdict.FileUrl

def scheme : Bytes := ascii "file://"

def hexValue (byte : UInt8) : Option UInt8 :=
  if 0x30 ≤ byte ∧ byte ≤ 0x39 then
    some (byte - 0x30)
  else if 0x61 ≤ byte ∧ byte ≤ 0x66 then
    some (byte - 0x61 + 10)
  else if 0x41 ≤ byte ∧ byte ≤ 0x46 then
    some (byte - 0x41 + 10)
  else
    none

/-- Undo the escapes from the byte at `index` on, behind what is `decoded` already. -/
def percentDecodeFrom (bytes : Bytes) (index : Nat) (decoded : Bytes) : Except Error Bytes :=
  if h : index < bytes.length then
    if bytes[index] ≠ 0x25 then
      percentDecodeFrom bytes (index + 1) (decoded ++ [bytes[index]])
    else
      match bytes[index + 1]?.bind hexValue, bytes[index + 2]?.bind hexValue with
      | some high, some low =>
        percentDecodeFrom bytes (index + 3) (decoded ++ [(high <<< 4) ||| low])
      | _, _ => .error (.invalidData "file URL contains a malformed percent-escape")
  else
    .ok decoded
termination_by bytes.length - index

def percentDecode (encoded : Bytes) : Except Error Bytes := do
  let decoded ← percentDecodeFrom encoded 0 []
  failIf (Unicode.utf8Decode? decoded = none)
    (.invalidData "file URL does not decode to valid UTF-8")
  return decoded

/-- `u8::is_ascii_alphabetic` -/
def isAsciiAlphabetic (b : UInt8) : Bool :=
  (0x41 ≤ b && b ≤ 0x5A) || (0x61 ≤ b && b ≤ 0x7A)

/-- `/C:/Users` is how a Windows path travels in a URL. -/
def windowsDrivePath (decoded : Bytes) : Except Error Bytes :=
  if decoded[0]? = some 0x2F ∧ decoded[1]?.any isAsciiAlphabetic ∧ decoded[2]? = some 0x3A then
    strSlice decoded 1 decoded.length
  else
    .ok decoded

/-- The authority of a URL, which ends before the first `/`, and its encoded path. -/
def splitAuthority (rest : Bytes) : Except Error (Bytes × Bytes) :=
  match rest.findIdx? (· == 0x2F) with
  | some index => do
    let authority ← strSlice rest 0 index
    let encoded ← strSlice rest index rest.length
    return (authority, encoded)
  | none => .ok (rest, ascii "/")

/-- The path that a caller means. -/
def resolve (path : Bytes) : Except Error Bytes :=
  if Unicode.utf8Decode? path = none then
    .ok path
  else if ¬scheme.isPrefixOf path then
    .ok path
  else do
    let rest ← strSlice path scheme.length path.length
    let (authority, encoded) ← splitAuthority rest
    let authority ← strOfUtf8 authority
    failIf (¬(authority = [] ∨ Str.eqIgnoreAsciiCase authority "localhost".toList))
      (.invalidData (s!"file URL names the remote host {String.ofList authority}, " ++
        "which is not a local dictionary"))
    let decoded ← percentDecode encoded
    windowsDrivePath decoded

end Mdict.FileUrl
