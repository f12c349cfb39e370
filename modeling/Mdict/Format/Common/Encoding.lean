import Mdict.Str
import Mdict.Session

/-!
This module contains the text encodings of keys and records.
-/

namespace Mdict

inductive TextEncoding where
  | utf8
  | utf16Le
  | gbk
  | gb18030
  | big5
  deriving DecidableEq, Repr

namespace TextEncoding

def fromLabel (label : Option Str) : Except Error TextEncoding :=
  let label := Str.trim (label.getD "UTF-8".toList)
  let is (name : String) := Str.eqIgnoreAsciiCase label name.toList
  if is "UTF-8" || is "UTF8" then
    .ok .utf8
  else if is "UTF-16" || is "UTF-16LE" || is "UTF16" then
    .ok .utf16Le
  else if is "GBK" || is "GB2312" then
    .ok .gbk
  else if is "GB18030" then
    .ok .gb18030
  else if is "BIG5" then
    .ok .big5
  else if is "ISO8859-1" || is "ISO-8859-1" || is "LATIN1" then
    .error (.unsupported "ISO8859-1 text encoding (MDict byte semantics unresolved)")
  else
    .error (.unsupported "text encoding")

/-- The encoding of physical keys: resource paths are UTF-16LE whatever the header says. -/
def forKeys (kind : ContainerKind) (header : Header) : Except Error TextEncoding :=
  match kind with
  | .mdd => .ok .utf16Le
  | .mdx => fromLabel header.encodingLabel

/-- The encoding of records, if they are text at all. -/
def forRecords (kind : ContainerKind) (header : Header) : Except Error (Option TextEncoding) :=
  match kind with
  | .mdd => .ok none
  | .mdx => do
    let encoding ← fromLabel header.encodingLabel
    return some encoding

def unitSize : TextEncoding → Nat
  | utf16Le => 2
  | utf8 | gbk | gb18030 | big5 => 1

def maxEncodingRsOutput (p : Platform) (encoding : LegacyEncoding) (inputLen : Nat)
    : Except Error Nat :=
  okOr (p.maxLegacyLen encoding inputLen) (.invalidFormat "decoded text length overflow")

def maxDecodedLen (p : Platform) (encoding : TextEncoding) (inputLen : Nat) : Except Error Nat :=
  match encoding with
  | utf8 => .ok inputLen
  | utf16Le =>
    okOr ((checkedAdd inputLen 1).bind fun bytes => checkedMul (bytes / 2) 3)
      (.invalidFormat "UTF-16 decoded length overflow")
  | gbk => maxEncodingRsOutput p .gbk inputLen
  | gb18030 => maxEncodingRsOutput p .gb18030 inputLen
  | big5 => maxEncodingRsOutput p .big5 inputLen

def decodeEncodingRs (p : Platform) (encoding : LegacyEncoding) (bytes : Bytes)
    (context name : String)
    : Except Error Str := do
  let _ ← maxEncodingRsOutput p encoding bytes.length
  match p.decodeLegacy encoding bytes with
  | .inputEmpty text read =>
    if read = bytes.length then
      return text
    else
      .error (.invalidFormat "text decoder did not consume bounded input")
  | .malformed => .error (.decode context name)
  | .outputFull => .error (.invalidFormat "text decoder did not consume bounded input")

def decode (p : Platform) (encoding : TextEncoding) (bytes : Bytes) (context : String)
    : Except Error Str :=
  match encoding with
  | utf8 => okOr (Unicode.utf8Decode? bytes) (.decode context "utf-8")
  | utf16Le => do
    failIf (bytes.length % 2 ≠ 0) (.decode context "utf-16le")
    let _ ← okOr (checkedMul (bytes.length / 2) 3)
      (.invalidFormat "UTF-16 decoded length overflow")
    okOr (Unicode.utf16leDecode? bytes) (.decode context "utf-16le")
  | gbk => decodeEncodingRs p .gbk bytes context "gbk"
  | gb18030 => decodeEncodingRs p .gb18030 bytes context "gb18030"
  | big5 => decodeEncodingRs p .big5 bytes context "big5"

/-- The position of the first zero among the 16 bit units of `tail`. -/
def findZeroUnit : (tail : Bytes) → Option Nat
  | a :: b :: rest => if a = 0 ∧ b = 0 then some 0 else (findZeroUnit rest).map (· + 1)
  | _ => none

/--
The text from `offset` up to its terminator and the position after the terminator.
-/
def splitTerminated (encoding : TextEncoding) (bytes : Bytes) (offset : Nat) (context : String)
    : Except Error (Bytes × Nat) := do
  failIf (bytes.length < offset) (.invalidFormat "terminated string offset overflow")
  let tail := bytes.drop offset
  match encoding with
  | utf16Le =>
    let unitIndex ← okOr (findZeroUnit tail)
      (.invalidData s!"missing UTF-16 terminator for {context}")
    let relative ← okOr (checkedMul unitIndex 2)
      (.invalidFormat "terminated string length overflow")
    let stop ← okOr (checkedAdd offset relative) (.invalidFormat "terminated string end overflow")
    let next ← okOr (checkedAdd stop 2) (.invalidFormat "terminated string end overflow")
    return (tail.take relative, next)
  | utf8 | gbk | gb18030 | big5 =>
    let relative ← okOr (tail.findIdx? (· == 0))
      (.invalidData s!"missing terminator for {context}")
    let stop ← okOr (checkedAdd offset relative) (.invalidFormat "terminated string end overflow")
    let next ← okOr (checkedAdd stop 1) (.invalidFormat "terminated string end overflow")
    return (tail.take relative, next)

end TextEncoding

end Mdict
