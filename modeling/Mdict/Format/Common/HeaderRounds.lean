import Mdict.Format.Common.Header

/-!
This module contains the scanner of the header tag step by step: every loop has a number of rounds
that it must not exceed, and every byte that is read without a check must be there. To exceed the
rounds, to read beyond the end or to cut through a character is a panic.
-/

namespace Mdict

/-- `bytes[index]` -/
def byteAt (bytes : Bytes) (index : Nat) : Except Error UInt8 :=
  okOr bytes[index]? (.panic "index out of bounds")

/-- `while index < bytes.len() && p(bytes[index]) { index += 1 }` -/
def scanRounds (p : UInt8 → Bool) (bytes : Bytes) : (rounds index : Nat) → Except Error Nat
  | rounds, index =>
    if index < bytes.length then do
      let b ← byteAt bytes index
      if p b then
        match rounds with
        | 0 => .error (.panic "more rounds than expected")
        | rounds + 1 => scanRounds p bytes rounds (index + 1)
      else
        return index
    else
      return index

def skipAsciiWhitespaceRounds (bytes : Bytes) (index : Nat) : Except Error Nat :=
  scanRounds isAsciiWhitespace bytes bytes.length index

/-- The loop over the entities of a value. -/
def unescapeXmlRoundsFrom : (rounds : Nat) → (output remaining : Bytes) → Except Error Bytes
  | rounds, output, remaining =>
    match remaining.findIdx? (· == 0x26) with
    | none => return output ++ remaining
    | some entityStart =>
      match rounds with
      | 0 => .error (.panic "more rounds than expected")
      | rounds + 1 => do
        let plain ← strSlice remaining 0 entityStart
        let afterAmpersand ← strSlice remaining (entityStart + 1) remaining.length
        let entityEnd ← okOr (afterAmpersand.findIdx? (· == 0x3B))
          (.invalidFormat "unterminated XML entity")
        let entity ← strSlice afterAmpersand 0 entityEnd
        let character ← xmlEntity entity
        let rest ← strSlice afterAmpersand (entityEnd + 1) afterAmpersand.length
        unescapeXmlRoundsFrom rounds (output ++ plain ++ Unicode.utf8 [character]) rest

def unescapeXmlRounds (value : Bytes) : Except Error Str := do
  let output ← unescapeXmlRoundsFrom value.length [] value
  strOfUtf8 output

def parseAttributeRounds (xml : Bytes) (nameStart : Nat) (attrs : List (Str × Str))
    : Except Error ((Str × Str) × Nat) := do
  let index ← scanRounds (fun b => !isAsciiWhitespace b && b != 0x3D && b != 0x3E) xml xml.length
    nameStart
  failIf (nameStart = index) (.invalidFormat "empty header XML attribute name")
  let nameBytes ← strSlice xml nameStart index
  let name ← strOfUtf8 nameBytes
  failIf (attrs.any (·.1 == name)) (.invalidData "duplicate exact header XML attribute")
  let index ← skipAsciiWhitespaceRounds xml index
  failIf (xml[index]? ≠ some 0x3D) (.invalidFormat "expected '=' in header xml attribute")
  let index ← skipAsciiWhitespaceRounds xml (index + 1)
  let quote ← okOr (xml[index]?.filter fun b => b == 0x22 || b == 0x27)
    (.invalidFormat "expected quoted header xml attribute")
  let valueStart := index + 1
  let index ← scanRounds (· != quote) xml xml.length valueStart
  failIf (index ≥ xml.length) (.invalidFormat "unterminated header xml attribute value")
  let valueBytes ← strSlice xml valueStart index
  let value ← unescapeXmlRounds valueBytes
  return ((name, value), index + 1)

/-- The loop over the attributes. -/
def parseAttributesRounds (xml : Bytes) (limit : Nat)
    : (rounds index : Nat) → (attrs : List (Str × Str))
    → Except Error (List (Str × Str) × Nat × Bool)
  | rounds, index, attrs => do
    let index ← skipAsciiWhitespaceRounds xml index
    failIf (index ≥ xml.length) (.invalidFormat "unterminated header xml tag")
    let b ← byteAt xml index
    if b = 0x2F then
      if xml[index + 1]? = some 0x3E then
        .ok (attrs, index + 1, true)
      else
        .error (.invalidFormat "invalid self-closing header tag")
    else if b = 0x3E then
      .ok (attrs, index, false)
    else do
      failIf (attrs.length ≥ limit) (.limitExceeded "header_attributes" (attrs.length + 1) limit)
      match rounds with
      | 0 => .error (.panic "more rounds than expected")
      | rounds + 1 => do
        let (attr, index) ← parseAttributeRounds xml index attrs
        parseAttributesRounds xml limit rounds index (attrs ++ [attr])

def parseTagEndRounds (xml : Bytes) (tagName : Bytes) (index : Nat) (selfClosing : Bool)
    : Except Error Unit := do
  let index ← skipAsciiWhitespaceRounds xml (index + 1)
  failIf (index ≠ xml.length ∧ selfClosing)
    (.invalidFormat "trailing content after top-level header tag")
  if index = xml.length then
    return ()
  failIf (¬(ascii "</").isPrefixOf (xml.drop index))
    (.invalidFormat "content inside top-level header element is not supported")
  let closingNameStart := index + 2
  let index ← scanRounds (fun b => !isAsciiWhitespace b && b != 0x3E) xml xml.length closingNameStart
  failIf (xml.get? closingNameStart index ≠ some tagName)
    (.invalidFormat "mismatched top-level header closing tag")
  let index ← skipAsciiWhitespaceRounds xml index
  failIf (xml[index]? ≠ some 0x3E) (.invalidFormat "malformed top-level header closing tag")
  let index ← skipAsciiWhitespaceRounds xml (index + 1)
  failIf (index ≠ xml.length) (.invalidFormat "trailing content after top-level header element")

def parseSingleTagRounds (xml : Str) (limits : Limits) : Except Error (Str × List (Str × Str)) := do
  let bytes := Unicode.utf8 xml
  failIf (bytes[0]? ≠ some 0x3C) (.invalidFormat "header xml must start with '<'")
  let index ← scanRounds (fun b => !isAsciiWhitespace b && b != 0x2F && b != 0x3E) bytes bytes.length 1
  failIf (index = 1) (.invalidFormat "empty top-level header tag")
  let tagBytes ← strSlice bytes 1 index
  let tagName ← strOfUtf8 tagBytes
  let (attrs, index, selfClosing) ←
    parseAttributesRounds bytes limits.headerAttributes bytes.length index []
  parseTagEndRounds bytes tagBytes index selfClosing
  return (tagName, attrs)

end Mdict
