import Mdict.Format.Common.Checksum
import Mdict.Format.Common.Cursor
import Mdict.Format.Common.Descriptors
import Mdict.Format.Common.Source
import Mdict.Format.Common.Compression

/-!
This module contains the top-level header: a length, one XML tag in UTF-16LE and a checksum. The
tag is parsed byte by byte over its UTF-8 form, as the program does, and a slice that would not
start and end at a character is an index panic.
-/

namespace Mdict

/-! ## Slices of strings -/

/-- `&s[start..stop]` on the UTF-8 form of a string. -/
def strSlice (s : Bytes) (start stop : Nat) : Except Error Bytes :=
  if start ≤ stop ∧ stop ≤ s.length ∧ Unicode.isCharBoundary s start ∧ Unicode.isCharBoundary s stop
  then
    .ok ((s.drop start).take (stop - start))
  else
    .error (.panic "byte index is not a char boundary")

/-- The string with the given bytes. -/
def strOfUtf8 (s : Bytes) : Except Error Str :=
  okOr (Unicode.utf8Decode? s) (.panic "string is not UTF-8")

/-! ## Entities -/

/-- The number that digits of the given radix describe, as `u32::from_str_radix` reads it. -/
def fromStrRadix (radix : Nat) (digit? : UInt8 → Option Nat) (digits : Bytes) : Option Nat :=
  let digits := match digits with
    | 0x2B :: rest => rest
    | _ => digits
  if digits = [] then
    none
  else
    (digits.foldlM (fun n b => (digit? b).map (n * radix + ·)) 0).bind toU32?

def decimalDigit? (b : UInt8) : Option Nat :=
  if 0x30 ≤ b ∧ b ≤ 0x39 then some (b.toNat - 0x30) else none

def hexDigit? (b : UInt8) : Option Nat :=
  if 0x30 ≤ b ∧ b ≤ 0x39 then
    some (b.toNat - 0x30)
  else if 0x61 ≤ b ∧ b ≤ 0x66 then
    some (b.toNat - 0x61 + 10)
  else if 0x41 ≤ b ∧ b ≤ 0x46 then
    some (b.toNat - 0x41 + 10)
  else
    none

/-- The bytes of an ASCII string. -/
def ascii (s : String) : Bytes := Unicode.utf8 s.toList

/-- The character that an entity stands for. -/
def xmlEntity (entity : Bytes) : Except Error Char :=
  if entity = ascii "amp" then
    .ok '&'
  else if entity = ascii "lt" then
    .ok '<'
  else if entity = ascii "gt" then
    .ok '>'
  else if entity = ascii "quot" then
    .ok '"'
  else if entity = ascii "apos" then
    .ok '\''
  else if (ascii "#x").isPrefixOf entity ∨ (ascii "#X").isPrefixOf entity then do
    let digits ← strSlice entity 2 entity.length
    let codepoint ← okOr (fromStrRadix 16 hexDigit? digits)
      (.invalidFormat "invalid hex xml entity")
    okOr (Unicode.charOfNat? codepoint) (.invalidFormat "invalid hex xml codepoint")
  else if (ascii "#").isPrefixOf entity then do
    let digits ← strSlice entity 1 entity.length
    let codepoint ← okOr (fromStrRadix 10 decimalDigit? digits)
      (.invalidFormat "invalid decimal xml entity")
    okOr (Unicode.charOfNat? codepoint) (.invalidFormat "invalid decimal xml codepoint")
  else
    .error (.invalidFormat "unsupported xml entity")

/-- Replace the entities in `remaining`; every round consumes at least a byte of the fuel. -/
def unescapeXmlFrom : (fuel : Nat) → (remaining : Bytes) → Except Error Bytes
  | 0, remaining => .ok remaining
  | fuel + 1, remaining =>
    match remaining.findIdx? (· == 0x26) with
    | none => .ok remaining
    | some entityStart => do
      let plain ← strSlice remaining 0 entityStart
      let afterAmpersand ← strSlice remaining (entityStart + 1) remaining.length
      let entityEnd ← okOr (afterAmpersand.findIdx? (· == 0x3B))
        (.invalidFormat "unterminated XML entity")
      let entity ← strSlice afterAmpersand 0 entityEnd
      let character ← xmlEntity entity
      let rest ← strSlice afterAmpersand (entityEnd + 1) afterAmpersand.length
      let output ← unescapeXmlFrom fuel rest
      return plain ++ Unicode.utf8 [character] ++ output

def unescapeXml (value : Bytes) : Except Error Str := do
  let output ← unescapeXmlFrom value.length value
  strOfUtf8 output

/-! ## The tag -/

/-- `u8::is_ascii_whitespace` -/
def isAsciiWhitespace (b : UInt8) : Bool :=
  b == 0x20 || b == 0x09 || b == 0x0A || b == 0x0C || b == 0x0D

/-- The first index from `index` on whose byte does not satisfy `p`, or the end. -/
def scanWhile (p : UInt8 → Bool) (bytes : Bytes) (index : Nat) : Nat :=
  index + ((bytes.drop index).takeWhile p).length

def skipAsciiWhitespace (bytes : Bytes) (index : Nat) : Nat :=
  scanWhile isAsciiWhitespace bytes index

/-- The attribute whose name starts at `nameStart` and the index after it. -/
def parseAttribute (xml : Bytes) (nameStart : Nat) (attrs : List (Str × Str))
    : Except Error ((Str × Str) × Nat) := do
  let index := scanWhile (fun b => !isAsciiWhitespace b && b != 0x3D && b != 0x3E) xml nameStart
  failIf (nameStart = index) (.invalidFormat "empty header XML attribute name")
  let nameBytes ← strSlice xml nameStart index
  let name ← strOfUtf8 nameBytes
  failIf (attrs.any (·.1 == name)) (.invalidData "duplicate exact header XML attribute")
  let index := skipAsciiWhitespace xml index
  failIf (xml[index]? ≠ some 0x3D) (.invalidFormat "expected '=' in header xml attribute")
  let index := skipAsciiWhitespace xml (index + 1)
  let quote ← okOr (xml[index]?.filter fun b => b == 0x22 || b == 0x27)
    (.invalidFormat "expected quoted header xml attribute")
  let valueStart := index + 1
  let index := scanWhile (· != quote) xml valueStart
  failIf (index ≥ xml.length) (.invalidFormat "unterminated header xml attribute value")
  let valueBytes ← strSlice xml valueStart index
  let value ← unescapeXml valueBytes
  return ((name, value), index + 1)

/--
The attributes from `index` on, of which at most `left` may follow `attrs`; also the index of the
`>` that ends the tag and whether the tag closes itself.
-/
def parseAttributes (xml : Bytes) (limit : Nat)
    : (left index : Nat) → (attrs : List (Str × Str))
    → Except Error (List (Str × Str) × Nat × Bool)
  | left, index, attrs =>
    let index := skipAsciiWhitespace xml index
    match xml[index]? with
    | none => .error (.invalidFormat "unterminated header xml tag")
    | some 0x2F =>
      if xml[index + 1]? = some 0x3E then
        .ok (attrs, index + 1, true)
      else
        .error (.invalidFormat "invalid self-closing header tag")
    | some 0x3E => .ok (attrs, index, false)
    | some _ =>
      match left with
      | 0 => .error (.limitExceeded "header_attributes" (attrs.length + 1) limit)
      | left + 1 => do
        let (attr, index) ← parseAttribute xml index attrs
        parseAttributes xml limit left index (attrs ++ [attr])

/-- Check what follows a tag up to the end of the header. -/
def parseTagEnd (xml : Bytes) (tagName : Bytes) (index : Nat) (selfClosing : Bool)
    : Except Error Unit := do
  let index := skipAsciiWhitespace xml (index + 1)
  failIf (index ≠ xml.length ∧ selfClosing)
    (.invalidFormat "trailing content after top-level header tag")
  if index = xml.length then
    return ()
  failIf (¬(ascii "</").isPrefixOf (xml.drop index))
    (.invalidFormat "content inside top-level header element is not supported")
  let closingNameStart := index + 2
  let index := scanWhile (fun b => !isAsciiWhitespace b && b != 0x3E) xml closingNameStart
  failIf (xml.get? closingNameStart index ≠ some tagName)
    (.invalidFormat "mismatched top-level header closing tag")
  let index := skipAsciiWhitespace xml index
  failIf (xml[index]? ≠ some 0x3E) (.invalidFormat "malformed top-level header closing tag")
  let index := skipAsciiWhitespace xml (index + 1)
  failIf (index ≠ xml.length) (.invalidFormat "trailing content after top-level header element")

def parseSingleTag (xml : Str) (limits : Limits) : Except Error (Str × List (Str × Str)) := do
  let bytes := Unicode.utf8 xml
  failIf (bytes[0]? ≠ some 0x3C) (.invalidFormat "header xml must start with '<'")
  let index := scanWhile (fun b => !isAsciiWhitespace b && b != 0x2F && b != 0x3E) bytes 1
  failIf (index = 1) (.invalidFormat "empty top-level header tag")
  let tagBytes ← strSlice bytes 1 index
  let tagName ← strOfUtf8 tagBytes
  let (attrs, index, selfClosing) ←
    parseAttributes bytes limits.headerAttributes limits.headerAttributes index []
  parseTagEnd bytes tagBytes index selfClosing
  return (tagName, attrs)

/-! ## Known attributes -/

/--
The one value that the attributes called `canonicalName` have in common, read by `parse`; in the
source one loop for each kind of value.
-/
def knownValue {α : Type} [DecidableEq α] (canonicalName : String) (parse : Str → Except Error α)
    (found : Option α) : List (Str × Str) → Except Error (Option α)
  | [] => .ok found
  | (name, value) :: rest =>
    if Str.eqIgnoreAsciiCase name canonicalName.toList then do
      let parsed ← parse value
      failIf (found.any (· ≠ parsed))
        (.invalidData s!"conflicting aliases for header attribute {canonicalName}")
      knownValue canonicalName parse (some parsed) rest
    else
      knownValue canonicalName parse found rest

def knownAttribute (attributes : List (Str × Str)) (canonicalName : String)
    : Except Error (Option Str) :=
  knownValue canonicalName .ok none attributes

def cloneOptionalAttribute (attributes : List (Str × Str)) (canonicalName : String)
    : Except Error (Option Str) := do
  let value ← knownAttribute attributes canonicalName
  return value.filter (· ≠ [])

def parseKnownBool (attributes : List (Str × Str)) (canonicalName : String) (default : Bool)
    : Except Error Bool := do
  let parse (value : Str) : Except Error Bool :=
    if Str.eqIgnoreAsciiCase value "yes".toList then
      .ok true
    else if Str.eqIgnoreAsciiCase value "no".toList then
      .ok false
    else
      .error (.invalidData s!"header attribute {canonicalName} must be Yes or No")
  let found ← knownValue canonicalName parse none attributes
  return found.getD default

def parseEncryptionValue (value : Str) : Except Error Nat := do
  let bits ←
    if Str.eqIgnoreAsciiCase value "yes".toList then
      pure 1
    else if Str.eqIgnoreAsciiCase value "no".toList then
      pure 0
    else
      okOr (Str.parseNat? 256 value) (.invalidData "header attribute Encrypted is malformed")
  failIf (bits > 0b11)
    (.invalidData s!"header attribute Encrypted contains unknown bits 0x{hexByte (.ofNat bits)}")
  return bits

def parseKnownEncryption (attributes : List (Str × Str)) : Except Error Nat := do
  let found ← knownValue "Encrypted" parseEncryptionValue none attributes
  return found.getD 0

/-! ## The header section -/

structure HeaderSection where
  header : Header
  keywordSectionOffset : Nat
  retainedBytes : Nat
  range : SectionRange
  deriving DecidableEq, Repr

def buildHeaderSection (kind : ContainerKind) (xmlLen : Nat) (rawXml tagName : Str)
    (attributes : List (Str × Str)) (retainedBytes : Nat)
    : Except Error HeaderSection := do
  let expectedTag := match kind with
    | .mdx => "Dictionary"
    | .mdd => "Library_Data"
  failIf (tagName ≠ expectedTag.toList) (.invalidFormat "unexpected top-level header tag")
  let generated ← knownAttribute attributes "GeneratedByEngineVersion"
  let generatedByEngineVersion ← okOr generated
    (.invalidFormat "missing GeneratedByEngineVersion")
  let required ← knownAttribute attributes "RequiredEngineVersion"
  let requiredEngineVersion := required.getD generatedByEngineVersion
  let encrypted ← parseKnownEncryption attributes
  let encodingLabel ← cloneOptionalAttribute attributes "Encoding"
  let format ← cloneOptionalAttribute attributes "Format"
  let keyCaseSensitive ← parseKnownBool attributes "KeyCaseSensitive" (kind == .mdd)
  let stripKey ← parseKnownBool attributes "StripKey" false
  let registerBy ← cloneOptionalAttribute attributes "RegisterBy"
  let regCode ← cloneOptionalAttribute attributes "RegCode"
  let description ← cloneOptionalAttribute attributes "Description"
  let title ← cloneOptionalAttribute attributes "Title"
  let creationDate ← cloneOptionalAttribute attributes "CreationDate"
  let header : Header := {
    rawXml, tagName, attributes, generatedByEngineVersion, requiredEngineVersion, encodingLabel
    format, keyCaseSensitive, stripKey, encrypted, registerBy, regCode, description, title
    creationDate
  }
  let keywordSectionOffset ← okOr ((checkedAdd 4 xmlLen).bind (checkedAdd · 4))
    (.invalidFormat "header section offset overflow")
  return {
    header
    keywordSectionOffset
    retainedBytes
    range := ⟨0, keywordSectionOffset⟩
  }

/-- `size_of::<(String, String)>()` -/
def sizeOfAttribute : Nat := 48

/-- `size_of::<Header>()` -/
def sizeOfHeader : Nat := 296

def headerMemoryEstimate (xmlLen : Nat) (limits : Limits) : Except Error Nat :=
  let possibleAttributes := min limits.headerAttributes (xmlLen / 4 + 1)
  okOr (do
    let bytes ← checkedMul xmlLen 8
    let attributes ← checkedMul possibleAttributes sizeOfAttribute
    let bytes ← checkedAdd bytes attributes
    checkedAdd bytes sizeOfHeader) (.invalidFormat "header memory estimate overflow")

def parseHeaderBytesWithLimits (bytes : Bytes) (kind : ContainerKind) (limits : Limits)
    (checksumPolicy : ChecksumPolicy)
    : Exec HeaderSection := do
  let cursor := Cursor.new bytes
  let (xmlLen, cursor) ← cursor.readU32Be "header length"
  ensureLimit "header_xml_bytes" xmlLen limits.headerXmlBytes
  failIf (xmlLen % 2 ≠ 0) (.invalidFormat "header XML length is not UTF-16LE aligned")
  let xmlLen ← checkedUsize xmlLen "header XML length"
  let retainedBytes ← headerMemoryEstimate xmlLen limits
  Exec.reserve retainedBytes "parsed header"
  let (xmlBytes, cursor) ← cursor.readBytes xmlLen "header xml"
  let (expected, _) ← cursor.readU32Le "header checksum"
  verifyChecksum checksumPolicy "header xml" xmlBytes expected
  let p ← Exec.platform
  let decodedXml ← TextEncoding.utf16Le.decode p xmlBytes "header xml"
  let rawXml := Str.trim (Str.trimMatches (· == Char.ofNat 0) decodedXml)
  let (tagName, attributes) ← parseSingleTag rawXml limits
  buildHeaderSection kind xmlLen rawXml tagName attributes retainedBytes

def parseHeader (source : FileSource) (kind : ContainerKind) (limits : Limits)
    (checksumPolicy : ChecksumPolicy)
    : Exec HeaderSection := do
  Exec.reserve 4 "header length read"
  let lenBytes ← source.readExactAt 0 4 "header length"
  let (xmlLen, _) ← (Cursor.new lenBytes).readU32Be "header length"
  ensureLimit "header_xml_bytes" xmlLen limits.headerXmlBytes
  failIf (xmlLen % 2 ≠ 0) (.invalidFormat "header XML length is not UTF-16LE aligned")
  let totalLen ← okOr ((checkedAdd 4 xmlLen).bind (checkedAdd · 4))
    (.invalidFormat "header size overflow")
  source.ensureRange 0 totalLen "header section"
  let totalLen ← checkedUsize totalLen "header section length"
  Exec.reserve totalLen "header section read"
  let bytes ← source.readExactAt 0 totalLen "header section"
  parseHeaderBytesWithLimits bytes kind limits checksumPolicy

end Mdict
