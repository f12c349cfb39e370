import Mdict.Lib.Unicode
import Mdict.Error

/-!
This module contains the values that callers and the parts of the library exchange: options,
limits, headers and keys.
-/

namespace Mdict

/--
A string, as the sequence of its characters.
-/
abbrev Str := List Char

inductive ContainerKind where
  | mdx
  | mdd
  deriving DecidableEq, Repr

inductive ChecksumPolicy where
  | skip
  | verify
  deriving DecidableEq, Repr

/--
One physical key together with its position in the file.
-/
structure KeyEntry where
  ordinal : Nat
  key : Str
  deriving DecidableEq, Repr

/--
The encryption bits of a header.
-/
structure EncryptionMode where
  bits : Nat
  deriving DecidableEq, Repr

def EncryptionMode.hasKeywordHeader (mode : EncryptionMode) : Bool := mode.bits &&& 0b01 != 0

def EncryptionMode.hasKeywordIndex (mode : EncryptionMode) : Bool := mode.bits &&& 0b10 != 0

/--
Parsed top-level header metadata.
-/
structure Header where
  rawXml : Str
  tagName : Str
  attributes : List (Str × Str)
  generatedByEngineVersion : Str
  requiredEngineVersion : Str
  encodingLabel : Option Str
  format : Option Str
  keyCaseSensitive : Bool
  stripKey : Bool
  encrypted : Nat
  registerBy : Option Str
  regCode : Option Str
  description : Option Str
  title : Option Str
  creationDate : Option Str
  deriving DecidableEq, Repr

def Header.encryptionMode (header : Header) : EncryptionMode := ⟨header.encrypted⟩

/--
Passcode material: 32 hexadecimal digits and a user identity.
-/
structure Passcode where
  regCodeHex : Str
  userId : Str
  deriving DecidableEq, Repr

def Passcode.new (regCodeHex userId : Str) : Except Error Passcode := do
  failIf ((Unicode.utf8 regCodeHex).length ≠ 32 ∨ ¬(regCodeHex.all fun c =>
      c.isDigit || ('a' ≤ c && c ≤ 'f') || ('A' ≤ c && c ≤ 'F')))
    (.invalidPasscode "registration code must contain exactly 32 hex digits")
  failIf ((Unicode.utf8 userId).length > 4 * 1024)
    (.invalidPasscode "user identity must not exceed 4096 UTF-8 bytes")
  return { regCodeHex, userId }

/--
The resource ceilings of one open dictionary.
-/
structure Limits where
  headerXmlBytes : Nat
  headerAttributes : Nat
  keyIndexBytes : Nat
  recordIndexBytes : Nat
  compressedBlockBytes : Nat
  decompressedBlockBytes : Nat
  blockMetadataBytes : Nat
  keyBlockEntries : Nat
  materializedRecordBytes : Nat
  locatorEntries : Nat
  locatorBytes : Nat
  workingMemoryBytes : Nat
  deriving DecidableEq, Repr

def Limits.new : Limits where
  headerXmlBytes := 16 * 1024 * 1024
  headerAttributes := 4 * 1024
  keyIndexBytes := 64 * 1024 * 1024
  recordIndexBytes := 64 * 1024 * 1024
  compressedBlockBytes := 256 * 1024 * 1024
  decompressedBlockBytes := 512 * 1024 * 1024
  blockMetadataBytes := 64 * 1024 * 1024
  keyBlockEntries := 2000000
  materializedRecordBytes := 64 * 1024 * 1024
  locatorEntries := 10000000
  locatorBytes := 512 * 1024 * 1024
  workingMemoryBytes := 1024 * 1024 * 1024

structure OpenOptions where
  passcode : Option Passcode
  limits : Limits
  checksumPolicy : ChecksumPolicy
  deriving DecidableEq, Repr

def OpenOptions.new : OpenOptions where
  passcode := none
  limits := .new
  checksumPolicy := .skip

/-! ## Limits -/

/-- Fail when `value` exceeds the ceiling `max` called `limit`. -/
def ensureLimit (limit : String) (value max : Nat) : Except Error Unit :=
  failIf (value > max) (.limitExceeded limit value max)

/-- A `u64` as a `usize`. -/
def checkedUsize (value : Nat) (context : String) : Except Error Nat :=
  okOr (if value < u64Bound then some value else none)
    (.invalidData s!"{context} value {value} exceeds the platform address space")

@[simp]
theorem ensureLimit_eq_ok {limit : String} {value max : Nat} {u : Unit}
    : ensureLimit limit value max = .ok u ↔ value ≤ max := by
  simp [ensureLimit]

@[simp]
theorem checkedUsize_eq_ok {value : Nat} {context : String} {v : Nat}
    : checkedUsize value context = .ok v ↔ value = v ∧ value < u64Bound := by
  simp only [checkedUsize, okOr_eq_ok]
  split <;> simp <;> omega

/-- The sum of two sizes read from a file. -/
def addU64 (left right : Nat) (context : String) : Except Error Nat :=
  okOr (checkedAdd left right) (.invalidFormat context)

/-- The product of two sizes read from a file. -/
def mulU64 (left right : Nat) (context : String) : Except Error Nat :=
  okOr (checkedMul left right) (.invalidFormat context)

@[simp]
theorem addU64_eq_ok {left right : Nat} {context : String} {v : Nat}
    : addU64 left right context = .ok v ↔ left + right = v ∧ v < u64Bound := by
  simp [addU64]

@[simp]
theorem mulU64_eq_ok {left right : Nat} {context : String} {v : Nat}
    : mulU64 left right context = .ok v ↔ left * right = v ∧ v < u64Bound := by
  simp [mulU64]

/-! ## Checks that pass -/

theorem ensureLimit_of_le {limit : String} {value max : Nat} (h : value ≤ max)
    : ensureLimit limit value max = .ok () :=
  ensureLimit_eq_ok.mpr h

theorem checkedUsize_of_lt {value : Nat} {context : String} (h : value < u64Bound)
    : checkedUsize value context = .ok value :=
  checkedUsize_eq_ok.mpr ⟨rfl, h⟩

theorem addU64_of_lt {left right : Nat} {context : String} (h : left + right < u64Bound)
    : addU64 left right context = .ok (left + right) :=
  addU64_eq_ok.mpr ⟨rfl, h⟩

theorem mulU64_of_lt {left right : Nat} {context : String} (h : left * right < u64Bound)
    : mulU64 left right context = .ok (left * right) :=
  mulU64_eq_ok.mpr ⟨rfl, h⟩

theorem checkedAdd_of_lt {left right : Nat} (h : left + right < u64Bound)
    : checkedAdd left right = some (left + right) :=
  checkedAdd_eq_some.mpr ⟨rfl, h⟩

theorem checkedMul_of_lt {left right : Nat} (h : left * right < u64Bound)
    : checkedMul left right = some (left * right) :=
  checkedMul_eq_some.mpr ⟨rfl, h⟩

end Mdict
