import Mdict.Str
import Mdict.Session

/-!
This module contains the normalization of keys that the header asks for.
-/

namespace Mdict

/-- What the library keeps of a key when the header sets `StripKey`. -/
inductive StripKeyProfile where
  /-- Retain ASCII letters and digits and leave every other character intact. -/
  | asciiAlphanumeric
  deriving DecidableEq, Repr

structure KeyNormalizer where
  caseSensitive : Bool
  stripProfile : Option StripKeyProfile
  resourcePath : Bool
  deriving DecidableEq, Repr

namespace KeyNormalizer

def fromHeader (header : Header) (kind : ContainerKind) : KeyNormalizer where
  caseSensitive := header.keyCaseSensitive
  stripProfile := if header.stripKey then some .asciiAlphanumeric else none
  resourcePath := kind == .mdd

def retains (n : KeyNormalizer) (character : Char) : Bool :=
  n.stripProfile != some .asciiAlphanumeric || !isAscii character || character.isAlphanum

/-- A separator before the first other character of a resource path. -/
def isLeadingSeparator (n : KeyNormalizer) (atPathStart : Bool) (character : Char) : Bool :=
  n.resourcePath && atPathStart && (character == '/' || character == '\\')

/-- Resource paths have one kind of separator. -/
def separator (n : KeyNormalizer) (character : Char) : Char :=
  if n.resourcePath && character == '/' then '\\' else character

/-- What a retained character becomes. -/
def lowered (n : KeyNormalizer) (p : Platform) (character : Char) : Str :=
  if n.caseSensitive || isAscii character then
    [if n.caseSensitive then character else character.toLower]
  else
    p.toLowercase character

/-- The text that `normalize_into` appends for `raw`. -/
def normalizeFrom (n : KeyNormalizer) (p : Platform) (atPathStart : Bool) : (raw : Str) → Str
  | [] => []
  | character :: raw =>
    if n.isLeadingSeparator atPathStart character then
      normalizeFrom n p atPathStart raw
    else if !n.retains character then
      normalizeFrom n p false raw
    else
      n.lowered p (n.separator character) ++ normalizeFrom n p false raw

def normalizeText (n : KeyNormalizer) (p : Platform) (raw : Str) : Str :=
  n.normalizeFrom p true raw

/-- The bytes that `normalize_bytes_into` appends for `raw`. -/
def normalizeBytesFrom (n : KeyNormalizer) (p : Platform) (atPathStart : Bool) : (raw : Str) → Bytes
  | [] => []
  | character :: raw =>
    if n.isLeadingSeparator atPathStart character then
      normalizeBytesFrom n p atPathStart raw
    else if !n.retains character then
      normalizeBytesFrom n p false raw
    else
      let character := n.separator character
      let normalized :=
        if n.caseSensitive || isAscii character then
          [if n.caseSensitive then character else character.toLower]
        else
          p.toLowercase character
      normalized.flatMap String.utf8EncodeChar ++ normalizeBytesFrom n p false raw

def normalizeBytes (n : KeyNormalizer) (p : Platform) (raw : Str) : Bytes :=
  n.normalizeBytesFrom p true raw

/-- A round of the loop of `normalize_into`: whether the path has not begun, and the buffer. -/
def normalizeIntoRound (n : KeyNormalizer) (p : Platform) (state : Bool × Str) (character : Char)
    : Bool × Str :=
  if n.isLeadingSeparator state.1 character then
    state
  else if !n.retains character then
    (false, state.2)
  else
    (false, state.2 ++ n.lowered p (n.separator character))

def normalizeInto (n : KeyNormalizer) (p : Platform) (raw : Str) (out : Str) : Str :=
  (raw.foldl (n.normalizeIntoRound p) (true, out)).2

/-- A round of the loop of `normalize_bytes_into`. -/
def normalizeBytesIntoRound (n : KeyNormalizer) (p : Platform) (state : Bool × Bytes)
    (character : Char)
    : Bool × Bytes :=
  if n.isLeadingSeparator state.1 character then
    state
  else if !n.retains character then
    (false, state.2)
  else
    let character := n.separator character
    if n.caseSensitive || isAscii character then
      let normalized := if n.caseSensitive then character else character.toLower
      (false, state.2 ++ String.utf8EncodeChar normalized)
    else
      (false, (p.toLowercase character).foldl
        (fun out normalized => out ++ String.utf8EncodeChar normalized) state.2)

def normalizeBytesInto (n : KeyNormalizer) (p : Platform) (raw : Str) (out : Bytes) : Bytes :=
  (raw.foldl (n.normalizeBytesIntoRound p) (true, out)).2

/-- `length` with the UTF-8 length of each of the characters added. -/
def addLengths (length : Nat) : (characters : List Char) → Except Error Nat
  | [] => .ok length
  | character :: characters => do
    let length ← okOr (checkedAdd length character.utf8Size)
      (.invalidFormat "normalized key length overflow")
    addLengths length characters

def normalizedLenFrom (n : KeyNormalizer) (p : Platform) (length : Nat) (atPathStart : Bool)
    : (raw : Str) → Except Error Nat
  | [] => .ok length
  | character :: raw =>
    if n.isLeadingSeparator atPathStart character then
      normalizedLenFrom n p length atPathStart raw
    else if !n.retains character then
      normalizedLenFrom n p length false raw
    else do
      let character := n.separator character
      let length ← addLengths length
        (if n.caseSensitive || isAscii character then [character] else p.toLowercase character)
      normalizedLenFrom n p length false raw

/-- The UTF-8 length of the normalized text. -/
def normalizedLen (n : KeyNormalizer) (p : Platform) (raw : Str) : Except Error Nat :=
  n.normalizedLenFrom p 0 true raw

def normalize (n : KeyNormalizer) (p : Platform) (raw : Str) : Except Error Str := do
  let _ ← n.normalizedLen p raw
  return n.normalizeText p raw

end KeyNormalizer

end Mdict
