import Mdict.Format.Common.Crypto

/-!
This module contains the encryption framing of version 2 keyword sections.
-/

namespace Mdict.V2

/-- Decrypt from the byte at `index` on; `previous` is the cipher byte before it. -/
def decryptFrom (key : Bytes) (index : Nat) (previous : UInt8) : Bytes → Bytes
  | [] => []
  | cipher :: rest =>
    let swapped := (cipher <<< 4) ||| (cipher >>> 4)
    (swapped ^^^ UInt8.ofNat index ^^^ (key[index % key.length]?.getD 0) ^^^ previous)
      :: decryptFrom key (index + 1) cipher rest

def decryptKeywordIndexBlock (checksum : Nat) (data : Bytes) : Bytes :=
  let keyMaterial := Bytes.ofBE 4 checksum ++ [0x95, 0x36, 0x00, 0x00]
  decryptFrom (ripemd128 keyMaterial) 0 0x36 data

/-- Encrypt from the byte at `index` on; `previous` is the cipher byte before it. -/
def encryptFrom (key : Bytes) (index : Nat) (previous : UInt8) : Bytes → Bytes
  | [] => []
  | plain :: rest =>
    let mixed := plain ^^^ UInt8.ofNat index ^^^ (key[index % key.length]?.getD 0) ^^^ previous
    let cipher := (mixed <<< 4) ||| (mixed >>> 4)
    cipher :: encryptFrom key (index + 1) cipher rest

/-- What a writer of dictionaries does; the library has it for its tests. -/
def encryptKeywordIndexBlock (checksum : Nat) (data : Bytes) : Bytes :=
  let keyMaterial := Bytes.ofBE 4 checksum ++ [0x95, 0x36, 0x00, 0x00]
  encryptFrom (ripemd128 keyMaterial) 0 0x36 data

def deriveKeywordHeaderKey (passcode : Passcode) : Except Error Bytes := do
  let encryptedHash ← decodeHex16 passcode.regCodeHex
  let userHash := ripemd128 (Unicode.utf8 passcode.userId)
  return salsa208Xor encryptedHash userHash

def decryptKeywordHeaderBlock (data : Bytes) (passcode : Passcode) : Except Error Bytes := do
  let key ← deriveKeywordHeaderKey passcode
  return salsa208Xor data key

end Mdict.V2
