import Mdict.Lemmas.Encryption

/-!
This module contains the main result on encrypted keyword sections: encryption is transparent.
-/

namespace Mdict

/--
A version 2 keyword section that a writer has encrypted, wherever it lies in its file, is parsed
exactly as the section itself in a file that is not encrypted, be the outcome a section or an error.
The registration code is the key of the header, encrypted under the digest of the user identity.
-/
theorem encryption_transparent {regCodeHex userId : Str} {passcode : Passcode}
    (hpasscode : Passcode.new regCodeHex userId = .ok passcode)
    : ∃ key : Bytes, key.length = 16
        ∧ decodeHex16 regCodeHex = .ok (salsa208Xor key (ripemd128 (Unicode.utf8 userId)))
        ∧ ∀ (text : V2.KeywordText) (pre rest : Bytes) (header : Header) (encrypted : Nat)
            (keyEncoding : TextEncoding) (options : OpenOptions),
          (EncryptionMode.hasKeywordHeader ⟨encrypted⟩ = true →
            options.passcode = some passcode) →
          V2.parseKeywordSection ⟨pre ++ (text.encrypted ⟨encrypted⟩ key ++ rest)⟩
              { header with encrypted } keyEncoding pre.length options
            = V2.parseKeywordSection ⟨pre ++ (text.plain ++ rest)⟩
              { header with encrypted := 0 } keyEncoding pre.length options := by
  obtain ⟨rfl, hash, hhash, hlen⟩ := Passcode.new_eq_ok hpasscode
  refine ⟨salsa208Xor hash (ripemd128 (Unicode.utf8 userId)), ?_, ?_, ?_⟩
  . rw [length_salsa208Xor, hlen]
  . rw [salsa208Xor_salsa208Xor, hhash]
  . intro text pre rest header encrypted keyEncoding options hoption
    obtain ⟨key, hkey⟩ : ∃ key, V2.deriveKeywordHeaderKey ⟨regCodeHex, userId⟩ = .ok key
        ∧ salsa208Xor hash (ripemd128 (Unicode.utf8 userId)) = key := by
      refine ⟨_, ?_, rfl⟩
      rw [V2.deriveKeywordHeaderKey, hhash]
      rfl
    rw [hkey.2, ← text.encrypted_zero key]
    obtain ⟨htotal, hfront, hindex⟩ := V2.slices_encrypted text pre rest ⟨encrypted⟩ key
    obtain ⟨htotal', hfront', hindex'⟩ := V2.slices_encrypted text pre rest ⟨0⟩ key
    have htail (mode : EncryptionMode)
        : ((text.writtenHeader mode key ++ text.checksum).drop 40).take 4 = text.checksum := by
      rw [List.drop_left' (text.length_writtenHeader mode key)]
      exact List.take_of_length_le (Nat.le_of_eq text.checksum_len)
    apply V2.parseKeywordSection_congr text (htotal.trans htotal'.symm)
    . intro raw raw' hraw hraw'
      rw [hraw.trans hfront, hraw'.trans hfront', htail, htail]
      refine ⟨rfl, ?_, ?_⟩
      . exact text.plainKeywordHeader_written key hoption hkey.1
      . have hzero : EncryptionMode.hasKeywordHeader ⟨0⟩ = false := rfl
        refine text.plainKeywordHeader_written key (fun h => ?_) hkey.1
        exact absurd (hzero.symm.trans h) Bool.false_ne_true
    . intro len hlong hle index index' hread hread'
      rw [hread.trans (hindex len hle), hread'.trans (hindex' len hle)]
      exact (text.plainKeywordIndex_writtenIndex hlong).trans
        (text.plainKeywordIndex_writtenIndex hlong).symm

/-- A header that declares an index block of eight bytes, and that block. -/
def V2.KeywordText.sample : V2.KeywordText where
  header := List.replicate 31 0 ++ [8] ++ List.replicate 8 0
  checksum := List.replicate 4 0
  index := List.replicate 8 0
  header_len := rfl
  checksum_len := rfl
  index_len := Nat.le_refl 8
  declared := by decide

theorem encryption_transparent_sample
    : ∃ passcode key,
        Passcode.new "00112233445566778899aabbccddEEFF".toList "user".toList = .ok passcode
        ∧ ∀ (header : Header) (options : OpenOptions), options.passcode = some passcode →
          V2.parseKeywordSection ⟨[] ++ (V2.KeywordText.sample.encrypted ⟨3⟩ key ++ [])⟩
              { header with encrypted := 3 } .utf8 0 options
            = V2.parseKeywordSection ⟨[] ++ (V2.KeywordText.sample.plain ++ [])⟩
              { header with encrypted := 0 } .utf8 0 options := by
  have hpasscode : Passcode.new "00112233445566778899aabbccddEEFF".toList "user".toList
      = .ok ⟨"00112233445566778899aabbccddEEFF".toList, "user".toList⟩ := by
    decide +kernel
  obtain ⟨key, -, -, hparse⟩ := encryption_transparent hpasscode
  refine ⟨_, key, hpasscode, ?_⟩
  intro header options hoption
  exact hparse .sample [] [] header 3 .utf8 options fun _ => hoption

end Mdict
