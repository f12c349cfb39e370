import Mdict.Format.V2.Keyword
import Mdict.Lemmas.Cursor
import Mdict.Lemmas.Layout
import Mdict.Lib.Scan
import Mathlib.Algebra.GroupWithZero.Nat

/-!
This module contains the ciphers of version 2 keyword sections as inverses of themselves and of each
other, and the key that a registration code stands for.
-/

namespace Mdict

open Effect

/-! ## Salsa20/8 -/

theorem zipWith_xor_xor {data stream : Bytes} (h : data.length ≤ stream.length)
    : List.zipWith (· ^^^ ·) (List.zipWith (· ^^^ ·) data stream) stream = data := by
  induction data generalizing stream with
  | nil => rfl
  | cons b data ih =>
    cases stream with
    | nil => contradiction
    | cons k stream =>
      simp only [List.length_cons, Nat.add_le_add_iff_right] at h
      rw [List.zipWith_cons_cons, List.zipWith_cons_cons, ih h, UInt8.xor_assoc, UInt8.xor_self,
        UInt8.xor_zero]

theorem size_quarterRound (state : Array UInt32) (a b c d : Nat)
    : (quarterRound state a b c d).size = state.size := by
  simp only [quarterRound, Array.set!_eq_setIfInBounds, Array.size_setIfInBounds]

theorem size_doubleRound (state : Array UInt32) : (doubleRound state).size = state.size := by
  simp only [doubleRound, rowRound, columnRound, size_quarterRound]

theorem length_bytesOfWords (words : List UInt32)
    : (bytesOfWords words).length = 4 * words.length := by
  induction words with
  | nil => rfl
  | cons word words ih =>
    rw [bytesOfWords, List.flatMap_cons, List.length_append, Bytes.length_ofLE, ← bytesOfWords, ih,
      List.length_cons]
    omega

theorem length_salsa208Block (key : Bytes) (counter : Nat)
    : (salsa208Block key counter).length = 64 := by
  unfold salsa208Block
  dsimp only
  rw [length_bytesOfWords, List.length_zipWith, Array.length_toList, Array.length_toList,
    size_doubleRound, size_doubleRound, size_doubleRound, size_doubleRound, Nat.min_self]
  rfl

theorem length_salsa208XorFrom (key : Bytes) (counter : Nat) (data : Bytes)
    : (salsa208XorFrom key counter data).length = data.length := by
  induction counter, data using salsa208XorFrom.induct with
  | case1 counter data hnil => rw [salsa208XorFrom, if_pos hnil, hnil, List.length_nil]
  | case2 counter data hne ih =>
    rw [salsa208XorFrom, if_neg hne, List.length_append, List.length_zipWith, ih,
      length_salsa208Block, List.length_take, List.length_drop]
    omega

/-- Decryption is encryption. -/
theorem salsa208XorFrom_salsa208XorFrom (key : Bytes) (counter : Nat) (data : Bytes)
    : salsa208XorFrom key counter (salsa208XorFrom key counter data) = data := by
  induction counter, data using salsa208XorFrom.induct with
  | case1 counter data hnil =>
    rw [salsa208XorFrom, if_pos (by rw [length_salsa208XorFrom, hnil])]
    exact (List.length_eq_zero_iff.mp hnil).symm
  | case2 counter data hne ih =>
    have hblock : (data.take 64).length ≤ (salsa208Block key counter).length := by
      rw [length_salsa208Block, List.length_take]
      exact Nat.min_le_left _ _
    obtain ⟨first, hfirst⟩ : ∃ first : Bytes,
        List.zipWith (· ^^^ ·) (data.take 64) (salsa208Block key counter) = first := ⟨_, rfl⟩
    obtain ⟨later, hlater⟩ : ∃ later, salsa208XorFrom key (counter + 1) (data.drop 64) = later :=
      ⟨_, rfl⟩
    have hencrypted : salsa208XorFrom key counter data = first ++ later := by
      rw [salsa208XorFrom, if_neg hne, hfirst, hlater]
    have hfirstLen : first.length = min 64 data.length := by
      rw [← hfirst, List.length_zipWith, length_salsa208Block, List.length_take]
      omega
    have hlaterLen : later.length = data.length - 64 := by
      rw [← hlater, length_salsa208XorFrom, List.length_drop]
    -- A block that is not full is the last one.
    have hcut : (first ++ later).take 64 = first ∧ (first ++ later).drop 64 = later := by
      by_cases hfull : 64 ≤ data.length
      . have hlen : first.length = 64 := by omega
        exact ⟨List.take_left' hlen, List.drop_left' hlen⟩
      . have hnil : later = [] := List.length_eq_zero_iff.mp (by omega)
        rw [hnil, List.append_nil]
        exact ⟨List.take_of_length_le (by omega), List.drop_eq_nil_of_le (by omega)⟩
    rw [hencrypted, salsa208XorFrom, if_neg (by rw [List.length_append]; omega), hcut.1, hcut.2,
      ← hfirst, zipWith_xor_xor hblock, ← hlater, ih, List.take_append_drop]

theorem length_salsa208Xor (data key : Bytes) : (salsa208Xor data key).length = data.length :=
  length_salsa208XorFrom key 0 data

theorem salsa208Xor_salsa208Xor (data key : Bytes) : salsa208Xor (salsa208Xor data key) key = data :=
  salsa208XorFrom_salsa208XorFrom key 0 data

/-! ## The keyword index -/

theorem swap_swap (b : UInt8)
    : (((b <<< 4) ||| (b >>> 4)) <<< 4) ||| (((b <<< 4) ||| (b >>> 4)) >>> 4) = b := by
  have hall : ∀ i : Fin 256, (((UInt8.ofNat i.val <<< 4) ||| (UInt8.ofNat i.val >>> 4)) <<< 4)
      ||| (((UInt8.ofNat i.val <<< 4) ||| (UInt8.ofNat i.val >>> 4)) >>> 4) = UInt8.ofNat i.val := by
    decide +kernel
  have hb := hall ⟨b.toNat, b.toNat_lt⟩
  rw [UInt8.ofNat_toNat] at hb
  exact hb

theorem xor_cancel (x a b c : UInt8) : x ^^^ a ^^^ b ^^^ c ^^^ a ^^^ b ^^^ c = x := by
  have hassoc (y : UInt8) : y ^^^ a ^^^ b ^^^ c = y ^^^ (a ^^^ b ^^^ c) := by
    simp only [UInt8.xor_assoc]
  rw [hassoc, hassoc, UInt8.xor_assoc, UInt8.xor_self, UInt8.xor_zero]

namespace V2

/-- What is encrypted is decrypted byte by byte, as far as one looks. -/
theorem decryptFrom_take_encryptFrom (key : Bytes) (index : Nat) (previous : UInt8) (data : Bytes)
    (len : Nat)
    : decryptFrom key index previous ((encryptFrom key index previous data).take len)
        = data.take len := by
  induction data generalizing index previous len with
  | nil => rw [encryptFrom, List.take_nil, decryptFrom]
  | cons plain data ih =>
    cases len with
    | zero => rw [List.take_zero, List.take_zero, decryptFrom]
    | succ len =>
      rw [encryptFrom, List.take_succ_cons, decryptFrom, ih, swap_swap, List.take_succ_cons,
        xor_cancel]

end V2

/-! ## Registration codes -/

/-- A hexadecimal digit, as `Passcode::new` has it. -/
def isHexDigit (c : Char) : Bool := c.isDigit || ('a' ≤ c && c ≤ 'f') || ('A' ≤ c && c ≤ 'F')

theorem toNat_lt_of_isHexDigit {c : Char} (h : isHexDigit c = true) : c.toNat < 128 := by
  have hle {a : Char} (hca : c ≤ a) : c.toNat ≤ a.toNat := UInt32.le_iff_toNat_le.mp hca
  simp only [isHexDigit, Char.isDigit, Bool.or_eq_true, Bool.and_eq_true, decide_eq_true_eq,
    ge_iff_le] at h
  rcases h with (⟨-, h⟩ | ⟨-, h⟩) | ⟨-, h⟩
  . exact Nat.lt_of_le_of_lt (UInt32.le_iff_toNat_le.mp h) (by decide)
  . exact Nat.lt_of_le_of_lt (hle h) (by decide)
  . exact Nat.lt_of_le_of_lt (hle h) (by decide)

theorem hexNibble_of_isHexDigit {c : Char} (h : isHexDigit c = true)
    : ∃ n, hexNibble (UInt8.ofNat c.toNat) = .ok n := by
  have hall : ∀ i : Fin 128, isHexDigit (Char.ofNat i.val) = true →
      (hexNibble (UInt8.ofNat i.val)).isOk = true := by
    decide +kernel
  have hok := hall ⟨c.toNat, toNat_lt_of_isHexDigit h⟩
  dsimp only at hok
  rw [Char.ofNat_toNat] at hok
  have hok := hok h
  cases hrun : hexNibble (UInt8.ofNat c.toNat) with
  | ok n => exact ⟨n, rfl⟩
  | error e =>
    rw [hrun] at hok
    contradiction

theorem decodeHexPairs_of_hexNibble {bytes : Bytes} (h : ∀ b ∈ bytes, ∃ n, hexNibble b = .ok n)
    : ∃ decoded, decodeHexPairs bytes = .ok decoded ∧ decoded.length = bytes.length / 2 := by
  induction bytes using decodeHexPairs.induct with
  | case1 a b rest ih =>
    obtain ⟨high, hhigh⟩ := h a (by simp)
    obtain ⟨low, hlow⟩ := h b (by simp)
    obtain ⟨decoded, hdecoded, hlen⟩ := ih fun c hc => h c (by simp [hc])
    refine ⟨((high <<< 4) ||| low) :: decoded, ?_, ?_⟩
    . rw [decodeHexPairs, hhigh, except_ok_bind, hlow, except_ok_bind, hdecoded]
      rfl
    . simp only [List.length_cons, hlen]
      omega
  | case2 bytes hshort =>
    have hlen : bytes.length < 2 := by
      cases bytes with
      | nil => decide
      | cons a rest =>
        cases rest with
        | nil => exact Nat.lt_succ_self 1
        | cons b rest => exact absurd rfl (hshort a b rest)
    refine ⟨[], ?_, by rw [List.length_nil]; omega⟩
    unfold decodeHexPairs
    split
    . next a b rest => exact absurd rfl (hshort a b rest)
    . rfl

/-- A passcode that was accepted has a registration code that decodes. -/
theorem Passcode.new_eq_ok {regCodeHex userId : Str} {passcode : Passcode}
    (h : Passcode.new regCodeHex userId = .ok passcode)
    : passcode = ⟨regCodeHex, userId⟩
        ∧ ∃ hash, decodeHex16 regCodeHex = .ok hash ∧ hash.length = 16 := by
  simp only [Passcode.new, except_bind_eq_ok, failIf_eq_ok, except_pure_eq_ok, not_or,
    not_not] at h
  obtain ⟨_, ⟨hlen, hdigits⟩, _, -, rfl⟩ := h
  refine ⟨rfl, ?_⟩
  have hbytes : ∀ b ∈ Unicode.utf8 regCodeHex, ∃ n, hexNibble b = .ok n := by
    intro b hb
    obtain ⟨c, hc, hb⟩ := List.mem_flatMap.mp hb
    have hdigit : isHexDigit c = true := List.all_eq_true.mp hdigits c hc
    rw [Unicode.utf8EncodeChar_ascii (toNat_lt_of_isHexDigit hdigit), List.mem_singleton] at hb
    rw [hb]
    exact hexNibble_of_isHexDigit hdigit
  obtain ⟨hash, hhash, hhashLen⟩ := decodeHexPairs_of_hexNibble hbytes
  rw [hlen] at hhashLen
  refine ⟨hash, ?_, hhashLen⟩
  unfold decodeHex16
  dsimp only
  rw [failIf_of_not (not_not.mpr hlen), except_ok_bind, hhash]

/-! ## Reads of two files -/

/-- A check that both programs make and then a rest that is the same. -/
theorem liftM_bind_congr {α β : Type} {r : Except Error α} {f g : α → Exec β}
    (h : ∀ a, r = .ok a → f a = g a)
    : (MonadLiftT.monadLift r : Exec α) >>= f = (MonadLiftT.monadLift r : Exec α) >>= g := by
  cases r with
  | error e => rfl
  | ok a =>
    rw [Prog.ok_bind, Prog.ok_bind]
    exact h a rfl

theorem bind_congr_of {α β : Type} {x : Exec α} {f g : α → Exec β} (h : ∀ a, f a = g a)
    : x >>= f = x >>= g := by
  rw [funext h]

/-- A read from files of the same length, and then what is done with what was read. -/
theorem readExactAt_bind_congr {β : Type} {source source' : FileSource} {offset len : Nat}
    {context : String} {f g : Bytes → Exec β} (hlen : source.len = source'.len)
    (h : offset + len ≤ source.len →
      f ((source.bytes.drop offset).take len) = g ((source'.bytes.drop offset).take len))
    : source.readExactAt offset len context >>= f = source'.readExactAt offset len context >>= g := by
  have hrange : source.ensureRange offset len context = source'.ensureRange offset len context := by
    rw [FileSource.ensureRange, FileSource.ensureRange, hlen]
  unfold FileSource.readExactAt
  rw [hrange]
  simp only [bind_assoc, pure_bind]
  refine liftM_bind_congr fun u hu => ?_
  rw [h (ensureRange_eq_ok (hrange.trans hu)).1]

namespace V2

/-- A keyword section up to its key blocks, before a writer has encrypted any of it. -/
structure KeywordText where
  header : Bytes
  checksum : Bytes
  index : Bytes
  header_len : header.length = 40
  checksum_len : checksum.length = 4
  index_len : 8 ≤ index.length
  /-- The index block is as long as the header says. -/
  declared : Bytes.toBE ((header.drop 24).take 8) ≤ index.length

namespace KeywordText

def plain (text : KeywordText) : Bytes := text.header ++ text.checksum ++ text.index

/-- The header as written under a key, when the flag says so. -/
def writtenHeader (text : KeywordText) (mode : EncryptionMode) (key : Bytes) : Bytes :=
  if mode.hasKeywordHeader then salsa208Xor text.header key else text.header

/-- The index block as written, when the flag says so: its tag and checksum are never encrypted. -/
def writtenIndex (text : KeywordText) (mode : EncryptionMode) : Bytes :=
  if mode.hasKeywordIndex then
    text.index.take 8
      ++ encryptKeywordIndexBlock (Bytes.toBE ((text.index.drop 4).take 4)) (text.index.drop 8)
  else
    text.index

/-- The section as written; the checksum is that of the header before encryption. -/
def encrypted (text : KeywordText) (mode : EncryptionMode) (key : Bytes) : Bytes :=
  text.writtenHeader mode key ++ text.checksum ++ text.writtenIndex mode

variable (text : KeywordText) (mode : EncryptionMode) (key : Bytes)

theorem length_writtenHeader : (text.writtenHeader mode key).length = 40 := by
  unfold writtenHeader
  split
  . rw [length_salsa208Xor, text.header_len]
  . exact text.header_len

theorem length_encryptFrom (key : Bytes) (index : Nat) (previous : UInt8) (data : Bytes)
    : (encryptFrom key index previous data).length = data.length := by
  induction data generalizing index previous with
  | nil => rfl
  | cons plain data ih =>
    rw [encryptFrom, List.length_cons, ih, List.length_cons]

theorem length_writtenIndex : (text.writtenIndex mode).length = text.index.length := by
  have hlen := text.index_len
  unfold writtenIndex encryptKeywordIndexBlock
  split
  . rw [List.length_append, length_encryptFrom, List.length_take, List.length_drop]
    omega
  . rfl

/-- What is read back of the written index, however much of it. -/
theorem plainKeywordIndex_writtenIndex {header : Header} {len : Nat} (hlen : 8 ≤ len)
    : plainKeywordIndex header ((text.writtenIndex header.encryptionMode).take len)
        = .ok (text.index.take len) := by
  have hindex := text.index_len
  unfold plainKeywordIndex writtenIndex
  cases header.encryptionMode.hasKeywordIndex with
  | false => rfl
  | true =>
    have htake8 : (text.index.take 8).length = 8 := by
      rw [List.length_take]
      omega
    have htake (payload : Bytes) : (text.index.take 8 ++ payload).take len
        = text.index.take 8 ++ payload.take (len - 8) := by
      rw [List.take_append, htake8, List.take_of_length_le (by omega)]
    have hdrop4 : ((text.index.take 8).drop 4).length = 4 := by
      rw [List.length_drop, htake8]
    obtain ⟨payload, hpayload⟩ : ∃ payload, encryptKeywordIndexBlock
        (Bytes.toBE ((text.index.drop 4).take 4)) (text.index.drop 8) = payload := ⟨_, rfl⟩
    have hpayloadLen : payload.length = text.index.length - 8 := by
      rw [← hpayload, encryptKeywordIndexBlock, length_encryptFrom, List.length_drop]
    rw [if_pos rfl, if_pos rfl, hpayload, htake]
    have hchecksum : ((text.index.take 8 ++ payload.take (len - 8)).drop 4).take 4
        = (text.index.drop 4).take 4 := by
      rw [List.drop_append_of_le_length (by omega), List.take_append_of_le_length (by omega),
        List.drop_take, List.take_take]
      rfl
    have hdecrypted : decryptKeywordIndexBlock (Bytes.toBE ((text.index.drop 4).take 4))
        (payload.take (len - 8)) = (text.index.drop 8).take (len - 8) := by
      rw [← hpayload]
      exact decryptFrom_take_encryptFrom _ _ _ _ _
    have hlong : ¬(text.index.take 8 ++ payload.take (len - 8)).length < 8 := by
      rw [List.length_append, htake8]
      omega
    rw [failIf_of_not hlong, except_ok_bind]
    dsimp only
    have hwhole := htake (text.index.drop 8)
    rw [List.take_append_drop] at hwhole
    rw [hchecksum, List.take_left' htake8, List.drop_left' htake8, hdecrypted, hwhole]
    rfl

/-- What is read back of the written header. -/
theorem plainKeywordHeader_written {header : Header} {options : OpenOptions} {passcode : Passcode}
    (hpasscode : header.encryptionMode.hasKeywordHeader = true → options.passcode = some passcode)
    (hkey : deriveKeywordHeaderKey passcode = .ok key)
    : plainKeywordHeader header options
        (text.writtenHeader header.encryptionMode key ++ text.checksum) = .ok text.header := by
  have htake : (text.writtenHeader header.encryptionMode key ++ text.checksum).take 40
      = text.writtenHeader header.encryptionMode key :=
    List.take_left' (text.length_writtenHeader header.encryptionMode key)
  unfold plainKeywordHeader
  rw [htake]
  unfold writtenHeader
  cases hmode : header.encryptionMode.hasKeywordHeader with
  | false => rfl
  | true =>
    rw [if_pos rfl, if_pos rfl, hpasscode hmode, okOr_some, except_ok_bind,
      decryptKeywordHeaderBlock, hkey, except_ok_bind, salsa208Xor_salsa208Xor]
    rfl

end KeywordText

theorem readU64Be_eq_ok {cursor : Cursor} {context : String} {read : Nat × Cursor}
    (h : cursor.readU64Be context = .ok read)
    : read.1 = Bytes.toBE ((cursor.bytes.drop cursor.offset).take 8)
        ∧ read.2 = { cursor with offset := cursor.offset + 8 } := by
  simp only [Cursor.readU64Be, Cursor.readBytes, except_bind_eq_ok, okOr_eq_ok,
    checkedAdd_eq_some, Bytes.get?_eq_some_iff, except_pure_eq_ok] at h
  obtain ⟨_, ⟨stop, ⟨rfl, -⟩, part, ⟨-, -, rfl⟩, rfl⟩, rfl⟩ := h
  rw [Nat.add_sub_cancel_left]
  exact ⟨rfl, rfl⟩

variable (text : KeywordText)

/-- Sections that are read alike, header and index block, are parsed alike. -/
theorem parseKeywordSection_congr {source source' : FileSource} {header header' : Header}
    {keyEncoding : TextEncoding} {offset : Nat} {options : OpenOptions}
    (hlen : source.len = source'.len)
    (hheader : ∀ raw raw', raw = (source.bytes.drop offset).take 44 →
      raw' = (source'.bytes.drop offset).take 44 →
      (raw.drop 40).take 4 = (raw'.drop 40).take 4
        ∧ plainKeywordHeader header options raw = .ok text.header
        ∧ plainKeywordHeader header' options raw' = .ok text.header)
    (hindex : ∀ len, 8 ≤ len → len ≤ text.index.length → ∀ index index',
      index = (source.bytes.drop (offset + 44)).take len →
      index' = (source'.bytes.drop (offset + 44)).take len →
      plainKeywordIndex header index = plainKeywordIndex header' index')
    : parseKeywordSection source header keyEncoding offset options
        = parseKeywordSection source' header' keyEncoding offset options := by
  have hrange : source.ensureRange = source'.ensureRange := by
    funext offset len context
    rw [FileSource.ensureRange, FileSource.ensureRange, hlen]
  unfold parseKeywordSection
  refine bind_congr_of fun _ => readExactAt_bind_congr hlen fun _ => ?_
  obtain ⟨hchecksum, hplain, hplain'⟩ := hheader _ _ rfl rfl
  dsimp only
  rw [hchecksum, hplain, hplain', Prog.ok_bind, Prog.ok_bind, hrange]
  refine liftM_bind_congr fun layout _ => liftM_bind_congr fun numBlocks h₁ => ?_
  refine liftM_bind_congr fun numEntries h₂ => liftM_bind_congr fun decompLen h₃ => ?_
  refine liftM_bind_congr fun compLen h₄ => ?_
  -- The fourth number of the header is the length of the index block.
  have hcompLen := (readU64Be_eq_ok h₄).1
  rw [(readU64Be_eq_ok h₃).2, (readU64Be_eq_ok h₂).2, (readU64Be_eq_ok h₁).2] at hcompLen
  have hdeclared : compLen.1 ≤ text.index.length := hcompLen.trans_le text.declared
  refine liftM_bind_congr fun _ _ => liftM_bind_congr fun _ _ => liftM_bind_congr fun _ _ => ?_
  refine liftM_bind_congr fun _ hlong => liftM_bind_congr fun _ _ => ?_
  rw [failIf_eq_ok, Nat.not_lt] at hlong
  refine liftM_bind_congr fun keyIndexOffset hoffset => liftM_bind_congr fun _ _ => ?_
  rw [okOr_eq_ok, checkedAdd_eq_some] at hoffset
  obtain ⟨rfl, -⟩ := hoffset
  refine liftM_bind_congr fun _ _ => liftM_bind_congr fun _ _ => liftM_bind_congr fun _ _ => ?_
  refine liftM_bind_congr fun usize husize => bind_congr_of fun _ => ?_
  obtain ⟨rfl, -⟩ := checkedUsize_eq_ok.mp husize
  refine readExactAt_bind_congr hlen fun _ => ?_
  rw [hindex _ hlong hdeclared _ _ rfl rfl]

variable (pre rest : Bytes)

/-- Where the parts of a written section are, between what precedes and what follows it. -/
theorem slices_encrypted (mode : EncryptionMode) (key : Bytes)
    : let bytes := pre ++ (text.encrypted mode key ++ rest)
      bytes.length = pre.length + (44 + text.index.length) + rest.length
        ∧ (bytes.drop pre.length).take 44 = text.writtenHeader mode key ++ text.checksum
        ∧ ∀ len, len ≤ text.index.length →
          (bytes.drop (pre.length + 44)).take len = (text.writtenIndex mode).take len := by
  have hfront : (text.writtenHeader mode key ++ text.checksum).length = 44 := by
    rw [List.length_append, text.length_writtenHeader, text.checksum_len]
  have hindex := text.length_writtenIndex mode
  dsimp only
  rw [KeywordText.encrypted, List.drop_left, ← List.drop_drop, List.drop_left, List.append_assoc]
  refine ⟨?_, List.take_left' hfront, ?_⟩
  . simp only [List.length_append] at hfront ⊢
    omega
  . intro len hlen
    rw [List.drop_left' hfront, List.take_append_of_le_length (by omega)]

theorem KeywordText.encrypted_zero (key : Bytes) : text.encrypted ⟨0⟩ key = text.plain := rfl

end V2

end Mdict
