import Mdict.Lemmas.Grammar
import Mdict.Lemmas.KeyRows
import Mdict.Lemmas.Trace
import Mdict.Mdx

/-!
This module contains that the estimates of decoded lengths are upper bounds: of what one text takes,
and of what all texts of a block take together.
-/

namespace Mdict

open Effect Unicode

/-- `String::len` -/
def textBytes (s : Str) : Nat := (utf8 s).length

/-- What the keys of rows take together. -/
def keyBytes (rows : List DecodedKeyRow) : Nat := (rows.map fun row => textBytes row.key).sum

/-- What the summaries of key blocks take together. -/
def summaryBytes (blocks : List KeyBlockDescriptor) : Nat :=
  (blocks.map fun block => textBytes block.firstKey + textBytes block.lastKey).sum

/-! ## Lengths -/

theorem utf8Size_le_three {c : Char} (h : c.toNat < 0x10000)
    : c.utf8Size ≤ 3 := by
  unfold Char.utf8Size
  dsimp only
  split
  . decide
  . split
    . decide
    . split
      . exact Nat.le_refl _
      . next hgt =>
        refine absurd ?_ hgt
        rw [UInt32.le_iff_toNat_le]
        exact Nat.le_of_lt_succ h

/-- Three bytes for a code unit: the characters that take four are written in two units. -/
theorem length_utf8EncodeChar_le (c : Char)
    : (String.utf8EncodeChar c).length ≤ 3 * (utf16Units c).length := by
  rw [String.length_utf8EncodeChar]
  unfold utf16Units
  split
  . next h => exact utf8Size_le_three h
  . have hfour := c.utf8Size_le_four
    simp only [List.length_cons, List.length_nil]
    omega

theorem length_utf16le (s : Str) : (utf16le s).length = 2 * (s.flatMap utf16Units).length := by
  unfold utf16le
  generalize s.flatMap utf16Units = units
  induction units with
  | nil => rfl
  | cons u units ih =>
    rw [List.flatMap_cons, List.length_append, Bytes.length_ofLE, ih, List.length_cons]
    omega

namespace UnicodeEncoding

/-- So many bytes may decode to so many. -/
def Fits : (encoding : UnicodeEncoding) → (encodedLen decodedLen : Nat) → Prop
  | utf8, encodedLen, decodedLen => decodedLen ≤ encodedLen
  | utf16Le, encodedLen, decodedLen => 2 * decodedLen ≤ 3 * encodedLen

variable {encoding : UnicodeEncoding} {p : Platform} {encodedLen encodedLen' decodedLen : Nat}
variable {decodedLen' : Nat}

theorem fits_zero : encoding.Fits encodedLen 0 := by
  cases encoding with
  | utf8 => exact Nat.zero_le _
  | utf16Le => exact Nat.zero_le _

theorem Fits.add (h : encoding.Fits encodedLen decodedLen)
    (h' : encoding.Fits encodedLen' decodedLen')
    : encoding.Fits (encodedLen + encodedLen') (decodedLen + decodedLen') := by
  cases encoding with
  | utf8 => exact Nat.add_le_add h h'
  | utf16Le =>
    simp only [Fits] at *
    omega

theorem Fits.mono (h : encoding.Fits encodedLen decodedLen) (hle : encodedLen ≤ encodedLen')
    : encoding.Fits encodedLen' decodedLen := by
  cases encoding with
  | utf8 => exact Nat.le_trans h hle
  | utf16Le =>
    simp only [Fits] at *
    omega

/-- The length of a text is as estimated. -/
theorem fits_encode (s : Str) : encoding.Fits (encoding.encode s).length (textBytes s) := by
  cases encoding with
  | utf8 => exact Nat.le_refl _
  | utf16Le =>
    have hunits : textBytes s ≤ 3 * (s.flatMap utf16Units).length := by
      induction s with
      | nil => exact Nat.le_refl _
      | cons c s ih =>
        have hc := length_utf8EncodeChar_le c
        rw [textBytes] at *
        rw [utf8_cons, List.flatMap_cons, List.length_append, List.length_append]
        omega
    have hlen := length_utf16le s
    change 2 * textBytes s ≤ 3 * (utf16le s).length
    omega

/-- So is the length of many texts, each of them a part of what is written for an element. -/
theorem fits_flatMap {α : Type} {xs : List α} {f : α → Bytes} {g : α → Nat}
    (h : ∀ a ∈ xs, encoding.Fits (f a).length (g a))
    : encoding.Fits (xs.flatMap f).length (xs.map g).sum := by
  induction xs with
  | nil => exact fits_zero
  | cons a xs ih =>
    rw [List.flatMap_cons, List.length_append, List.map_cons, List.sum_cons]
    exact (h a List.mem_cons_self).add (ih fun a ha => h a (List.mem_cons_of_mem _ ha))

theorem Fits.le_maxDecodedLen (h : encoding.Fits encodedLen decodedLen) {max : Nat}
    (hmax : encoding.text.maxDecodedLen p encodedLen = .ok max)
    : decodedLen ≤ max := by
  cases encoding with
  | utf8 =>
    cases hmax
    exact h
  | utf16Le =>
    simp only [text, TextEncoding.maxDecodedLen, okOr_eq_ok, Option.bind_eq_some_iff,
      checkedAdd_eq_some, checkedMul_eq_some] at hmax
    obtain ⟨_, ⟨rfl, -⟩, rfl, -⟩ := hmax
    simp only [Fits] at h
    omega

/-- Every length that a buffer can have, half the address space at most, is estimated. -/
theorem maxDecodedLen_of_lt {len : Nat} (h : 2 * len < u64Bound)
    : ∃ max, encoding.text.maxDecodedLen p len = .ok max := by
  cases encoding with
  | utf8 => exact ⟨len, rfl⟩
  | utf16Le =>
    unfold u64Bound at h
    have hround : checkedAdd len 1 = some (len + 1) :=
      checkedAdd_eq_some.mpr ⟨rfl, by unfold u64Bound; omega⟩
    have hunits : checkedMul ((len + 1) / 2) 3 = some ((len + 1) / 2 * 3) :=
      checkedMul_eq_some.mpr ⟨rfl, by unfold u64Bound; omega⟩
    refine ⟨(len + 1) / 2 * 3, ?_⟩
    simp only [text, TextEncoding.maxDecodedLen, hround, hunits, Option.bind_some, okOr_some]

end UnicodeEncoding

/-! ## Blocks -/

variable {encoding : UnicodeEncoding} {p : Platform}

/-- What is written for a key is a part of what is written for its row. -/
theorem fits_encodeKeyRow (width : Nat) (row : DecodedKeyRow)
    : encoding.Fits (encodeKeyRow width encoding row).length (textBytes row.key) := by
  refine (UnicodeEncoding.fits_encode row.key).mono ?_
  rw [encodeKeyRow, List.length_append, List.length_append]
  omega

theorem keyBytes_le {wire : WireOperations} {bytes : Bytes} {context : KeyRowContext}
    {rows : List DecodedKeyRow} {max : Nat} (hencoding : context.encoding = encoding.text)
    (h : wire.decodeKeyRows p bytes context = .ok rows)
    (hmax : encoding.text.maxDecodedLen p bytes.length = .ok max)
    : keyBytes rows ≤ max := by
  obtain ⟨width, hbytes⟩ : ∃ width, rows.flatMap (encodeKeyRow width encoding) = bytes := by
    cases wire with
    | v1 => exact ⟨4, (V1.decodeKeyRows_canonical hencoding).encode_eq _ _ h⟩
    | v2 => exact ⟨8, (V2.decodeKeyRows_canonical hencoding).encode_eq _ _ h⟩
  have hfits : encoding.Fits bytes.length (keyBytes rows) := by
    rw [← hbytes]
    exact UnicodeEncoding.fits_flatMap fun row _ => fits_encodeKeyRow width row
  exact hfits.le_maxDecodedLen hmax

theorem V1.fits_encodeKeyIndexRow (row : KeyIndexRow)
    : encoding.Fits (V1.encodeKeyIndexRow encoding row).length
        (textBytes row.firstKey + textBytes row.lastKey) := by
  have hfirst : encoding.Fits _ _ := UnicodeEncoding.fits_encode row.firstKey
  have hboth := hfirst.add (UnicodeEncoding.fits_encode row.lastKey)
  refine hboth.mono ?_
  simp only [V1.encodeKeyIndexRow, V1.encodeSummary, List.length_append]
  omega

theorem V2.fits_encodeKeyIndexRow (layout : V2.KeywordIndexLayout) (row : KeyIndexRow)
    : encoding.Fits (V2.encodeKeyIndexRow encoding layout row).length
        (textBytes row.firstKey + textBytes row.lastKey) := by
  have hfirst : encoding.Fits _ _ := UnicodeEncoding.fits_encode row.firstKey
  have hboth := hfirst.add (UnicodeEncoding.fits_encode row.lastKey)
  refine hboth.mono ?_
  simp only [V2.encodeKeyIndexRow, V2.encodeSummary, List.length_append]
  omega

theorem V1.summaryBytes_le {bytes : Bytes} {numBlocks keyBlocksOffset max : Nat} {limits : Limits}
    {blocks : List KeyBlockDescriptor}
    (h : V1.parseKeywordIndexEntries p bytes numBlocks encoding.text keyBlocksOffset limits
      = .ok blocks)
    (hmax : encoding.text.maxDecodedLen p bytes.length = .ok max)
    : summaryBytes blocks ≤ max := by
  have hbytes := (V1.parseKeywordIndexEntries_canonical _ _ _).encode_eq _ _ h
  have hfits : encoding.Fits bytes.length (summaryBytes blocks) := by
    rw [← hbytes]
    exact UnicodeEncoding.fits_flatMap fun block _ => V1.fits_encodeKeyIndexRow block.row
  exact hfits.le_maxDecodedLen hmax

theorem V2.summaryBytes_le {bytes : Bytes} {numBlocks keyBlocksOffset max : Nat} {limits : Limits}
    {layout : V2.KeywordIndexLayout} {blocks : List KeyBlockDescriptor}
    (h : V2.parseKeywordIndexEntries p bytes numBlocks encoding.text layout keyBlocksOffset limits
      = .ok blocks)
    (hmax : encoding.text.maxDecodedLen p bytes.length = .ok max)
    : summaryBytes blocks ≤ max := by
  have hbytes := (V2.parseKeywordIndexEntries_canonical _ _ _ _).encode_eq _ _ h
  have hfits : encoding.Fits bytes.length (summaryBytes blocks) := by
    rw [← hbytes]
    exact UnicodeEncoding.fits_flatMap fun block _ => V2.fits_encodeKeyIndexRow layout block.row
  exact hfits.le_maxDecodedLen hmax

theorem textBytes_le {p' : Platform} {bytes : Bytes} {context : String} {s : Str} {max : Nat}
    (h : encoding.text.decode p' bytes context = .ok s)
    (hmax : encoding.text.maxDecodedLen p bytes.length = .ok max)
    : textBytes s ≤ max := by
  refine UnicodeEncoding.Fits.le_maxDecodedLen ?_ hmax
  rw [← UnicodeEncoding.encode_of_decode h]
  exact UnicodeEncoding.fits_encode s

theorem textBytes_append (s t : Str) : textBytes (s ++ t) = textBytes s + textBytes t := by
  rw [textBytes, utf8_append, List.length_append]
  rfl

/-- The text of a record, which is without the zeros at its end. -/
theorem textBytes_decodeRecordText_le {p' : Platform} {bytes : Bytes} {s : Str} {max : Nat}
    (h : decodeRecordText p' encoding.text bytes = .ok s)
    (hmax : encoding.text.maxDecodedLen p bytes.length = .ok max)
    : textBytes s ≤ max := by
  simp only [decodeRecordText, except_bind_eq_ok, except_pure_eq_ok] at h
  obtain ⟨text, htext, rfl⟩ := h
  have hsuffix := List.dropWhile_suffix (· == Char.ofNat 0) (l := text.reverse)
  rw [← List.reverse_prefix, List.reverse_reverse] at hsuffix
  obtain ⟨zeros, hzeros⟩ := hsuffix
  have hle := textBytes_le htext hmax
  rw [← hzeros, textBytes_append] at hle
  omega

end Mdict
