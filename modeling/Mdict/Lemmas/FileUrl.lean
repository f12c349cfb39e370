import Mdict.Format.Common.FileUrl
import Mdict.Lemmas.Header
import Mdict.Lib.PercentEncoding

/-!
This module contains what the decoding of a `file://` URL does in terms of characters: its index
lies between characters, and it undoes exactly the escapes of percent-encoding.
-/

namespace Mdict.FileUrl

open Effect Unicode Percent

/-! ## Digits -/

theorem hexValue_char (c : Char) (h : c.toNat < 128)
    : hexValue (UInt8.ofNat c.toNat) = (digit? c).map UInt8.ofNat := by
  have hall : ∀ n : Fin 128, hexValue (UInt8.ofNat n)
      = (digit? (Char.ofNat n)).map UInt8.ofNat := by
    decide +kernel
  have hc := hall ⟨c.toNat, h⟩
  rwa [Char.ofNat_toNat] at hc

theorem hexValue_of_le {b : UInt8} (h : 0x80 ≤ b) : hexValue b = none := by
  have hall : ∀ n : Fin 256, 0x80 ≤ UInt8.ofFin n → hexValue (UInt8.ofFin n) = none := by
    decide +kernel
  exact hall b.toFin h

/-- The digit at a byte is the one that its character has. -/
theorem hexValue_restAt {s rest : Str} {i : Nat} (h : RestAt s i rest)
    : (utf8 s)[i]?.bind hexValue = (rest.head?.bind digit?).map UInt8.ofNat := by
  rw [h.getElem?]
  cases rest with
  | nil => rfl
  | cons c rest =>
    rw [utf8_cons, List.head?_cons, Option.bind_some]
    by_cases hc : c.toNat < 128
    . rw [utf8EncodeChar_ascii hc]
      exact hexValue_char c hc
    . have hnone : digit? c = none := by
        rw [← Option.not_isSome_iff_eq_none, Option.isSome_iff_exists]
        rintro ⟨n, hn⟩
        exact hc (digit?_lt hn)
      rw [hnone]
      cases hbytes : String.utf8EncodeChar c with
      | nil => exact absurd hbytes String.utf8EncodeChar_ne_nil
      | cons b bytes =>
        have hb := le_of_mem_utf8EncodeChar (Nat.le_of_not_lt hc) (hbytes ▸ List.mem_cons_self)
        exact hexValue_of_le hb

/-! ## Escapes -/

/-- The error of a malformed escape. -/
def malformedEscape : Error := .invalidData "file URL contains a malformed percent-escape"

/-- Bytes that are not `%` are taken as they are. -/
theorem percentDecodeFrom_plain (before part after decoded : Bytes) (hpart : 0x25 ∉ part)
    : percentDecodeFrom (before ++ (part ++ after)) before.length decoded
        = percentDecodeFrom (before ++ (part ++ after)) (before.length + part.length)
            (decoded ++ part) := by
  induction part generalizing before decoded with
  | nil => rw [List.append_nil, List.length_nil, Nat.add_zero]
  | cons b part ih =>
    rw [List.mem_cons, not_or] at hpart
    have hlt : before.length < (before ++ (b :: part ++ after)).length := by
      rw [List.length_append, List.length_append, List.length_cons]
      omega
    have hget : (before ++ (b :: part ++ after))[before.length] = b := by
      rw [List.getElem_append_right (Nat.le_refl _)]
      simp only [Nat.sub_self, List.cons_append, List.getElem_cons_zero]
    have hih := ih (before ++ [b]) (decoded ++ [b]) hpart.2
    rw [List.length_append, List.append_assoc, List.append_assoc decoded] at hih
    rw [percentDecodeFrom, dif_pos hlt, hget, if_pos (Ne.symm hpart.1), List.length_cons,
      Nat.add_comm part.length, ← Nat.add_assoc]
    exact hih

variable {s rest : Str} {i : Nat}

/-- Over a character that is not `%`. -/
theorem percentDecodeFrom_char {c : Char} (h : RestAt s i (c :: rest)) (hc : c ≠ '%')
    (decoded : Bytes)
    : percentDecodeFrom (utf8 s) i decoded
        = percentDecodeFrom (utf8 s) (i + (utf8 [c]).length)
            (decoded ++ String.utf8EncodeChar c) := by
  obtain ⟨before, rfl, rfl⟩ := h
  have hnot : 0x25 ∉ String.utf8EncodeChar c := by
    have hiff := mem_utf8_iff (a := '%') (s := [c]) (by decide)
    rw [utf8_cons, utf8_nil, List.append_nil, List.mem_singleton] at hiff
    exact fun hmem => hc (hiff.mp hmem).symm
  rw [utf8_append, utf8_cons, utf8_cons, utf8_nil, List.append_nil]
  exact percentDecodeFrom_plain (utf8 before) (String.utf8EncodeChar c) (utf8 rest) decoded hnot

/-- At a `%` with its two digits. -/
theorem percentDecodeFrom_escape {high low : UInt8} (h : RestAt s i ('%' :: rest))
    (hhigh : (utf8 s)[i + 1]?.bind hexValue = some high)
    (hlow : (utf8 s)[i + 2]?.bind hexValue = some low) (decoded : Bytes)
    : percentDecodeFrom (utf8 s) i decoded
        = percentDecodeFrom (utf8 s) (i + 3) (decoded ++ [(high <<< 4) ||| low]) := by
  have hget := (h.getElem?_eq_some (a := '%') (by decide)).mpr ⟨rest, rfl⟩
  obtain ⟨hlt, hget⟩ := List.getElem?_eq_some_iff.mp hget
  have hpercent : ¬UInt8.ofNat '%'.toNat ≠ 0x25 := by decide
  rw [percentDecodeFrom, dif_pos hlt, hget, if_neg hpercent, hhigh, hlow]

/-- At a `%` without them. -/
theorem percentDecodeFrom_malformed (h : RestAt s i ('%' :: rest))
    (hnone : (utf8 s)[i + 1]?.bind hexValue = none ∨ (utf8 s)[i + 2]?.bind hexValue = none)
    (decoded : Bytes)
    : percentDecodeFrom (utf8 s) i decoded = .error malformedEscape := by
  have hget := (h.getElem?_eq_some (a := '%') (by decide)).mpr ⟨rest, rfl⟩
  obtain ⟨hlt, hget⟩ := List.getElem?_eq_some_iff.mp hget
  have hpercent : ¬UInt8.ofNat '%'.toNat ≠ 0x25 := by decide
  rw [percentDecodeFrom, dif_pos hlt, hget, if_neg hpercent]
  rcases hnone with hnone | hnone
  . rw [hnone]
    rfl
  . rw [hnone]
    cases (utf8 s)[i + 1]?.bind hexValue with
    | none => rfl
    | some high => rfl

/-- From a boundary on the loop undoes the escapes, or it stops where one is malformed. -/
theorem percentDecodeFrom_spec (h : RestAt s i rest) (decoded : Bytes)
    : (∃ bytes, StandsFor rest bytes
        ∧ percentDecodeFrom (utf8 s) i decoded = .ok (decoded ++ bytes))
      ∨ (Malformed rest ∧ percentDecodeFrom (utf8 s) i decoded = .error malformedEscape) := by
  induction hlen : rest.length using Nat.strongRecOn generalizing rest i decoded with
  | _ n ih =>
    cases rest with
    | nil =>
      refine .inl ⟨[], .nil, ?_⟩
      have hend := h.eq_length_iff.mpr rfl
      rw [percentDecodeFrom, dif_neg (by omega), List.append_nil]
    | cons c rest =>
      rw [List.length_cons] at hlen
      by_cases hc : c = '%'
      . subst hc
        have hsucc := h.succ (by decide)
        have hfirst := hexValue_restAt hsucc
        -- A first digit is one byte, so the second is looked for right behind it.
        cases hhigh : rest.head?.bind digit? with
        | none =>
          rw [hhigh] at hfirst
          refine .inr ⟨⟨[], rest, rfl, ?_⟩, percentDecodeFrom_malformed h (.inl hfirst) decoded⟩
          rintro a b tail rfl
          exact .inl hhigh
        | some high =>
          rw [hhigh] at hfirst
          rw [Option.bind_eq_some_iff] at hhigh
          obtain ⟨a, ha, hhigh⟩ := hhigh
          obtain ⟨tail, rfl⟩ := List.head?_eq_some_iff.mp ha
          have hsucc := hsucc.succ (digit?_lt hhigh)
          have hsecond := hexValue_restAt hsucc
          cases hlow : tail.head?.bind digit? with
          | none =>
            rw [hlow] at hsecond
            refine .inr ⟨⟨[], a :: tail, rfl, ?_⟩,
              percentDecodeFrom_malformed h (.inr hsecond) decoded⟩
            rintro a' b tail' heq
            cases heq
            exact .inr hlow
          | some low =>
            rw [hlow] at hsecond
            rw [Option.bind_eq_some_iff] at hlow
            obtain ⟨b, hb, hlow⟩ := hlow
            obtain ⟨tail', rfl⟩ := List.head?_eq_some_iff.mp hb
            have hnext := hsucc.succ (digit?_lt hlow)
            have hbyte := shiftLeft_or_ofNat (digit?_lt_sixteen hhigh)
              (digit?_lt_sixteen hlow)
            rw [percentDecodeFrom_escape h hfirst hsecond, hbyte]
            rw [List.length_cons, List.length_cons] at hlen
            rcases ih tail'.length (by omega) hnext
                (decoded ++ [UInt8.ofNat (16 * high + low)]) rfl with ⟨bytes, hstands, hrun⟩ | hbad
            . refine .inl ⟨_, hstands.escape hhigh hlow, ?_⟩
              rw [hrun, List.append_assoc]
              rfl
            . exact .inr ⟨hbad.1.cons.cons.cons, hbad.2⟩
      . rw [percentDecodeFrom_char h hc]
        have hnext := @RestAt.append _ _ _ [c] h
        rcases ih rest.length (by omega) hnext
            (decoded ++ String.utf8EncodeChar c) rfl with ⟨bytes, hstands, hrun⟩ | hbad
        . refine .inl ⟨_, hstands.plain hc, ?_⟩
          rw [hrun, List.append_assoc]
        . exact .inr ⟨hbad.1.cons, hbad.2⟩

/-! ## Paths -/

theorem percentDecode_of_standsFor {text : Str} {bytes : Bytes} (h : StandsFor text bytes)
    : percentDecode (utf8 text) = do
        failIf (utf8Decode? bytes = none) (.invalidData "file URL does not decode to valid UTF-8")
        return bytes := by
  rcases percentDecodeFrom_spec (RestAt.zero text) [] with ⟨bytes', hstands, hrun⟩ | ⟨hbad, -⟩
  . rw [percentDecode, hrun, List.nil_append, h.unique hstands]
    rfl
  . exact absurd hbad h.not_malformed

theorem percentDecode_of_malformed {text : Str} (h : Malformed text)
    : percentDecode (utf8 text) = .error malformedEscape := by
  rcases percentDecodeFrom_spec (RestAt.zero text) [] with ⟨bytes, hstands, -⟩ | ⟨-, hrun⟩
  . exact absurd h hstands.not_malformed
  . rw [percentDecode, hrun]
    rfl

/-- The path begins like `/C:`. -/
def IsDrivePath (path : Str) : Prop :=
  ∃ letter rest, path = '/' :: letter :: ':' :: rest ∧ letter.isAlpha

theorem isAsciiAlphabetic_char (c : Char) (h : c.toNat < 128)
    : isAsciiAlphabetic (UInt8.ofNat c.toNat) = c.isAlpha := by
  have hall : ∀ n : Fin 128, isAsciiAlphabetic (UInt8.ofNat n) = (Char.ofNat n).isAlpha := by
    decide +kernel
  have hc := hall ⟨c.toNat, h⟩
  rwa [Char.ofNat_toNat] at hc

theorem isAsciiAlphabetic_of_le {b : UInt8} (h : 0x80 ≤ b) : isAsciiAlphabetic b = false := by
  have hall : ∀ n : Fin 256, 0x80 ≤ UInt8.ofFin n → isAsciiAlphabetic (UInt8.ofFin n) = false := by
    decide +kernel
  exact hall b.toFin h

/-- A path that is not one of a drive stays as it is. -/
theorem windowsDrivePath_utf8 {path : Str} (h : ¬IsDrivePath path)
    : windowsDrivePath (utf8 path) = .ok (utf8 path) := by
  refine if_neg ?_
  rintro ⟨hslash, hletter, hcolon⟩
  have hzero := RestAt.zero path
  obtain ⟨rest, rfl⟩ := (hzero.getElem?_eq_some (a := '/') (by decide)).mp hslash
  have hone := hzero.succ (by decide)
  rw [hone.getElem?] at hletter
  cases rest with
  | nil => contradiction
  | cons c rest =>
    by_cases hc : c.toNat < 128
    . rw [utf8_cons, utf8EncodeChar_ascii hc] at hletter
      have htwo := hone.succ hc
      obtain ⟨rest, rfl⟩ := (htwo.getElem?_eq_some (a := ':') (by decide)).mp hcolon
      have halpha : isAsciiAlphabetic (UInt8.ofNat c.toNat) = true := hletter
      rw [isAsciiAlphabetic_char c hc] at halpha
      exact h ⟨c, rest, rfl, halpha⟩
    . rw [utf8_cons] at hletter
      cases hbytes : String.utf8EncodeChar c with
      | nil => exact absurd hbytes String.utf8EncodeChar_ne_nil
      | cons b bytes =>
        rw [hbytes] at hletter
        have hb := le_of_mem_utf8EncodeChar (Nat.le_of_not_lt hc) (hbytes ▸ List.mem_cons_self)
        have halpha : isAsciiAlphabetic b = true := hletter
        rw [isAsciiAlphabetic_of_le hb] at halpha
        contradiction

/-- The authority of a URL: what comes before the first `/`. -/
def authorityOf (rest : Str) : Str := rest.takeWhile (· != '/')

/-- What comes from the first `/` on. -/
def encodedOf (rest : Str) : Str := rest.dropWhile (· != '/')

theorem encodedOf_cases (rest : Str) : encodedOf rest = [] ∨ ∃ tail, encodedOf rest = '/' :: tail := by
  unfold encodedOf
  induction rest with
  | nil => exact .inl rfl
  | cons c rest ih =>
    by_cases hc : c = '/'
    . subst hc
      exact .inr ⟨rest, rfl⟩
    . have hdrop : List.dropWhile (· != '/') (c :: rest) = List.dropWhile (· != '/') rest :=
        List.dropWhile_cons_of_pos (p := (· != '/')) (bne_iff_ne.mpr hc)
      rwa [hdrop]

theorem splitAuthority_utf8 (rest : Str)
    : splitAuthority (utf8 rest) = .ok (utf8 (authorityOf rest),
        if encodedOf rest = [] then ascii "/" else utf8 (encodedOf rest)) := by
  have hsplit : authorityOf rest ++ encodedOf rest = rest := List.takeWhile_append_dropWhile
  have hnot : '/' ∉ authorityOf rest := by
    intro hmem
    have hall := List.all_takeWhile (l := rest) (p := (· != '/'))
    exact absurd (List.all_eq_true.mp hall '/' hmem) (by decide)
  rcases encodedOf_cases rest with hnil | ⟨tail, htail⟩
  . have hfind := findIdx?_utf8_eq_none (a := '/') (by decide) hnot
    rw [hnil, List.append_nil] at hsplit
    rw [hsplit] at hfind
    rw [hnil, if_pos rfl, hsplit, splitAuthority, show (0x2F : UInt8) = UInt8.ofNat '/'.toNat from rfl,
      hfind]
  . have hfind := @findIdx?_utf8 '/' _ tail (by decide) hnot
    have hleft := strSlice_utf8_left (authorityOf rest) (encodedOf rest)
    have hright := strSlice_utf8_right (authorityOf rest) (encodedOf rest)
    rw [← htail, hsplit] at hfind
    rw [hsplit] at hleft hright
    rw [if_neg (by rw [htail]; exact List.cons_ne_nil _ _), splitAuthority,
      show (0x2F : UInt8) = UInt8.ofNat '/'.toNat from rfl, hfind]
    dsimp only
    rw [hleft, except_ok_bind, hright, except_ok_bind]
    rfl

/-- The authorities that mean this machine. -/
def IsLocal (authority : Str) : Prop :=
  authority = [] ∨ authority.map Char.toLower = "localhost".toList

theorem isLocal_iff (authority : Str)
    : (authority = [] ∨ Str.eqIgnoreAsciiCase authority "localhost".toList = true)
        ↔ IsLocal authority := by
  rw [Str.eqIgnoreAsciiCase, beq_iff_eq, IsLocal]
  rfl

instance (authority : Str) : Decidable (IsLocal authority) :=
  inferInstanceAs (Decidable (_ ∨ _))

/-- How a URL is resolved: its authority is checked and its path decoded. -/
theorem resolve_url (rest : Str)
    : ∃ message, resolve (utf8 ("file://".toList ++ rest)) =
        if IsLocal (authorityOf rest) then
          percentDecode (if encodedOf rest = [] then ascii "/" else utf8 (encodedOf rest))
            >>= windowsDrivePath
        else
          .error (.invalidData message) := by
  have hprefix : scheme.isPrefixOf (utf8 ("file://".toList ++ rest)) = true := by
    rw [scheme, ascii, isPrefixOf_utf8, List.isPrefixOf_iff_prefix]
    exact List.prefix_append _ _
  have hdecode : ¬utf8Decode? (utf8 ("file://".toList ++ rest)) = none := by
    rw [utf8Decode?_utf8]
    exact Option.some_ne_none _
  have hrest : strSlice (utf8 ("file://".toList ++ rest)) scheme.length
      (utf8 ("file://".toList ++ rest)).length = .ok (utf8 rest) :=
    strSlice_utf8_right "file://".toList rest
  unfold resolve
  rw [if_neg hdecode, if_neg (not_not.mpr hprefix), hrest, except_ok_bind, splitAuthority_utf8,
    except_ok_bind]
  dsimp only
  rw [strOfUtf8_utf8, except_ok_bind]
  by_cases hlocal : IsLocal (authorityOf rest)
  . refine ⟨"", ?_⟩
    rw [if_pos hlocal, failIf_of_not (not_not.mpr ((isLocal_iff _).mpr hlocal)), except_ok_bind]
  . rw [failIf_of (mt (isLocal_iff _).mp hlocal), except_error_bind]
    simp only [if_neg hlocal]
    exact ⟨_, rfl⟩

end Mdict.FileUrl
