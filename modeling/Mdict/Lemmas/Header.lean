import Mdict.Format.Common.Header
import Mdict.Lib.Scan
import Mdict.Lib.XmlReference

/-!
This module contains what the scanner of the header does in terms of characters: its indices lie
between characters, and it resolves exactly the references of XML, but for signs.
-/

namespace Mdict

open Effect Unicode Xml

/-! ## Slices -/

/-- A slice between two parts of a string. -/
theorem strSlice_utf8 (before middle after : Str)
    : strSlice (utf8 (before ++ (middle ++ after))) (utf8 before).length
        (utf8 (before ++ middle)).length = .ok (utf8 middle) := by
  have hstart := isCharBoundary_utf8_append before (middle ++ after)
  have hstop := isCharBoundary_utf8_append (before ++ middle) after
  rw [← utf8_append] at hstart hstop
  rw [List.append_assoc] at hstop
  have hlen : (utf8 (before ++ middle)).length = (utf8 before).length + (utf8 middle).length := by
    rw [utf8_append, List.length_append]
  have hle : (utf8 (before ++ middle)).length ≤ (utf8 (before ++ (middle ++ after))).length := by
    rw [utf8_append, utf8_append, utf8_append, List.length_append, List.length_append,
      List.length_append]
    omega
  unfold strSlice
  rw [if_pos ⟨by omega, hle, hstart, hstop⟩, hlen, Nat.add_sub_cancel_left,
    utf8_append before (middle ++ after), List.drop_left, utf8_append middle, List.take_left]

/-- A slice from the beginning. -/
theorem strSlice_utf8_left (middle after : Str)
    : strSlice (utf8 (middle ++ after)) 0 (utf8 middle).length = .ok (utf8 middle) :=
  strSlice_utf8 [] middle after

/-- A slice to the end. -/
theorem strSlice_utf8_right (before middle : Str)
    : strSlice (utf8 (before ++ middle)) (utf8 before).length (utf8 (before ++ middle)).length
        = .ok (utf8 middle) := by
  have h := strSlice_utf8 before middle []
  rwa [List.append_nil] at h

/-- A slice is also what `get` finds. -/
theorem get?_of_strSlice {bytes part : Bytes} {start stop : Nat}
    (h : strSlice bytes start stop = .ok part)
    : bytes.get? start stop = some part := by
  unfold strSlice at h
  split at h
  . next hrange =>
    cases h
    exact if_pos ⟨hrange.1, hrange.2.1⟩
  . contradiction

theorem strOfUtf8_utf8 (s : Str) : strOfUtf8 (utf8 s) = .ok s := by
  rw [strOfUtf8, utf8Decode?_utf8, okOr_some]

/-! ## Numbers -/

theorem decimalDigit?_char (c : Char) (h : c.toNat < 128)
    : Mdict.decimalDigit? (UInt8.ofNat c.toNat) = Xml.decimalDigit? c := by
  rw [Mdict.decimalDigit?, Xml.decimalDigit?]
  simp only [UInt8.le_iff_toNat_le, UInt8.toNat_ofNat']
  have hmod : c.toNat % 2 ^ 8 = c.toNat := by omega
  rw [hmod]
  rfl

theorem hexDigit?_char (c : Char) (h : c.toNat < 128)
    : Mdict.hexDigit? (UInt8.ofNat c.toNat) = Xml.hexDigit? c := by
  rw [Mdict.hexDigit?, Xml.hexDigit?]
  simp only [UInt8.le_iff_toNat_le, UInt8.toNat_ofNat']
  have hmod : c.toNat % 2 ^ 8 = c.toNat := by omega
  rw [hmod]
  rfl

/-- The digits of bytes and of characters are the same ones. -/
structure SameDigits (byteDigit? : UInt8 → Option Nat) (charDigit? : Char → Option Nat) : Prop where
  ascii : ∀ c : Char, c.toNat < 128 → byteDigit? (UInt8.ofNat c.toNat) = charDigit? c
  byte : ∀ b, 0x80 ≤ b → byteDigit? b = none
  char : ∀ c : Char, 128 ≤ c.toNat → charDigit? c = none

theorem sameDigits_decimal : SameDigits Mdict.decimalDigit? Xml.decimalDigit? where
  ascii := decimalDigit?_char
  byte := by
    intro b hb
    rw [UInt8.le_iff_toNat_le] at hb
    have hb : 128 ≤ b.toNat := hb
    rw [Mdict.decimalDigit?, if_neg]
    simp only [UInt8.le_iff_toNat_le]
    change ¬(48 ≤ b.toNat ∧ b.toNat ≤ 57)
    omega
  char := by
    intro c hc
    rw [Xml.decimalDigit?, if_neg]
    omega

theorem sameDigits_hex : SameDigits Mdict.hexDigit? Xml.hexDigit? where
  ascii := hexDigit?_char
  byte := by
    intro b hb
    rw [UInt8.le_iff_toNat_le] at hb
    have hb : 128 ≤ b.toNat := hb
    have hbytes : ¬(48 ≤ b.toNat ∧ b.toNat ≤ 57) ∧ ¬(97 ≤ b.toNat ∧ b.toNat ≤ 102)
        ∧ ¬(65 ≤ b.toNat ∧ b.toNat ≤ 70) := by omega
    simp only [Mdict.hexDigit?, UInt8.le_iff_toNat_le, UInt8.reduceToNat]
    rw [if_neg hbytes.1, if_neg hbytes.2.1, if_neg hbytes.2.2]
  char := by
    intro c hc
    rw [Xml.hexDigit?, if_neg (by omega), if_neg (by omega), if_neg (by omega)]

section Digits

variable {byteDigit? : UInt8 → Option Nat} {charDigit? : Char → Option Nat}

theorem foldlM_digits (h : SameDigits byteDigit? charDigit?) (radix start : Nat) (digits : Str)
    : (utf8 digits).foldlM (fun n b => (byteDigit? b).map (n * radix + ·)) start
        = digits.foldlM (fun n c => (charDigit? c).map (n * radix + ·)) start := by
  induction digits generalizing start with
  | nil => rfl
  | cons c digits ih =>
    rw [utf8_cons, List.foldlM_cons]
    by_cases hc : c.toNat < 128
    . rw [utf8EncodeChar_ascii hc, List.singleton_append, List.foldlM_cons, h.ascii c hc]
      congr 1
      funext next
      exact ih next
    . have hc := Nat.le_of_not_lt hc
      rw [h.char c hc]
      cases hbytes : String.utf8EncodeChar c with
      | nil => exact absurd hbytes String.utf8EncodeChar_ne_nil
      | cons b bytes =>
        have hb := le_of_mem_utf8EncodeChar hc (hbytes ▸ List.mem_cons_self : b ∈ _)
        rw [List.cons_append, List.foldlM_cons, h.byte b hb]
        rfl

theorem number?_eq_none_of_plus (h : charDigit? '+' = none) (radix : Nat) (digits : Str)
    : number? radix charDigit? ('+' :: digits) = none := by
  rw [number?, if_neg (List.cons_ne_nil _ _), List.foldlM_cons, h]
  rfl

/-- A number as `from_str_radix` reads it: a sign may stand before the digits. -/
theorem fromStrRadix_utf8 (h : SameDigits byteDigit? charDigit?) (hplus : charDigit? '+' = none)
    {radix n : Nat} {s : Str}
    : fromStrRadix radix byteDigit? (utf8 s) = some n
        ↔ n < u32Bound ∧ ∃ sign digits, sign ∈ signs true ∧ s = sign ++ digits
          ∧ number? radix charDigit? digits = some n := by
  have hdigits (digits : Str)
      : (if utf8 digits = [] then none else
          ((utf8 digits).foldlM (fun n b => (byteDigit? b).map (n * radix + ·)) 0).bind toU32?)
        = (number? radix charDigit? digits).bind toU32? := by
    rw [foldlM_digits h, number?]
    have hnil : utf8 digits = [] ↔ digits = [] := utf8_inj (t := [])
    by_cases hempty : digits = []
    . rw [if_pos (hnil.mpr hempty), if_pos hempty]
      rfl
    . rw [if_neg fun heq => hempty (hnil.mp heq), if_neg hempty]
  have hsome (digits : Str)
      : (number? radix charDigit? digits).bind toU32? = some n
        ↔ n < u32Bound ∧ number? radix charDigit? digits = some n := by
    rw [Option.bind_eq_some_iff]
    constructor
    . rintro ⟨m, hm, hm'⟩
      obtain ⟨rfl, hlt⟩ := toU32?_eq_some.mp hm'
      exact ⟨hlt, hm⟩
    . rintro ⟨hlt, hm⟩
      exact ⟨n, hm, toU32?_eq_some.mpr ⟨rfl, hlt⟩⟩
  by_cases hs : ∃ digits, s = '+' :: digits
  . obtain ⟨digits, rfl⟩ := hs
    have hrun : fromStrRadix radix byteDigit? (utf8 ('+' :: digits))
        = (number? radix charDigit? digits).bind toU32? := hdigits digits
    rw [hrun, hsome]
    apply and_congr_right
    intro _
    constructor
    . intro hnumber
      exact ⟨['+'], digits, List.mem_cons_of_mem _ List.mem_cons_self, rfl, hnumber⟩
    . rintro ⟨sign, digits', hsign, heq, hnumber⟩
      rcases List.mem_cons.mp hsign with rfl | hsign
      . rw [List.nil_append] at heq
        rw [← heq, number?_eq_none_of_plus hplus] at hnumber
        contradiction
      . rw [List.mem_singleton.mp hsign] at heq
        injection heq with _ heq
        rw [heq]
        exact hnumber
  . have hhead : (utf8 s).head? ≠ some 0x2B := fun hhead =>
      hs ((head?_utf8_eq_some (a := '+') (by decide)).mp hhead)
    have hrun : fromStrRadix radix byteDigit? (utf8 s)
        = (number? radix charDigit? s).bind toU32? := by
      rw [← hdigits]
      unfold fromStrRadix
      split
      . next rest heq =>
        rw [heq] at hhead
        exact absurd rfl hhead
      . rfl
    rw [hrun, hsome]
    apply and_congr_right
    intro _
    constructor
    . intro hnumber
      exact ⟨[], s, List.mem_cons_self, rfl, hnumber⟩
    . rintro ⟨sign, digits, hsign, rfl, hnumber⟩
      rcases List.mem_cons.mp hsign with rfl | hsign
      . exact hnumber
      . rw [List.mem_singleton.mp hsign] at hs
        exact absurd ⟨digits, rfl⟩ hs

end Digits

/-! ## References -/

/-- The character with the number that `digits` denote. -/
def numbered (radix : Nat) (byteDigit? : UInt8 → Option Nat) (context codepointContext : String)
    (digits : Str)
    : Except Error Char := do
  let codepoint ← okOr (fromStrRadix radix byteDigit? (utf8 digits)) (.invalidFormat context)
  okOr (charOfNat? codepoint) (.invalidFormat codepointContext)

theorem numbered_eq_ok {byteDigit? : UInt8 → Option Nat} {charDigit? : Char → Option Nat}
    (h : SameDigits byteDigit? charDigit?) (hplus : charDigit? '+' = none)
    {radix : Nat} {context codepointContext : String} {s : Str} {c : Char}
    : numbered radix byteDigit? context codepointContext s = .ok c
        ↔ ∃ sign digits n, sign ∈ signs true ∧ s = sign ++ digits
          ∧ number? radix charDigit? digits = some n ∧ charOfNat? n = some c := by
  simp only [numbered, except_bind_eq_ok, okOr_eq_ok, fromStrRadix_utf8 h hplus]
  constructor
  . rintro ⟨n, ⟨-, sign, digits, hsign, hs, hnumber⟩, hchar⟩
    exact ⟨sign, digits, n, hsign, hs, hnumber, hchar⟩
  . rintro ⟨sign, digits, n, hsign, hs, hnumber, hchar⟩
    have hlt : n < u32Bound := by
      have hbound : u32Bound = 2 ^ 32 := rfl
      have := toNat_lt c
      rw [toNat_of_charOfNat? hchar] at this
      omega
    exact ⟨n, ⟨hlt, sign, digits, hsign, hs, hnumber⟩, hchar⟩

theorem numbered_notPanic {radix : Nat} {byteDigit? : UInt8 → Option Nat}
    {context codepointContext : String} {s : Str}
    : FailsWith NotPanic (numbered radix byteDigit? context codepointContext s) :=
  .bind (failsWith_okOr (notPanic_invalidFormat _)) fun _ _ =>
    failsWith_okOr (notPanic_invalidFormat _)

theorem isPrefixOf_utf8 (s t : Str) : (utf8 s).isPrefixOf (utf8 t) = s.isPrefixOf t := by
  rw [Bool.eq_iff_iff, List.isPrefixOf_iff_prefix, List.isPrefixOf_iff_prefix, utf8_isPrefix_iff]

/-- What an entity stands for, in terms of characters. -/
theorem xmlEntity_utf8 (r : Str)
    : xmlEntity (utf8 r) =
        if r = ['a', 'm', 'p'] then .ok '&'
        else if r = ['l', 't'] then .ok '<'
        else if r = ['g', 't'] then .ok '>'
        else if r = ['q', 'u', 'o', 't'] then .ok '"'
        else if r = ['a', 'p', 'o', 's'] then .ok '\''
        else if ['#', 'x'].isPrefixOf r ∨ ['#', 'X'].isPrefixOf r then
          numbered 16 Mdict.hexDigit? "invalid hex xml entity" "invalid hex xml codepoint"
            (r.drop 2)
        else if ['#'].isPrefixOf r then
          numbered 10 Mdict.decimalDigit? "invalid decimal xml entity"
            "invalid decimal xml codepoint" (r.drop 1)
        else
          .error (.invalidFormat "unsupported xml entity") := by
  have hdrop (start : Str) (hstart : start.isPrefixOf r)
      : strSlice (utf8 r) (utf8 start).length (utf8 r).length
          = .ok (utf8 (r.drop start.length)) := by
    obtain ⟨rest, rfl⟩ := List.isPrefixOf_iff_prefix.mp hstart
    rw [List.drop_left]
    exact strSlice_utf8_right start rest
  unfold xmlEntity ascii
  simp only [utf8_inj, isPrefixOf_utf8]
  have hhex (h : ['#', 'x'].isPrefixOf r ∨ ['#', 'X'].isPrefixOf r)
      : strSlice (utf8 r) 2 (utf8 r).length = .ok (utf8 (r.drop 2)) := by
    rcases h with h | h
    . exact hdrop _ h
    . exact hdrop _ h
  refine ite_congr rfl (fun _ => rfl) fun _ => ite_congr rfl (fun _ => rfl) fun _ =>
    ite_congr rfl (fun _ => rfl) fun _ => ite_congr rfl (fun _ => rfl) fun _ =>
      ite_congr rfl (fun _ => rfl) fun _ => ite_congr rfl (fun h => ?_) fun _ =>
        ite_congr rfl (fun h => ?_) fun _ => rfl
  . rw [hhex h]
    rfl
  . rw [show strSlice (utf8 r) 1 (utf8 r).length = _ from hdrop ['#'] h]
    rfl

theorem xmlEntity_notPanic (r : Str) : FailsWith NotPanic (xmlEntity (utf8 r)) := by
  rw [xmlEntity_utf8]
  repeat' split
  all_goals first
    | exact .ok _
    | exact numbered_notPanic
    | exact .error (notPanic_invalidFormat _)

theorem xmlEntity_of_number (s : Str)
    : xmlEntity (utf8 ('#' :: s)) =
        if s.head? = some 'x' ∨ s.head? = some 'X' then
          numbered 16 Mdict.hexDigit? "invalid hex xml entity" "invalid hex xml codepoint"
            (s.drop 1)
        else
          numbered 10 Mdict.decimalDigit? "invalid decimal xml entity"
            "invalid decimal xml codepoint" s := by
  have hname (name : Str) (hne : name.head? ≠ some '#') : '#' :: s ≠ name := by
    rintro rfl
    exact hne rfl
  have hmark (x : Char) : ['#', x].isPrefixOf ('#' :: s) ↔ s.head? = some x := by
    rw [List.isPrefixOf_iff_prefix, List.prefix_cons_inj]
    cases s with
    | nil => simp
    | cons d s =>
      rw [List.cons_prefix_cons, List.head?_cons, Option.some.injEq, eq_comm]
      exact and_iff_left List.nil_prefix
  rw [xmlEntity_utf8, if_neg (hname _ (by decide)), if_neg (hname _ (by decide)),
    if_neg (hname _ (by decide)), if_neg (hname _ (by decide)), if_neg (hname _ (by decide))]
  refine ite_congr (by rw [hmark, hmark]) (fun _ => rfl) fun _ => ?_
  rw [if_pos (by simp)]
  rfl

/-- The entities that stand for a character are the references, with or without a sign. -/
theorem xmlEntity_eq_ok {r : Str} {c : Char} : xmlEntity (utf8 r) = .ok c ↔ Reference true r c := by
  constructor
  . intro h
    by_cases hnumber : ∃ s, r = '#' :: s
    . obtain ⟨s, rfl⟩ := hnumber
      rw [xmlEntity_of_number] at h
      split at h
      . next hx =>
        obtain ⟨sign, digits, n, hsign, hs, hdigits, hchar⟩ :=
          (numbered_eq_ok sameDigits_hex rfl).mp h
        obtain ⟨x, hhead, hx⟩ : ∃ x, s = x :: s.drop 1 ∧ (x = 'x' ∨ x = 'X') := by
          cases s with
          | nil => simp at hx
          | cons x s => exact ⟨x, rfl, by simpa using hx⟩
        rw [hhead, hs]
        exact .hex hx hsign hdigits hchar
      . obtain ⟨sign, digits, n, hsign, rfl, hdigits, hchar⟩ :=
          (numbered_eq_ok sameDigits_decimal rfl).mp h
        exact .decimal hsign hdigits hchar
    . have hmark (start : Str) : ¬('#' :: start).isPrefixOf r := by
        intro hmem
        obtain ⟨rest, rfl⟩ := List.isPrefixOf_iff_prefix.mp hmem
        exact hnumber ⟨start ++ rest, rfl⟩
      rw [xmlEntity_utf8] at h
      split at h
      . next hr =>
        cases h
        exact hr ▸ .amp
      split at h
      . next hr =>
        cases h
        exact hr ▸ .lt
      split at h
      . next hr =>
        cases h
        exact hr ▸ .gt
      split at h
      . next hr =>
        cases h
        exact hr ▸ .quot
      split at h
      . next hr =>
        cases h
        exact hr ▸ .apos
      rw [if_neg (by rintro (h | h) <;> exact hmark _ h), if_neg (hmark _)] at h
      contradiction
  . intro h
    cases h with
    | amp => rfl
    | lt => rfl
    | gt => rfl
    | quot => rfl
    | apos => rfl
    | @decimal sign digits n c hsign hnumber hchar =>
      rw [xmlEntity_of_number, if_neg]
      . exact (numbered_eq_ok sameDigits_decimal rfl).mpr
          ⟨sign, digits, n, hsign, rfl, hnumber, hchar⟩
      . have hhead (x : Char) (hx : (sign ++ digits).head? = some x)
            : x = '+' ∨ (Xml.decimalDigit? x).isSome := by
          rcases List.mem_cons.mp hsign with rfl | hsign
          . exact .inr (isSome_of_mem_number? hnumber (List.mem_of_head? hx))
          . rw [List.mem_singleton.mp hsign] at hx
            injection hx with hx
            exact .inl hx.symm
        rintro (hx | hx)
        . exact absurd (hhead _ hx) (by decide)
        . exact absurd (hhead _ hx) (by decide)
    | @hex x sign digits n c hx hsign hnumber hchar =>
      rw [xmlEntity_of_number, if_pos (by rcases hx with rfl | rfl <;> simp)]
      exact (numbered_eq_ok sameDigits_hex rfl).mpr ⟨sign, digits, n, hsign, rfl, hnumber, hchar⟩

/-! ## Values -/

theorem unescapeXmlFrom_plain {s : Str} (h : '&' ∉ s) (fuel : Nat)
    : unescapeXmlFrom fuel (utf8 s) = .ok (utf8 s) := by
  have hnone : (utf8 s).findIdx? (· == 0x26) = none := findIdx?_utf8_eq_none (a := '&') (by decide) h
  cases fuel with
  | zero => rfl
  | succ fuel => rw [unescapeXmlFrom, hnone]

theorem strSlice_after (before : Str) {a : Char} (ha : a.toNat < 128) (after : Str)
    : strSlice (utf8 (before ++ a :: after)) ((utf8 before).length + 1)
        (utf8 (before ++ a :: after)).length = .ok (utf8 after) := by
  have hlen : (utf8 before).length + 1 = (utf8 (before ++ [a])).length := by
    rw [utf8_append, List.length_append, utf8_cons, utf8EncodeChar_ascii ha]
    rfl
  rw [hlen, List.append_cons before a after]
  exact strSlice_utf8_right (before ++ [a]) after

theorem unescapeXmlFrom_unterminated {plain after : Str} (hplain : '&' ∉ plain) (hafter : ';' ∉ after)
    (fuel : Nat)
    : unescapeXmlFrom (fuel + 1) (utf8 (plain ++ '&' :: after))
        = .error (.invalidFormat "unterminated XML entity") := by
  have hstart : (utf8 (plain ++ '&' :: after)).findIdx? (· == 0x26) = some (utf8 plain).length :=
    findIdx?_utf8 (a := '&') (by decide) hplain
  have hstop : (utf8 after).findIdx? (· == 0x3B) = none :=
    findIdx?_utf8_eq_none (a := ';') (by decide) hafter
  rw [unescapeXmlFrom, hstart]
  dsimp only
  rw [strSlice_utf8_left, except_ok_bind, strSlice_after plain (by decide) after, except_ok_bind,
    hstop]
  rfl

theorem unescapeXmlFrom_entity {plain entity rest : Str} (hplain : '&' ∉ plain)
    (hentity : ';' ∉ entity) (fuel : Nat)
    : unescapeXmlFrom (fuel + 1) (utf8 (plain ++ '&' :: (entity ++ ';' :: rest))) = (do
        let character ← xmlEntity (utf8 entity)
        let output ← unescapeXmlFrom fuel (utf8 rest)
        return utf8 plain ++ utf8 [character] ++ output) := by
  have hstart : (utf8 (plain ++ '&' :: (entity ++ ';' :: rest))).findIdx? (· == 0x26)
      = some (utf8 plain).length :=
    findIdx?_utf8 (a := '&') (by decide) hplain
  have hstop : (utf8 (entity ++ ';' :: rest)).findIdx? (· == 0x3B) = some (utf8 entity).length :=
    findIdx?_utf8 (a := ';') (by decide) hentity
  rw [unescapeXmlFrom, hstart]
  dsimp only
  rw [strSlice_utf8_left, except_ok_bind,
    strSlice_after plain (by decide) (entity ++ ';' :: rest), except_ok_bind, hstop, okOr_some,
    except_ok_bind, strSlice_utf8_left, except_ok_bind]
  congr 1
  funext character
  rw [strSlice_after entity (by decide) rest, except_ok_bind]

/-- Text is free of `&`, or has a first one, which an entity follows or not. -/
theorem amp_cases (s : Str)
    : '&' ∉ s ∨ ∃ plain after, '&' ∉ plain ∧ s = plain ++ '&' :: after
        ∧ (';' ∉ after ∨ ∃ entity rest, ';' ∉ entity ∧ after = entity ++ ';' :: rest) := by
  by_cases hamp : '&' ∈ s
  . obtain ⟨plain, after, rfl, hplain⟩ := List.eq_append_cons_of_mem hamp
    right
    refine ⟨plain, after, hplain, rfl, ?_⟩
    by_cases hsemicolon : ';' ∈ after
    . obtain ⟨entity, rest, rfl, hentity⟩ := List.eq_append_cons_of_mem hsemicolon
      exact .inr ⟨entity, rest, hentity, rfl⟩
    . exact .inl hsemicolon
  . exact .inl hamp

theorem length_utf8_entity (plain entity rest : Str)
    : (utf8 rest).length + 2 ≤ (utf8 (plain ++ '&' :: (entity ++ ';' :: rest))).length := by
  have hamp : (utf8 ['&']).length = 1 := rfl
  have hsemicolon : (utf8 [';']).length = 1 := rfl
  rw [← List.singleton_append (l := entity ++ _), ← List.singleton_append (l := rest), utf8_append,
    utf8_append, utf8_append, utf8_append]
  simp only [List.length_append]
  omega

/-- Resolving references: it accepts text in which every `&` starts one, and gives its meaning. -/
theorem unescapeXmlFrom_eq_ok {fuel : Nat} {s : Str} {output : Bytes}
    (hfuel : (utf8 s).length ≤ fuel)
    : unescapeXmlFrom fuel (utf8 s) = .ok output ↔ ∃ t, output = utf8 t ∧ Unescapes true s t := by
  have hplain {s : Str} (hs : '&' ∉ s) (fuel : Nat) (output : Bytes)
      : unescapeXmlFrom fuel (utf8 s) = .ok output
        ↔ ∃ t, output = utf8 t ∧ Unescapes true s t := by
    simp only [unescapeXmlFrom_plain hs, unescapes_plain hs, Except.ok.injEq, exists_eq_right]
    exact eq_comm
  induction fuel generalizing s output with
  | zero =>
    have hnil : s = [] := utf8_inj.mp (List.length_eq_zero_iff.mp (Nat.le_zero.mp hfuel))
    rw [hnil]
    exact hplain List.not_mem_nil 0 output
  | succ fuel ih =>
    rcases amp_cases s with hs | ⟨plain, after, hplain, rfl, hafter | ⟨entity, rest, hentity, rfl⟩⟩
    . exact hplain hs (fuel + 1) output
    . rw [unescapeXmlFrom_unterminated hplain hafter]
      constructor
      . rintro ⟨⟩
      . rintro ⟨t, -, ht⟩
        obtain ⟨tail, -, htail⟩ := (unescapes_append hplain).mp ht
        obtain ⟨r, c, rest, -, rfl, -⟩ := unescapes_reference.mp htail
        exact absurd (List.mem_append_right r List.mem_cons_self) hafter
    . have hrest : (utf8 rest).length ≤ fuel := by
        have := length_utf8_entity plain entity rest
        omega
      rw [unescapeXmlFrom_entity hplain hentity]
      simp only [except_bind_eq_ok, xmlEntity_eq_ok, ih hrest, except_pure_eq_ok]
      constructor
      . rintro ⟨c, href, _, ⟨t, rfl, ht⟩, rfl⟩
        refine ⟨plain ++ c :: t, ?_, (unescapes_append hplain).mpr ⟨_, rfl, .reference href ht⟩⟩
        rw [List.append_assoc, ← utf8_append, ← utf8_append]
        rfl
      . rintro ⟨_, rfl, ht⟩
        obtain ⟨tail, rfl, htail⟩ := (unescapes_append hplain).mp ht
        obtain ⟨r, c, rest', last, heq, href, rfl, hlast⟩ := unescapes_reference.mp htail
        obtain ⟨rfl, rfl⟩ := append_semicolon_inj heq hentity href.semicolon_not_mem
        refine ⟨c, href, utf8 last, ⟨last, rfl, hlast⟩, ?_⟩
        rw [List.append_assoc, ← utf8_append, ← utf8_append]
        rfl

theorem unescapeXml_eq_ok {s t : Str} : unescapeXml (utf8 s) = .ok t ↔ Unescapes true s t := by
  simp only [unescapeXml, except_bind_eq_ok, unescapeXmlFrom_eq_ok (Nat.le_refl _)]
  constructor
  . rintro ⟨_, ⟨t', rfl, ht⟩, hdecode⟩
    rw [strOfUtf8_utf8] at hdecode
    cases hdecode
    exact ht
  . intro ht
    exact ⟨utf8 t, ⟨t, rfl, ht⟩, strOfUtf8_utf8 t⟩

theorem unescapeXmlFrom_notPanic (fuel : Nat) (s : Str)
    : FailsWith NotPanic (unescapeXmlFrom fuel (utf8 s)) := by
  induction fuel generalizing s with
  | zero => exact .ok _
  | succ fuel ih =>
    rcases amp_cases s with hs | ⟨plain, after, hplain, rfl, hafter | ⟨entity, rest, hentity, rfl⟩⟩
    . rw [unescapeXmlFrom_plain hs]
      exact .ok _
    . rw [unescapeXmlFrom_unterminated hplain hafter]
      exact .error (notPanic_invalidFormat _)
    . rw [unescapeXmlFrom_entity hplain hentity]
      exact .bind (xmlEntity_notPanic entity) fun _ _ => .bind (ih rest) fun _ _ => .pure _

theorem unescapeXml_notPanic (s : Str) : FailsWith NotPanic (unescapeXml (utf8 s)) := by
  apply FailsWith.bind (unescapeXmlFrom_notPanic _ s)
  intro output houtput
  obtain ⟨t, rfl, -⟩ := (unescapeXmlFrom_eq_ok (Nat.le_refl _)).mp houtput
  rw [strOfUtf8_utf8]
  exact .ok t

end Mdict
