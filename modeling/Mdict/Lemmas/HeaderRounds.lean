import Mdict.Format.Common.HeaderRounds
import Mdict.Lemmas.Tag

/-!
This module contains that the scanner of the header tag has enough rounds and never reads beyond the
end, so that it is the scanner without these checks.
-/

namespace Mdict

open Effect Unicode

/-- Every round takes a byte. -/
theorem scanRounds_eq (p : UInt8 → Bool) {bytes : Bytes} {rounds index : Nat}
    (h : bytes.length ≤ rounds + index)
    : scanRounds p bytes rounds index = .ok (scanWhile p bytes index) := by
  induction rounds generalizing index with
  | zero =>
    unfold scanRounds
    rw [if_neg (by omega), scanWhile, List.drop_eq_nil_of_le (by omega)]
    rfl
  | succ rounds ih =>
    unfold scanRounds
    split
    . next hlt =>
      have hbyte : byteAt bytes index = .ok bytes[index] := by
        rw [byteAt, List.getElem?_eq_getElem hlt, okOr_some]
      have hdrop : bytes.drop index = bytes[index] :: bytes.drop (index + 1) :=
        List.drop_eq_getElem_cons hlt
      rw [hbyte, except_ok_bind, scanWhile, hdrop, List.takeWhile_cons]
      split
      . dsimp only
        rw [ih (by omega), scanWhile, List.length_cons]
        congr 1
        omega
      . rfl
    . rw [scanWhile, List.drop_eq_nil_of_le (by omega)]
      rfl

theorem skipAsciiWhitespaceRounds_eq (bytes : Bytes) (index : Nat)
    : skipAsciiWhitespaceRounds bytes index = .ok (skipAsciiWhitespace bytes index) :=
  scanRounds_eq _ (Nat.le_add_right _ _)

theorem le_scanWhile (p : UInt8 → Bool) (bytes : Bytes) (index : Nat)
    : index ≤ scanWhile p bytes index :=
  Nat.le_add_right _ _

theorem strSlice_eq_ok {bytes part : Bytes} {start stop : Nat}
    (h : strSlice bytes start stop = .ok part)
    : start ≤ stop ∧ stop ≤ bytes.length ∧ part.length = stop - start := by
  unfold strSlice at h
  split at h
  . next hrange =>
    cases h
    refine ⟨hrange.1, hrange.2.1, ?_⟩
    rw [List.length_take, List.length_drop]
    omega
  . contradiction

/-- Every round takes an `&` at least. -/
theorem unescapeXmlRoundsFrom_eq {rounds : Nat} {output remaining : Bytes}
    (h : remaining.length ≤ rounds)
    : unescapeXmlRoundsFrom rounds output remaining
        = (unescapeXmlFrom rounds remaining).map (output ++ ·) := by
  induction rounds generalizing output remaining with
  | zero =>
    have hnil : remaining = [] := List.length_eq_zero_iff.mp (Nat.le_zero.mp h)
    rw [hnil]
    rfl
  | succ rounds ih =>
    unfold unescapeXmlRoundsFrom unescapeXmlFrom
    cases remaining.findIdx? (· == 0x26) with
    | none => rfl
    | some entityStart =>
      dsimp only
      rw [except_map_bind]
      apply except_bind_congr
      intro plain hplain
      rw [except_map_bind]
      apply except_bind_congr
      intro after hafter
      rw [except_map_bind]
      apply except_bind_congr
      intro entityEnd _
      rw [except_map_bind]
      apply except_bind_congr
      intro entity _
      rw [except_map_bind]
      apply except_bind_congr
      intro character _
      rw [except_map_bind]
      apply except_bind_congr
      intro rest hrest
      have hafterLen := strSlice_eq_ok hafter
      have hrestLen := strSlice_eq_ok hrest
      rw [ih (by omega)]
      cases unescapeXmlFrom rounds rest with
      | error e => rfl
      | ok last =>
        change Except.ok (output ++ plain ++ utf8 [character] ++ last)
          = Except.ok (output ++ (plain ++ utf8 [character] ++ last))
        simp only [List.append_assoc]

theorem unescapeXmlRounds_eq (value : Bytes) : unescapeXmlRounds value = unescapeXml value := by
  rw [unescapeXmlRounds, unescapeXmlRoundsFrom_eq (Nat.le_refl _), unescapeXml]
  cases unescapeXmlFrom value.length value <;> rfl

theorem parseAttributeRounds_eq (xml : Bytes) (nameStart : Nat) (attrs : List (Str × Str))
    : parseAttributeRounds xml nameStart attrs = parseAttribute xml nameStart attrs := by
  have hscan (p : UInt8 → Bool) (index : Nat)
      : scanRounds p xml xml.length index = .ok (scanWhile p xml index) :=
    scanRounds_eq p (Nat.le_add_right _ _)
  simp only [parseAttributeRounds, hscan, skipAsciiWhitespaceRounds_eq, except_ok_bind,
    unescapeXmlRounds_eq]
  rfl

/-- An attribute takes bytes. -/
theorem lt_of_parseAttribute {xml : Bytes} {nameStart index : Nat} {attrs : List (Str × Str)}
    {attr : Str × Str} (h : parseAttribute xml nameStart attrs = .ok (attr, index))
    : nameStart < index ∧ index ≤ xml.length := by
  simp only [parseAttribute, except_bind_eq_ok, failIf_eq_ok, except_pure_eq_ok, Prod.mk.injEq] at h
  obtain ⟨⟨⟩, hname, _, -, name, -, ⟨⟩, -, ⟨⟩, -, quote, -, ⟨⟩, hlt, _, -, value, -, -, rfl⟩ := h
  have hstart := le_scanWhile (fun b => !isAsciiWhitespace b && b != 0x3D && b != 0x3E) xml nameStart
  generalize scanWhile (fun b => !isAsciiWhitespace b && b != 0x3D && b != 0x3E) xml nameStart = index
    at hname hlt hstart ⊢
  have hequals : index ≤ skipAsciiWhitespace xml index := le_scanWhile _ _ _
  generalize skipAsciiWhitespace xml index = index at hequals hlt ⊢
  have hquote : index + 1 ≤ skipAsciiWhitespace xml (index + 1) := le_scanWhile _ _ _
  generalize skipAsciiWhitespace xml (index + 1) = index at hquote hlt ⊢
  have hvalue := le_scanWhile (· != quote) xml (index + 1)
  omega

/-- A round of the loop over the attributes, given that the rounds after it agree. -/
theorem parseAttributesRounds_eq_of {xml : Bytes} {limit rounds left index : Nat}
    {attrs : List (Str × Str)} (hleft : left + attrs.length = limit)
    (h : xml.length ≤ rounds + index)
    (hnext : ∀ rounds' left' index' attr, rounds = rounds' + 1 → left = left' + 1 → index < index' →
      parseAttributesRounds xml limit rounds' index' (attrs ++ [attr])
        = parseAttributes xml limit left' index' (attrs ++ [attr]))
    : parseAttributesRounds xml limit rounds index attrs
        = parseAttributes xml limit left index attrs := by
  have hskip : index ≤ skipAsciiWhitespace xml index := le_scanWhile _ _ _
  unfold parseAttributesRounds parseAttributes
  rw [skipAsciiWhitespaceRounds_eq, except_ok_bind]
  dsimp only
  generalize skipAsciiWhitespace xml index = start at hskip ⊢
  by_cases hend : start ≥ xml.length
  . rw [failIf_of hend, List.getElem?_eq_none hend]
    rfl
  have hlt : start < xml.length := Nat.lt_of_not_ge hend
  have hbyte : byteAt xml start = .ok xml[start] := by
    rw [byteAt, List.getElem?_eq_getElem hlt, okOr_some]
  rw [failIf_of_not hend, except_ok_bind, hbyte, except_ok_bind, List.getElem?_eq_getElem hlt]
  generalize xml[start] = b
  by_cases hslash : b = 0x2F
  . rw [if_pos hslash, hslash]
    rfl
  by_cases hclose : b = 0x3E
  . rw [if_neg hslash, if_pos hclose, hclose]
    rfl
  rw [if_neg hslash, if_neg hclose]
  cases rounds with
  | zero => omega
  | succ rounds =>
    dsimp only
    split
    . contradiction
    . next heq => exact absurd (Option.some.inj heq) hslash
    . next heq => exact absurd (Option.some.inj heq) hclose
    cases left with
    | zero =>
      have hfull : attrs.length ≥ limit := by omega
      rw [failIf_of hfull]
      rfl
    | succ left =>
      have hroom : ¬attrs.length ≥ limit := by omega
      rw [failIf_of_not hroom, except_ok_bind, parseAttributeRounds_eq]
      apply except_bind_congr
      rintro ⟨attr, index'⟩ hattr
      have := lt_of_parseAttribute hattr
      exact hnext rounds left index' attr rfl rfl (by omega)

/-- Every round takes an attribute, and an attribute takes a byte at least. -/
theorem parseAttributesRounds_eq {xml : Bytes} {limit rounds left index : Nat}
    {attrs : List (Str × Str)} (hleft : left + attrs.length = limit)
    (h : xml.length ≤ rounds + index)
    : parseAttributesRounds xml limit rounds index attrs
        = parseAttributes xml limit left index attrs := by
  induction rounds generalizing left index attrs with
  | zero =>
    apply parseAttributesRounds_eq_of hleft h
    intro rounds' _ _ _ hrounds
    contradiction
  | succ rounds ih =>
    apply parseAttributesRounds_eq_of hleft h
    intro rounds' left' index' attr hrounds hleft' hlt
    cases hrounds
    apply ih
    . rw [List.length_append, List.length_singleton]
      omega
    . omega

theorem parseTagEndRounds_eq (xml tagName : Bytes) (index : Nat) (selfClosing : Bool)
    : parseTagEndRounds xml tagName index selfClosing
        = parseTagEnd xml tagName index selfClosing := by
  have hscan (p : UInt8 → Bool) (index : Nat)
      : scanRounds p xml xml.length index = .ok (scanWhile p xml index) :=
    scanRounds_eq p (Nat.le_add_right _ _)
  simp only [parseTagEndRounds, hscan, skipAsciiWhitespaceRounds_eq, except_ok_bind]
  rfl

theorem parseSingleTagRounds_eq (xml : Str) (limits : Limits)
    : parseSingleTagRounds xml limits = parseSingleTag xml limits := by
  have hscan (p : UInt8 → Bool)
      : scanRounds p (utf8 xml) (utf8 xml).length 1 = .ok (scanWhile p (utf8 xml) 1) :=
    scanRounds_eq p (Nat.le_add_right _ _)
  have hattributes (index : Nat)
      : parseAttributesRounds (utf8 xml) limits.headerAttributes (utf8 xml).length index []
        = parseAttributes (utf8 xml) limits.headerAttributes limits.headerAttributes index [] :=
    parseAttributesRounds_eq rfl (Nat.le_add_right _ _)
  simp only [parseSingleTagRounds, hscan, except_ok_bind, hattributes, parseTagEndRounds_eq]
  rfl

end Mdict
