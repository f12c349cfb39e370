import Mdict.Lib.Scan

/-!
This module contains percent-encoding: text in which `%` and two hexadecimal digits stand for one
byte and every other character for its own UTF-8 form.
-/

namespace Percent

open Unicode

/-- The value of a hexadecimal digit in either case. -/
def digit? (c : Char) : Option Nat :=
  if 0x30 ≤ c.toNat ∧ c.toNat ≤ 0x39 then
    some (c.toNat - 0x30)
  else if 0x61 ≤ c.toNat ∧ c.toNat ≤ 0x66 then
    some (c.toNat - 0x61 + 10)
  else if 0x41 ≤ c.toNat ∧ c.toNat ≤ 0x46 then
    some (c.toNat - 0x41 + 10)
  else
    none

/-- Text and the bytes that it stands for. -/
inductive StandsFor : List Char → Bytes → Prop where
  | nil : StandsFor [] []
  | plain {c : Char} {text : List Char} {bytes : Bytes} (hc : c ≠ '%')
      (hrest : StandsFor text bytes)
      : StandsFor (c :: text) (String.utf8EncodeChar c ++ bytes)
  | escape {h l : Char} {high low : Nat} {text : List Char} {bytes : Bytes}
      (hhigh : digit? h = some high) (hlow : digit? l = some low)
      (hrest : StandsFor text bytes)
      : StandsFor ('%' :: h :: l :: text) (UInt8.ofNat (16 * high + low) :: bytes)

/-- The text has a `%` behind which two hexadecimal digits do not follow. -/
def Malformed (text : List Char) : Prop :=
  ∃ before after, text = before ++ '%' :: after
    ∧ ∀ h l rest, after = h :: l :: rest → digit? h = none ∨ digit? l = none

/-- Escapes of each of the given bytes, one after the other. -/
inductive EscapesBytes : Bytes → List Char → Prop where
  | nil : EscapesBytes [] []
  | cons {b : UInt8} {h l : Char} {bytes : Bytes} {text : List Char}
      (hhigh : digit? h = some (b.toNat / 16)) (hlow : digit? l = some (b.toNat % 16))
      (hrest : EscapesBytes bytes text)
      : EscapesBytes (b :: bytes) ('%' :: h :: l :: text)

/-- The second text is the first with all bytes of every `%` and of some other characters escaped. -/
inductive Escapes : List Char → List Char → Prop where
  | nil : Escapes [] []
  | plain {c : Char} {plain text : List Char} (hc : c ≠ '%') (hrest : Escapes plain text)
      : Escapes (c :: plain) (c :: text)
  | escaped {c : Char} {plain escapes text : List Char}
      (hescapes : EscapesBytes (String.utf8EncodeChar c) escapes) (hrest : Escapes plain text)
      : Escapes (c :: plain) (escapes ++ text)

variable {text plain : List Char} {bytes bytes' : Bytes}

theorem digit?_lt {c : Char} {n : Nat} (h : digit? c = some n) : c.toNat < 128 := by
  unfold digit? at h
  split at h
  . omega
  . split at h
    . omega
    . split at h
      . omega
      . contradiction

theorem digit?_lt_sixteen {c : Char} {n : Nat} (h : digit? c = some n) : n < 16 := by
  unfold digit? at h
  split at h
  . cases h
    omega
  . split at h
    . cases h
      omega
    . split at h
      . cases h
        omega
      . contradiction

/-- The two halves of a byte put together. -/
theorem shiftLeft_or_ofNat {high low : Nat} (hhigh : high < 16) (hlow : low < 16)
    : (UInt8.ofNat high <<< 4) ||| UInt8.ofNat low = UInt8.ofNat (16 * high + low) := by
  have hor := Nat.two_pow_add_eq_or_of_lt (show low < 2 ^ 4 from hlow) high
  have hfour : (4 : UInt8).toNat % 8 = 4 := rfl
  rw [← UInt8.toNat_inj, UInt8.toNat_or, UInt8.toNat_shiftLeft, UInt8.toNat_ofNat',
    UInt8.toNat_ofNat', UInt8.toNat_ofNat', hfour, Nat.shiftLeft_eq, Nat.mul_comm _ (2 ^ 4)]
  rw [Nat.mod_eq_of_lt (a := high) (by omega), Nat.mod_eq_of_lt (a := low) (by omega),
    Nat.mod_eq_of_lt (a := 2 ^ 4 * high) (by omega),
    Nat.mod_eq_of_lt (a := 16 * high + low) (by omega)]
  exact hor.symm

theorem digit?_percent : digit? '%' = none := by
  decide

/-- Text stands for one byte string at most. -/
theorem StandsFor.unique (h : StandsFor text bytes) (h' : StandsFor text bytes')
    : bytes = bytes' := by
  induction h generalizing bytes' with
  | nil =>
    cases h'
    rfl
  | plain hc hrest ih =>
    cases h' with
    | plain hc' hrest' => rw [ih hrest']
    | escape => exact absurd rfl hc
  | escape hhigh hlow hrest ih =>
    cases h' with
    | plain hc' hrest' => exact absurd rfl hc'
    | escape hhigh' hlow' hrest' =>
      rw [hhigh, Option.some.injEq] at hhigh'
      rw [hlow, Option.some.injEq] at hlow'
      rw [hhigh', hlow', ih hrest']

/-- A character before a malformed escape may be left out, unless it is a `%` itself. -/
theorem Malformed.of_cons {c : Char} (h : Malformed (c :: text)) (hc : c ≠ '%')
    : Malformed text := by
  obtain ⟨before, after, heq, hafter⟩ := h
  cases before with
  | nil =>
    rw [List.nil_append, List.cons.injEq] at heq
    exact absurd heq.1 hc
  | cons b before =>
    rw [List.cons_append, List.cons.injEq] at heq
    exact ⟨before, after, heq.2, hafter⟩

theorem Malformed.cons {c : Char} (h : Malformed text) : Malformed (c :: text) := by
  obtain ⟨before, after, rfl, hafter⟩ := h
  exact ⟨c :: before, after, rfl, hafter⟩

theorem StandsFor.not_malformed (h : StandsFor text bytes) : ¬Malformed text := by
  induction h with
  | nil =>
    rintro ⟨before, after, heq, -⟩
    exact absurd heq.symm (List.append_ne_nil_of_right_ne_nil before (List.cons_ne_nil _ _))
  | plain hc hrest ih =>
    intro hbad
    exact ih (hbad.of_cons hc)
  | @escape h l high low text bytes hhigh hlow hrest ih =>
    -- Neither digit is a `%`, so what is malformed lies at the first `%` or behind the digits.
    rintro ⟨before, after, heq, hafter⟩
    have hne {c : Char} {n : Nat} (hdigit : digit? c = some n) : c ≠ '%' := by
      rintro rfl
      rw [digit?_percent] at hdigit
      contradiction
    cases before with
    | nil =>
      rw [List.nil_append, List.cons.injEq] at heq
      rcases hafter h l text heq.2.symm with hnone | hnone
      . exact absurd (hhigh.symm.trans hnone) (Option.some_ne_none high)
      . exact absurd (hlow.symm.trans hnone) (Option.some_ne_none low)
    | cons b before =>
      rw [List.cons_append, List.cons.injEq] at heq
      have hbad : Malformed (h :: l :: text) := ⟨before, after, heq.2, hafter⟩
      exact ih ((hbad.of_cons (hne hhigh)).of_cons (hne hlow))

/-- Escapes of bytes stand for them. -/
theorem EscapesBytes.standsFor {escapes : List Char} (h : EscapesBytes bytes escapes)
    (hrest : StandsFor text bytes')
    : StandsFor (escapes ++ text) (bytes ++ bytes') := by
  induction h with
  | nil => exact hrest
  | @cons b h l bytes escapes hhigh hlow _ ih =>
    have hb : UInt8.ofNat (16 * (b.toNat / 16) + b.toNat % 16) = b := by
      rw [Nat.div_add_mod]
      exact UInt8.ofNat_toNat
    have hescape := StandsFor.escape hhigh hlow ih
    rwa [hb] at hescape

/-- Text in which some characters are escaped stands for the UTF-8 form of all of them. -/
theorem Escapes.standsFor (h : Escapes plain text) : StandsFor text (utf8 plain) := by
  induction h with
  | nil => exact .nil
  | plain hc hrest ih =>
    rw [utf8_cons]
    exact ih.plain hc
  | escaped hescapes hrest ih =>
    rw [utf8_cons]
    exact hescapes.standsFor ih

end Percent
