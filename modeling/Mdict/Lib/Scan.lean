import Mdict.Lib.Unicode

/-!
This module contains scanning for ASCII characters in the UTF-8 form of a string: byte by byte it
comes to the same places as character by character.
-/

namespace Unicode

variable {c a : Char} {s pre post : List Char} {p : UInt8 → Bool} {v : Bool}

/-- The only byte of an ASCII character. -/
theorem utf8EncodeChar_ascii (h : c.toNat < 128)
    : String.utf8EncodeChar c = [UInt8.ofNat c.toNat] := by
  have hle : c.val.toNat ≤ 0x7F := Nat.le_of_lt_succ h
  unfold String.utf8EncodeChar
  exact if_pos hle

theorem ofNat_toNat_inj {a c : Char} (ha : a.toNat < 128) (hc : c.toNat < 128)
    : UInt8.ofNat c.toNat = UInt8.ofNat a.toNat ↔ c = a := by
  constructor
  . intro h
    have heq := congrArg UInt8.toNat h
    rw [UInt8.toNat_ofNat', UInt8.toNat_ofNat'] at heq
    exact Char.toNat_inj.mp (by omega)
  . rintro rfl
    rfl

/-- The bytes of all other characters are not ASCII. -/
theorem le_of_mem_utf8EncodeChar (h : 128 ≤ c.toNat) {b : UInt8}
    (hb : b ∈ String.utf8EncodeChar c)
    : 0x80 ≤ b := by
  have hgt : ¬c.val.toNat ≤ 0x7F := Nat.not_le_of_gt h
  have hlt : c.val.toNat < 0x110000 := toNat_lt c
  unfold String.utf8EncodeChar at hb
  rw [UInt8.le_iff_toNat_le]
  change 128 ≤ b.toNat
  dsimp only at hb
  rw [if_neg hgt] at hb
  split at hb
  . simp only [List.mem_cons, List.not_mem_nil, or_false] at hb
    rcases hb with rfl | rfl <;> rw [UInt8.toNat_ofNat'] <;> omega
  . split at hb
    . simp only [List.mem_cons, List.not_mem_nil, or_false] at hb
      rcases hb with rfl | rfl | rfl <;> rw [UInt8.toNat_ofNat'] <;> omega
    . simp only [List.mem_cons, List.not_mem_nil, or_false] at hb
      rcases hb with rfl | rfl | rfl | rfl <;> rw [UInt8.toNat_ofNat'] <;> omega

/-- A class of bytes as a class of characters, when it has all bytes that are not ASCII or none. -/
def classOf (p : UInt8 → Bool) (v : Bool) (c : Char) : Bool :=
  if c.toNat < 128 then p (UInt8.ofNat c.toNat) else v

theorem takeWhile_utf8EncodeChar_append (hv : ∀ b, 0x80 ≤ b → p b = v) (c : Char) (rest : Bytes)
    : (String.utf8EncodeChar c ++ rest).takeWhile p
        = if classOf p v c then String.utf8EncodeChar c ++ rest.takeWhile p else [] := by
  unfold classOf
  split
  . next hascii =>
    rw [utf8EncodeChar_ascii hascii, List.singleton_append, List.takeWhile_cons]
    rfl
  . next hascii =>
    have hbytes : ∀ b ∈ String.utf8EncodeChar c, p b = v := fun b hb =>
      hv b (le_of_mem_utf8EncodeChar (Nat.le_of_not_lt hascii) hb)
    cases v with
    | true =>
      rw [if_pos rfl, List.takeWhile_append_of_pos hbytes]
    | false =>
      rw [if_neg Bool.false_ne_true]
      cases hc : String.utf8EncodeChar c with
      | nil => exact absurd hc String.utf8EncodeChar_ne_nil
      | cons b bytes =>
        rw [List.cons_append, List.takeWhile_cons_of_neg]
        rw [hbytes b (by rw [hc]; exact List.mem_cons_self)]
        exact Bool.false_ne_true

/-- Scanning the bytes of a string gives the bytes of the scanned characters. -/
theorem takeWhile_utf8 (hv : ∀ b, 0x80 ≤ b → p b = v) (s : List Char)
    : (utf8 s).takeWhile p = utf8 (s.takeWhile (classOf p v)) := by
  induction s with
  | nil => rfl
  | cons c s ih =>
    rw [utf8_cons, takeWhile_utf8EncodeChar_append hv, ih, List.takeWhile_cons]
    split
    . rw [utf8_cons]
    . rfl

/-- The first byte of a string is that of an ASCII character exactly when the character is it. -/
theorem head?_utf8_eq_some (ha : a.toNat < 128)
    : (utf8 s).head? = some (UInt8.ofNat a.toNat) ↔ ∃ rest, s = a :: rest := by
  cases s with
  | nil => simp
  | cons c s =>
    rw [utf8_cons]
    constructor
    . intro h
      by_cases hc : c.toNat < 128
      . rw [utf8EncodeChar_ascii hc, List.singleton_append, List.head?_cons, Option.some.injEq,
          ofNat_toNat_inj ha hc] at h
        exact ⟨s, by rw [h]⟩
      . exfalso
        have hmem : UInt8.ofNat a.toNat ∈ String.utf8EncodeChar c := by
          cases hbytes : String.utf8EncodeChar c with
          | nil => exact absurd hbytes String.utf8EncodeChar_ne_nil
          | cons b bytes =>
            rw [hbytes, List.cons_append, List.head?_cons, Option.some.injEq] at h
            exact h ▸ List.mem_cons_self
        have hle := le_of_mem_utf8EncodeChar (Nat.le_of_not_lt hc) hmem
        rw [UInt8.le_iff_toNat_le, UInt8.toNat_ofNat'] at hle
        change 128 ≤ _ at hle
        omega
    . rintro ⟨rest, heq⟩
      cases heq
      rw [utf8EncodeChar_ascii ha]
      rfl

/-- The byte of an ASCII character occurs where the character does. -/
theorem mem_utf8_iff (ha : a.toNat < 128) : UInt8.ofNat a.toNat ∈ utf8 s ↔ a ∈ s := by
  rw [utf8, List.mem_flatMap]
  constructor
  . rintro ⟨c, hc, hmem⟩
    by_cases hascii : c.toNat < 128
    . rw [utf8EncodeChar_ascii hascii, List.mem_singleton, ofNat_toNat_inj hascii ha] at hmem
      rwa [hmem]
    . have hle := le_of_mem_utf8EncodeChar (Nat.le_of_not_lt hascii) hmem
      rw [UInt8.le_iff_toNat_le, UInt8.toNat_ofNat'] at hle
      change 128 ≤ _ at hle
      omega
  . intro h
    refine ⟨a, h, ?_⟩
    rw [utf8EncodeChar_ascii ha]
    exact List.mem_singleton_self _

theorem findIdx?_utf8_eq_none (ha : a.toNat < 128) (hs : a ∉ s)
    : (utf8 s).findIdx? (· == UInt8.ofNat a.toNat) = none := by
  rw [List.findIdx?_eq_none_iff]
  intro b hb
  rw [beq_eq_false_iff_ne]
  rintro rfl
  exact hs ((mem_utf8_iff ha).mp hb)

/-- The first byte of an ASCII character is where the character is first. -/
theorem findIdx?_utf8 (ha : a.toNat < 128) (hpre : a ∉ pre)
    : (utf8 (pre ++ a :: post)).findIdx? (· == UInt8.ofNat a.toNat) = some (utf8 pre).length := by
  rw [utf8_append, List.findIdx?_append, findIdx?_utf8_eq_none ha hpre, utf8_cons, utf8EncodeChar_ascii ha,
    List.singleton_append, List.findIdx?_cons, beq_self_eq_true, if_pos rfl, Option.none_or,
    Option.map_some, Nat.zero_add]

/-- What lies at a boundary between two parts of a string is the first byte of the second. -/
theorem getElem?_utf8_append (pre post : List Char)
    : (utf8 (pre ++ post))[(utf8 pre).length]? = (utf8 post).head? := by
  rw [utf8_append, List.getElem?_append_right (Nat.le_refl _), Nat.sub_self,
    List.head?_eq_getElem?]

/-! ## Classes -/

theorem classOf_beq (ha : a.toNat < 128) (c : Char)
    : classOf (· == UInt8.ofNat a.toNat) false c = (c == a) := by
  rw [Bool.eq_iff_iff, beq_iff_eq, classOf]
  split
  . next hc => rw [beq_iff_eq, ofNat_toNat_inj ha hc]
  . next hc =>
    constructor
    . intro h
      contradiction
    . rintro rfl
      exact absurd ha hc

theorem classOf_not (p : UInt8 → Bool) (v : Bool) (c : Char)
    : classOf (fun b => !p b) (!v) c = !classOf p v c := by
  unfold classOf
  split <;> rfl

theorem classOf_and (p q : UInt8 → Bool) (v v' : Bool) (c : Char)
    : classOf (fun b => p b && q b) (v && v') c = (classOf p v c && classOf q v' c) := by
  unfold classOf
  split <;> rfl

theorem classOf_or (p q : UInt8 → Bool) (v v' : Bool) (c : Char)
    : classOf (fun b => p b || q b) (v || v') c = (classOf p v c || classOf q v' c) := by
  unfold classOf
  split <;> rfl

theorem classOf_bne (ha : a.toNat < 128) (c : Char)
    : classOf (· != UInt8.ofNat a.toNat) true c = (c != a) := by
  rw [bne, ← classOf_beq ha]
  exact classOf_not (· == UInt8.ofNat a.toNat) false c

/-! ## Positions -/

/-- From this byte on, `rest` is left of the string. -/
def RestAt (s : List Char) (i : Nat) (rest : List Char) : Prop :=
  ∃ before, s = before ++ rest ∧ i = (utf8 before).length

namespace RestAt

variable {i : Nat} {rest : List Char}

theorem zero (s : List Char) : RestAt s 0 s := ⟨[], rfl, rfl⟩

theorem length_add (h : RestAt s i rest) : i + (utf8 rest).length = (utf8 s).length := by
  obtain ⟨before, rfl, rfl⟩ := h
  rw [utf8_append, List.length_append]

theorem length_le (h : RestAt s i rest) : i ≤ (utf8 s).length := by
  have := h.length_add
  omega

theorem eq_length_iff (h : RestAt s i rest) : i = (utf8 s).length ↔ rest = [] := by
  have hlen := h.length_add
  constructor
  . intro heq
    exact utf8_inj.mp (List.length_eq_zero_iff.mp (by omega))
  . rintro rfl
    exact hlen

theorem getElem? (h : RestAt s i rest) : (utf8 s)[i]? = (utf8 rest).head? := by
  obtain ⟨before, rfl, rfl⟩ := h
  exact getElem?_utf8_append before rest

theorem getElem?_eq_some (h : RestAt s i rest) (ha : a.toNat < 128)
    : (utf8 s)[i]? = some (UInt8.ofNat a.toNat) ↔ ∃ rest', rest = a :: rest' := by
  rw [h.getElem?, head?_utf8_eq_some ha]

/-- Past an ASCII character. -/
theorem succ (h : RestAt s i (a :: rest)) (ha : a.toNat < 128) : RestAt s (i + 1) rest := by
  obtain ⟨before, rfl, rfl⟩ := h
  refine ⟨before ++ [a], by rw [List.append_assoc]; rfl, ?_⟩
  rw [utf8_append, List.length_append, utf8_cons, utf8EncodeChar_ascii ha]
  rfl

theorem drop (h : RestAt s i rest) : (utf8 s).drop i = utf8 rest := by
  obtain ⟨before, rfl, rfl⟩ := h
  rw [utf8_append, List.drop_left]

/-- Past some characters. -/
theorem append {skipped : List Char} (h : RestAt s i (skipped ++ rest))
    : RestAt s (i + (utf8 skipped).length) rest := by
  obtain ⟨before, rfl, rfl⟩ := h
  exact ⟨before ++ skipped, by rw [List.append_assoc], by rw [utf8_append, List.length_append]⟩

end RestAt

end Unicode
