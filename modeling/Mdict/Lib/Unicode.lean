import Mdict.Lib.Bytes
import Mathlib.Data.List.Flatten

/-!
This module contains the UTF-8 and UTF-16LE forms of strings: both codecs round trip, and since no
character's UTF-8 form starts another's, prefixes of strings are prefixes of their bytes.
-/

namespace Unicode

/-! ## UTF-8 -/

/-- The UTF-8 form of a string. -/
def utf8 (s : List Char) : Bytes := s.flatMap String.utf8EncodeChar

/-- The string with a given UTF-8 form. -/
def utf8Decode? (bytes : Bytes) : Option (List Char) :=
  bytes.toByteArray.utf8Decode?.map Array.toList

@[simp]
theorem utf8_nil : utf8 [] = [] := rfl

@[simp]
theorem utf8_append (s t : List Char) : utf8 (s ++ t) = utf8 s ++ utf8 t := by
  simp [utf8]

theorem utf8_cons (c : Char) (s : List Char) : utf8 (c :: s) = String.utf8EncodeChar c ++ utf8 s := by
  simp [utf8]

theorem toByteArray_utf8 (s : List Char) : (utf8 s).toByteArray = s.utf8Encode := by
  rfl

theorem toByteArray_injective {a b : Bytes} (h : a.toByteArray = b.toByteArray) : a = b := by
  have := congrArg (fun bytes => bytes.data.toList) h
  simpa using this

@[simp]
theorem utf8Decode?_utf8 (s : List Char) : utf8Decode? (utf8 s) = some s := by
  rw [utf8Decode?, toByteArray_utf8, List.utf8Decode?_utf8Encode]
  rfl

theorem utf8_of_utf8Decode? {bytes : Bytes} {s : List Char} (h : utf8Decode? bytes = some s)
    : utf8 s = bytes := by
  unfold utf8Decode? at h
  rw [Option.map_eq_some_iff] at h
  obtain ⟨chars, hchars, rfl⟩ := h
  have henc := ByteArray.utf8Encode_get_utf8Decode? (b := bytes.toByteArray)
    (h := by rw [hchars]; rfl)
  simp only [hchars, Option.get_some] at henc
  exact toByteArray_injective henc

theorem utf8_injective {s t : List Char} (h : utf8 s = utf8 t) : s = t := by
  have := congrArg utf8Decode? h
  simpa using this

@[simp]
theorem utf8_inj {s t : List Char} : utf8 s = utf8 t ↔ s = t :=
  ⟨utf8_injective, congrArg utf8⟩

@[simp]
theorem utf8_isPrefix_iff {s t : List Char} : utf8 s <+: utf8 t ↔ s <+: t := by
  constructor
  . rintro ⟨rest, h⟩
    apply List.isPrefix_of_utf8Encode_append_eq_utf8Encode rest.toByteArray
    rw [← toByteArray_utf8, ← toByteArray_utf8, ← h]
    exact (List.toByteArray_append).symm
  . rintro ⟨rest, rfl⟩
    exact ⟨utf8 rest, (utf8_append s rest).symm⟩

theorem length_utf8 (s : List Char) : (utf8 s).length = (s.map Char.utf8Size).sum := by
  simp [utf8, List.length_flatMap]

/--
A position of a UTF-8 string at which it may be cut: an end, or the first byte of a character.
-/
def isCharBoundary (bytes : Bytes) (i : Nat) : Bool :=
  match bytes[i]? with
  | some b => i == 0 || b < 0x80 || 0xC0 ≤ b
  | none => i == bytes.length

theorem not_continuation_of_isUTF8FirstByte {b : UInt8} (h : b.IsUTF8FirstByte)
    : b < 0x80 ∨ 0xC0 ≤ b := by
  have hall : ∀ n : Fin 256, (UInt8.ofFin n).IsUTF8FirstByte →
      UInt8.ofFin n < 0x80 ∨ 0xC0 ≤ UInt8.ofFin n := by
    decide +kernel
  exact hall b.toFin h

theorem isCharBoundary_utf8_append (s t : List Char)
    : isCharBoundary (utf8 s ++ utf8 t) (utf8 s).length := by
  unfold isCharBoundary
  cases t with
  | nil => simp
  | cons c t =>
    have hpos : 0 < (String.utf8EncodeChar c).length := by
      simp [Char.utf8Size_pos]
    have hget : (utf8 s ++ utf8 (c :: t))[(utf8 s).length]?
        = some ((String.utf8EncodeChar c)[0]) := by
      rw [List.getElem?_append_right (Nat.le_refl _), Nat.sub_self, utf8_cons,
        List.getElem?_append_left hpos, List.getElem?_eq_getElem hpos]
    have hfirst := UInt8.isUTF8FirstByte_getElem_zero_utf8EncodeChar (c := c)
    rw [hget]
    rcases not_continuation_of_isUTF8FirstByte hfirst with h | h <;> simp [h]

/-! ## UTF-16LE -/

/-- The character with a given code point. -/
def charOfNat? (n : Nat) : Option Char :=
  if h : n.isValidChar then some (Char.ofNatAux n h) else none

/-- The UTF-16 code units of a character. -/
def utf16Units (c : Char) : List Nat :=
  if c.toNat < 0x10000 then
    [c.toNat]
  else
    [0xD800 + (c.toNat - 0x10000) / 0x400, 0xDC00 + (c.toNat - 0x10000) % 0x400]

/-- The UTF-16LE form of a string. -/
def utf16le (s : List Char) : Bytes := (s.flatMap utf16Units).flatMap (Bytes.ofLE 2)

/-- The little endian 16 bit units of a byte string of even length. -/
def units? : Bytes → Option (List Nat)
  | [] => some []
  | [_] => none
  | a :: b :: rest => (units? rest).map (Bytes.toLE [a, b] :: ·)

/-- A code unit that needs a second one. -/
def isLead (u : Nat) : Bool := 0xD800 ≤ u ∧ u < 0xDC00

/-- A code unit that completes a pair. -/
def isTrail (u : Nat) : Bool := 0xDC00 ≤ u ∧ u < 0xE000

/-- The string with the given UTF-16 code units: surrogates must come in pairs. -/
def decodeUtf16? : List Nat → Option (List Char)
  | [] => some []
  | [u] => (charOfNat? u).map ([·])
  | u :: v :: rest =>
    if isLead u then
      if isTrail v then do
        let c ← charOfNat? (0x10000 + (u - 0xD800) * 0x400 + (v - 0xDC00))
        let s ← decodeUtf16? rest
        return c :: s
      else
        none
    else do
      let c ← charOfNat? u
      let s ← decodeUtf16? (v :: rest)
      return c :: s

theorem charOfNat?_toNat (c : Char) : charOfNat? c.toNat = some c := by
  have h : c.toNat.isValidChar := c.valid
  rw [charOfNat?, dif_pos h]
  rfl

theorem toNat_of_charOfNat? {n : Nat} {c : Char} (h : charOfNat? n = some c) : c.toNat = n := by
  by_cases hvalid : n.isValidChar
  . rw [charOfNat?, dif_pos hvalid] at h
    injection h with h
    subst h
    rfl
  . rw [charOfNat?, dif_neg hvalid] at h
    contradiction

theorem toNat_lt (c : Char) : c.toNat < 0x110000 := by
  have h : c.toNat.isValidChar := c.valid
  rcases h with h | h <;> omega

theorem not_surrogate (c : Char) : c.toNat < 0xD800 ∨ 0xE000 ≤ c.toNat := by
  have h : c.toNat.isValidChar := c.valid
  rcases h with h | h <;> omega

theorem utf16Units_lt (c : Char) : ∀ u ∈ utf16Units c, u < 0x10000 := by
  have hlt := toNat_lt c
  intro u hu
  unfold utf16Units at hu
  split at hu
  . simp only [List.mem_singleton] at hu
    omega
  . simp only [List.mem_cons, List.not_mem_nil, or_false] at hu
    omega

theorem decodeUtf16?_utf16Units_append (c : Char) (rest : List Nat)
    : decodeUtf16? (utf16Units c ++ rest) = (decodeUtf16? rest).map (c :: ·) := by
  have hlt := toNat_lt c
  have hsur := not_surrogate c
  unfold utf16Units
  split
  . next h =>
    have hlead : isLead c.toNat = false := by
      simp only [isLead, decide_eq_false_iff_not]
      omega
    cases rest with
    | nil => simp [decodeUtf16?, charOfNat?_toNat]
    | cons v rest =>
      rw [List.singleton_append, decodeUtf16?, hlead, charOfNat?_toNat]
      cases decodeUtf16? (v :: rest) <;> rfl
  . next h =>
    have hlead : isLead (0xD800 + (c.toNat - 0x10000) / 0x400) = true := by
      simp only [isLead, decide_eq_true_eq]
      omega
    have htrail : isTrail (0xDC00 + (c.toNat - 0x10000) % 0x400) = true := by
      simp only [isTrail, decide_eq_true_eq]
      omega
    have hsum : 0x10000 + (0xD800 + (c.toNat - 0x10000) / 0x400 - 0xD800) * 0x400
        + (0xDC00 + (c.toNat - 0x10000) % 0x400 - 0xDC00) = c.toNat := by
      omega
    rw [List.cons_append, List.singleton_append, decodeUtf16?, hlead, htrail, hsum,
      charOfNat?_toNat]
    cases decodeUtf16? rest <;> rfl

@[simp]
theorem decodeUtf16?_flatMap_utf16Units (s : List Char)
    : decodeUtf16? (s.flatMap utf16Units) = some s := by
  induction s with
  | nil => rfl
  | cons c s ih => rw [List.flatMap_cons, decodeUtf16?_utf16Units_append, ih, Option.map_some]

theorem units?_flatMap_ofLE (us : List Nat) (h : ∀ u ∈ us, u < 0x10000)
    : units? (us.flatMap (Bytes.ofLE 2)) = some us := by
  induction us with
  | nil => rfl
  | cons u us ih =>
    have hu : Bytes.toLE (Bytes.ofLE 2 u) = u :=
      Bytes.toLE_ofLE_of_lt (h u List.mem_cons_self)
    have ih := ih fun v hv => h v (List.mem_cons_of_mem _ hv)
    simp only [Bytes.ofLE] at hu ih ⊢
    simp only [List.flatMap_cons, List.cons_append, List.nil_append, units?, hu, ih, Option.map_some]

/-- The string with a given UTF-16LE form. -/
def utf16leDecode? (bytes : Bytes) : Option (List Char) := (units? bytes).bind decodeUtf16?

@[simp]
theorem utf16leDecode?_utf16le (s : List Char) : utf16leDecode? (utf16le s) = some s := by
  have hunits : ∀ u ∈ s.flatMap utf16Units, u < 0x10000 := by
    intro u hu
    obtain ⟨c, -, hc⟩ := List.mem_flatMap.mp hu
    exact utf16Units_lt c u hc
  rw [utf16leDecode?, utf16le, units?_flatMap_ofLE _ hunits, Option.bind_some,
    decodeUtf16?_flatMap_utf16Units]

theorem of_units? {bytes : Bytes} {us : List Nat} (h : units? bytes = some us)
    : us.flatMap (Bytes.ofLE 2) = bytes ∧ ∀ u ∈ us, u < 0x10000 := by
  induction bytes using units?.induct generalizing us with
  | case1 =>
    cases h
    exact ⟨rfl, fun u hu => absurd hu List.not_mem_nil⟩
  | case2 b => contradiction
  | case3 a b rest ih =>
    rw [units?, Option.map_eq_some_iff] at h
    obtain ⟨us, hus, rfl⟩ := h
    obtain ⟨hbytes, hlt⟩ := ih hus
    have hpair : Bytes.ofLE 2 (Bytes.toLE [a, b]) = [a, b] := Bytes.ofLE_toLE [a, b]
    have hunit : Bytes.toLE [a, b] < 256 ^ 2 := Bytes.toLE_lt [a, b]
    refine ⟨?_, ?_⟩
    . rw [List.flatMap_cons, hpair, hbytes]
      rfl
    . rw [List.forall_mem_cons]
      exact ⟨by omega, hlt⟩

/-- Units that decode are those of the text. -/
theorem of_decodeUtf16? {us : List Nat} {s : List Char} (hlt : ∀ u ∈ us, u < 0x10000)
    (h : decodeUtf16? us = some s)
    : s.flatMap utf16Units = us := by
  have hsingle {u : Nat} {c : Char} (hu : u < 0x10000) (hc : charOfNat? u = some c)
      : utf16Units c = [u] := by
    have heq := toNat_of_charOfNat? hc
    rw [utf16Units, if_pos (by omega), heq]
  induction us using decodeUtf16?.induct generalizing s with
  | case1 =>
    cases h
    rfl
  | case2 u =>
    rw [decodeUtf16?, Option.map_eq_some_iff] at h
    obtain ⟨c, hc, rfl⟩ := h
    rw [List.flatMap_singleton]
    exact hsingle (hlt u List.mem_cons_self) hc
  | case3 u v rest hlead htrail ih =>
    rw [decodeUtf16?, if_pos hlead, if_pos htrail, Option.bind_eq_bind,
      Option.bind_eq_some_iff] at h
    obtain ⟨c, hc, h⟩ := h
    rw [Option.bind_eq_bind, Option.bind_eq_some_iff] at h
    obtain ⟨s, hs, h⟩ := h
    cases h
    have heq := toNat_of_charOfNat? hc
    simp only [isLead, isTrail, decide_eq_true_eq] at hlead htrail
    have hunits : utf16Units c = [u, v] := by
      rw [utf16Units, if_neg (by omega), heq, List.cons.injEq, List.cons.injEq]
      exact ⟨by omega, by omega, rfl⟩
    have hrest := ih (fun u hu => hlt u (List.mem_cons_of_mem _ (List.mem_cons_of_mem _ hu))) hs
    rw [List.flatMap_cons, hunits, hrest]
    rfl
  | case4 u v rest hlead htrail =>
    rw [decodeUtf16?, if_pos hlead, if_neg htrail] at h
    contradiction
  | case5 u v rest hlead ih =>
    rw [decodeUtf16?, if_neg hlead, Option.bind_eq_bind, Option.bind_eq_some_iff] at h
    obtain ⟨c, hc, h⟩ := h
    rw [Option.bind_eq_bind, Option.bind_eq_some_iff] at h
    obtain ⟨s, hs, h⟩ := h
    cases h
    have hrest := ih (fun u hu => hlt u (List.mem_cons_of_mem _ hu)) hs
    rw [List.flatMap_cons, hsingle (hlt u List.mem_cons_self) hc, hrest]
    rfl

theorem utf16le_of_utf16leDecode? {bytes : Bytes} {s : List Char}
    (h : utf16leDecode? bytes = some s)
    : utf16le s = bytes := by
  rw [utf16leDecode?, Option.bind_eq_some_iff] at h
  obtain ⟨us, hus, hs⟩ := h
  obtain ⟨hbytes, hlt⟩ := of_units? hus
  rw [utf16le, of_decodeUtf16? hlt hs, hbytes]

theorem utf16le_append (s t : List Char) : utf16le (s ++ t) = utf16le s ++ utf16le t := by
  simp [utf16le]

end Unicode
