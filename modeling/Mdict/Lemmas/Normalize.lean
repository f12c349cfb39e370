import Mdict.Core.CaseVariants

/-!
This module contains the theory of key normalization: the length computed in advance is the length
of the text, the keys of MDX dictionaries are normalized character by character, and keys that
differ only in case are normalized alike.
-/

namespace Mdict

open Effect

/-! ## Characters -/

theorem toLower_of_isAscii {c : Char} (h : isAscii c) : isAscii c.toLower := by
  unfold Char.toLower
  split
  . next hupper =>
    have hle : c.val.toNat ≤ 90 := UInt32.le_iff_toNat_le.mp hupper.2
    have hge : 65 ≤ c.val.toNat := UInt32.le_iff_toNat_le.mp hupper.1
    simp only [isAscii, Char.toNat, UInt32.toNat_add, decide_eq_true_eq]
    have : ('a'.val - 'A'.val).toNat = 32 := by decide
    omega
  . exact h

theorem utf8Size_of_isAscii {c : Char} (h : isAscii c) : c.utf8Size = 1 := by
  have hlt : c.val.toNat < 128 := of_decide_eq_true h
  have hle : c.val ≤ 0x7F := by
    rw [UInt32.le_iff_toNat_le]
    have : (0x7F : UInt32).toNat = 127 := by decide
    omega
  exact if_pos hle

namespace KeyNormalizer

variable (n : KeyNormalizer) (p : Platform)

/-! ## Lengths -/

theorem addLengths_eq_ok {length : Nat} {characters : List Char} {total : Nat}
    (h : length < u64Bound)
    : addLengths length characters = .ok total
        ↔ total = length + (characters.map Char.utf8Size).sum ∧ total < u64Bound := by
  induction characters generalizing length with
  | nil =>
    simp only [addLengths, Except.ok.injEq, List.map_nil, List.sum_nil, Nat.add_zero]
    omega
  | cons character characters ih =>
    simp only [addLengths, except_bind_eq_ok, okOr_eq_ok, checkedAdd_eq_some, List.map_cons,
      List.sum_cons]
    constructor
    . rintro ⟨_, ⟨rfl, hlt⟩, hrest⟩
      rw [ih hlt] at hrest
      omega
    . rintro ⟨rfl, hlt⟩
      refine ⟨length + character.utf8Size, ⟨rfl, by omega⟩, ?_⟩
      rw [ih (by omega)]
      omega

theorem sum_utf8Size_lowered (character : Char)
    : ((if n.caseSensitive || isAscii character then [character]
          else p.toLowercase character).map Char.utf8Size).sum
        = (Unicode.utf8 (n.lowered p character)).length := by
  rw [Unicode.length_utf8, lowered]
  by_cases hc : n.caseSensitive
  . simp [hc]
  . cases ha : isAscii character with
    | true => simp [hc, utf8Size_of_isAscii ha, utf8Size_of_isAscii (toLower_of_isAscii ha)]
    | false => simp [hc]

theorem normalizedLenFrom_eq_ok {length : Nat} {atPathStart : Bool} {raw : Str} {total : Nat}
    (h : length < u64Bound)
    : n.normalizedLenFrom p length atPathStart raw = .ok total
        ↔ total = length + (Unicode.utf8 (n.normalizeFrom p atPathStart raw)).length
          ∧ total < u64Bound := by
  induction raw generalizing length atPathStart with
  | nil =>
    simp only [normalizedLenFrom, normalizeFrom, Except.ok.injEq, Unicode.utf8_nil,
      List.length_nil, Nat.add_zero]
    omega
  | cons character raw ih =>
    unfold normalizedLenFrom normalizeFrom
    split
    . exact ih h
    . split
      . exact ih h
      . simp only [except_bind_eq_ok, addLengths_eq_ok h, sum_utf8Size_lowered, Unicode.utf8_append,
          List.length_append]
        constructor
        . rintro ⟨middle, ⟨rfl, hlt⟩, hrest⟩
          rw [ih hlt] at hrest
          omega
        . rintro ⟨rfl, hlt⟩
          refine ⟨_, ⟨rfl, by omega⟩, ?_⟩
          rw [ih (by omega)]
          omega

/-- The length computed in advance is the length of the text. -/
theorem normalizedLen_eq_ok {raw : Str} {total : Nat}
    : n.normalizedLen p raw = .ok total
        ↔ total = (Unicode.utf8 (n.normalizeText p raw)).length ∧ total < u64Bound := by
  rw [normalizedLen, normalizedLenFrom_eq_ok n p (by decide), Nat.zero_add]
  rfl

theorem normalizedLen_of_lt {raw : Str}
    (h : (Unicode.utf8 (n.normalizeText p raw)).length < u64Bound)
    : n.normalizedLen p raw = .ok (Unicode.utf8 (n.normalizeText p raw)).length := by
  rw [normalizedLen_eq_ok]
  exact ⟨rfl, h⟩

theorem normalize_of_lt {raw : Str}
    (h : (Unicode.utf8 (n.normalizeText p raw)).length < u64Bound)
    : n.normalize p raw = .ok (n.normalizeText p raw) := by
  rw [normalize, normalizedLen_of_lt n p h]
  rfl

theorem normalize_eq_ok {raw text : Str} (h : n.normalize p raw = .ok text)
    : text = n.normalizeText p raw := by
  simp only [normalize, except_bind_eq_ok, except_pure_eq_ok] at h
  obtain ⟨_, -, rfl⟩ := h
  rfl

/-- The bytes that a build writes are the UTF-8 form of the text. -/
theorem normalizeBytesFrom_eq (atPathStart : Bool) (raw : Str)
    : n.normalizeBytesFrom p atPathStart raw = Unicode.utf8 (n.normalizeFrom p atPathStart raw) := by
  induction raw generalizing atPathStart with
  | nil => rfl
  | cons character raw ih =>
    unfold normalizeBytesFrom normalizeFrom
    split
    . exact ih atPathStart
    . split
      . exact ih false
      . rw [Unicode.utf8_append, ← ih]
        rfl

theorem normalizeBytes_eq (raw : Str)
    : n.normalizeBytes p raw = Unicode.utf8 (n.normalizeText p raw) :=
  normalizeBytesFrom_eq n p true raw

/-! ## Buffers -/

theorem foldl_normalizeIntoRound (atPathStart : Bool) (out raw : Str)
    : (raw.foldl (n.normalizeIntoRound p) (atPathStart, out)).2
        = out ++ n.normalizeFrom p atPathStart raw := by
  induction raw generalizing atPathStart out with
  | nil => exact (List.append_nil out).symm
  | cons character raw ih =>
    rw [List.foldl_cons, normalizeIntoRound, normalizeFrom]
    dsimp only
    split
    . exact ih atPathStart out
    . split
      . exact ih false out
      . rw [ih, List.append_assoc]

/-- The loop appends the normalized text to whatever the buffer holds. -/
theorem normalizeInto_eq (raw out : Str) : n.normalizeInto p raw out = out ++ n.normalizeText p raw :=
  foldl_normalizeIntoRound n p true out raw

theorem normalizeBytesIntoRound_eq (atPathStart : Bool) (out : Bytes) (character : Char)
    : n.normalizeBytesIntoRound p (atPathStart, out) character
        = if n.isLeadingSeparator atPathStart character then (atPathStart, out)
          else if !n.retains character then (false, out)
          else (false, out ++ Unicode.utf8 (n.lowered p (n.separator character))) := by
  have hfold (characters : Str) (out : Bytes)
      : characters.foldl (fun out normalized => out ++ String.utf8EncodeChar normalized) out
        = out ++ Unicode.utf8 characters := by
    induction characters generalizing out with
    | nil => exact (List.append_nil out).symm
    | cons c characters ih => rw [List.foldl_cons, ih, Unicode.utf8_cons, List.append_assoc]
  unfold normalizeBytesIntoRound
  dsimp only
  split
  . rfl
  . split
    . rfl
    . rw [lowered]
      split
      . rw [Unicode.utf8_cons, Unicode.utf8_nil, List.append_nil]
      . rw [hfold]

theorem foldl_normalizeBytesIntoRound (atPathStart : Bool) (out : Bytes) (raw : Str)
    : (raw.foldl (n.normalizeBytesIntoRound p) (atPathStart, out)).2
        = out ++ Unicode.utf8 (n.normalizeFrom p atPathStart raw) := by
  induction raw generalizing atPathStart out with
  | nil => exact (List.append_nil out).symm
  | cons character raw ih =>
    rw [List.foldl_cons, normalizeBytesIntoRound_eq, normalizeFrom]
    split
    . exact ih atPathStart out
    . split
      . exact ih false out
      . rw [ih, Unicode.utf8_append, List.append_assoc]

theorem normalizeBytesInto_eq (raw : Str) (out : Bytes)
    : n.normalizeBytesInto p raw out = out ++ Unicode.utf8 (n.normalizeText p raw) :=
  foldl_normalizeBytesIntoRound n p true out raw

/-- An ASCII text does not grow. -/
theorem length_normalizeFrom_le (atPathStart : Bool) {raw : Str} (h : raw.isAscii)
    : (Unicode.utf8 (n.normalizeFrom p atPathStart raw)).length ≤ (Unicode.utf8 raw).length := by
  induction raw generalizing atPathStart with
  | nil => exact Nat.le_refl _
  | cons character raw ih =>
    rw [Str.isAscii, List.all_cons, Bool.and_eq_true] at h
    obtain ⟨hcharacter, hraw⟩ := h
    rw [normalizeFrom, Unicode.utf8_cons, List.length_append]
    split
    . have := ih atPathStart hraw
      omega
    . split
      . have := ih false hraw
        omega
      . have hseparator : isAscii (n.separator character) := by
          rw [separator]
          split
          . rfl
          . exact hcharacter
        have hlen := sum_utf8Size_lowered n p (n.separator character)
        rw [hseparator, Bool.or_true, if_pos rfl, List.map_singleton, List.sum_singleton,
          utf8Size_of_isAscii hseparator] at hlen
        have hsize := Unicode.length_utf8 [character]
        rw [List.map_singleton, List.sum_singleton, utf8Size_of_isAscii hcharacter,
          Unicode.utf8_cons, Unicode.utf8_nil, List.append_nil] at hsize
        rw [Unicode.utf8_append, List.length_append, ← hlen, hsize]
        have := ih false hraw
        omega

theorem length_normalizeText_le {raw : Str} (h : raw.isAscii)
    : (Unicode.utf8 (n.normalizeText p raw)).length ≤ (Unicode.utf8 raw).length :=
  length_normalizeFrom_le n p true h

/-- The only failure of the length is that it is no machine number. -/
theorem normalizedLenFrom_of_ge {length : Nat} {atPathStart : Bool} {raw : Str}
    (h : length < u64Bound)
    (hge : u64Bound ≤ length + (Unicode.utf8 (n.normalizeFrom p atPathStart raw)).length)
    : n.normalizedLenFrom p length atPathStart raw
        = .error (.invalidFormat "normalized key length overflow") := by
  have hadd (characters : List Char) (length : Nat) (hlength : length < u64Bound)
      (hge : u64Bound ≤ length + (characters.map Char.utf8Size).sum)
      : addLengths length characters = .error (.invalidFormat "normalized key length overflow") := by
    induction characters generalizing length with
    | nil =>
      rw [List.map_nil, List.sum_nil] at hge
      omega
    | cons character characters ih =>
      rw [List.map_cons, List.sum_cons] at hge
      rw [addLengths]
      by_cases hlt : length + character.utf8Size < u64Bound
      . rw [checkedAdd_eq_some.mpr ⟨rfl, hlt⟩, okOr_some, except_ok_bind]
        exact ih _ hlt (by omega)
      . rw [checkedAdd_eq_none.mpr (by omega)]
        rfl
  induction raw generalizing length atPathStart with
  | nil =>
    rw [normalizeFrom, Unicode.utf8_nil, List.length_nil] at hge
    omega
  | cons character raw ih =>
    rw [normalizeFrom] at hge
    rw [normalizedLenFrom]
    split
    . next hleading =>
      rw [if_pos hleading] at hge
      exact ih h hge
    . next hleading =>
      rw [if_neg hleading] at hge
      split
      . next hretains =>
        rw [if_pos hretains] at hge
        exact ih h hge
      . next hretains =>
        rw [if_neg hretains, Unicode.utf8_append, List.length_append] at hge
        dsimp only
        have hsum := sum_utf8Size_lowered n p (n.separator character)
        by_cases hlt : length + (Unicode.utf8 (n.lowered p (n.separator character))).length < u64Bound
        . rw [(addLengths_eq_ok h).mpr ⟨rfl, by omega⟩, except_ok_bind]
          exact ih (by omega) (by omega)
        . rw [hadd _ _ h (by omega)]
          rfl

/-! ## Character by character -/

section Text

variable {n} {p}

/-- What normalization makes of one character of a dictionary key. -/
def normalizeChar (n : KeyNormalizer) (p : Platform) (character : Char) : Str :=
  if n.retains character then n.lowered p character else []

theorem normalizeFrom_eq_flatMap (h : n.resourcePath = false) (atPathStart : Bool) (raw : Str)
    : n.normalizeFrom p atPathStart raw = raw.flatMap (n.normalizeChar p) := by
  induction raw generalizing atPathStart with
  | nil => rfl
  | cons character raw ih =>
    have hleading : n.isLeadingSeparator atPathStart character = false := by
      simp [isLeadingSeparator, h]
    have hseparator : n.separator character = character := by
      simp [separator, h]
    rw [normalizeFrom, hleading, hseparator, List.flatMap_cons, normalizeChar]
    cases n.retains character with
    | true => simp [ih]
    | false => simp [ih]

theorem normalizeText_eq_flatMap (h : n.resourcePath = false) (raw : Str)
    : n.normalizeText p raw = raw.flatMap (n.normalizeChar p) :=
  normalizeFrom_eq_flatMap h true raw

/-- Normalization keeps prefixes. -/
theorem normalizeText_isPrefix (h : n.resourcePath = false) {start raw : Str} (hs : start <+: raw)
    : n.normalizeText p start <+: n.normalizeText p raw := by
  obtain ⟨rest, rfl⟩ := hs
  rw [normalizeText_eq_flatMap h, normalizeText_eq_flatMap h, List.flatMap_append]
  exact List.prefix_append _ _

end Text

end KeyNormalizer

/-! ## Case -/

/--
What is assumed of the Unicode tables: on ASCII they agree with ASCII lower case, and no other
character becomes ASCII punctuation.
-/
structure Platform.LowercaseTables (p : Platform) : Prop where
  ascii : ∀ c, isAscii c → p.toLowercase c = [c.toLower]
  nonAscii : ∀ c, isAscii c = false → ∀ d ∈ p.toLowercase c, isAscii d → d.isAlphanum

section Case

variable {p : Platform}

theorem Str.toLowercase_of_isAscii (hp : p.LowercaseTables) {s : Str} (h : s.isAscii)
    : s.toLowercase p = s.map Char.toLower := by
  induction s with
  | nil => rfl
  | cons c s ih =>
    simp only [Str.isAscii, List.all_cons, Bool.and_eq_true] at h
    rw [Str.toLowercase, List.flatMap_cons, hp.ascii c h.1, List.map_cons]
    rw [← ih h.2]
    rfl

/-- The comparison that ignores case compares lower case forms. -/
theorem equalIgnoringCase_iff (hp : p.LowercaseTables) (left right : Str)
    : equalIgnoringCase p left right ↔ left.toLowercase p = right.toLowercase p := by
  unfold equalIgnoringCase
  split
  . next h =>
    simp only [Bool.and_eq_true] at h
    rw [Str.toLowercase_of_isAscii hp h.1, Str.toLowercase_of_isAscii hp h.2]
    simp [Str.eqIgnoreAsciiCase]
  . simp

theorem isAlphanum_toLower {c : Char} (h : isAscii c) : c.toLower.isAlphanum = c.isAlphanum := by
  have hall : ∀ n : Fin 128, (Char.ofNat n).toLower.isAlphanum = (Char.ofNat n).isAlphanum := by
    decide +kernel
  have hlt : c.toNat < 128 := of_decide_eq_true h
  have := hall ⟨c.toNat, hlt⟩
  simpa using this

namespace KeyNormalizer

variable {n : KeyNormalizer}

/-- Without regard to case, a key is normalized by dropping characters of its lower case form. -/
theorem normalizeChar_eq_filter (hp : p.LowercaseTables) (hcase : n.caseSensitive = false)
    (c : Char)
    : n.normalizeChar p c = (p.toLowercase c).filter n.retains := by
  cases ha : isAscii c with
  | true =>
    have hretains : n.retains c.toLower = n.retains c := by
      rw [retains, retains, toLower_of_isAscii ha, ha, isAlphanum_toLower ha]
    rw [hp.ascii c ha, normalizeChar]
    cases hr : n.retains c with
    | true =>
      rw [List.filter_cons_of_pos (by rw [hretains, hr])]
      simp [lowered, hcase, ha]
    | false =>
      rw [List.filter_cons_of_neg (by rw [hretains, hr]; simp)]
      rfl
  | false =>
    have hr : n.retains c := by simp [retains, ha]
    rw [normalizeChar, if_pos hr, eq_comm, lowered]
    simp only [hcase, ha, Bool.or_self, Bool.false_eq_true, if_false]
    rw [List.filter_eq_self]
    intro d hd
    cases had : isAscii d with
    | true => simp [retains, hp.nonAscii c ha d hd had]
    | false => simp [retains, had]

theorem normalizeText_eq_filter (hp : p.LowercaseTables) (hcase : n.caseSensitive = false)
    (hpath : n.resourcePath = false) (s : Str)
    : n.normalizeText p s = (s.toLowercase p).filter n.retains := by
  rw [normalizeText_eq_flatMap hpath, Str.toLowercase, List.filter_flatMap]
  apply List.flatMap_congr
  intro c _
  exact normalizeChar_eq_filter hp hcase c

/-- Keys that differ only in case are normalized alike. -/
theorem normalizeText_eq_of_toLowercase_eq (hp : p.LowercaseTables)
    (hcase : n.caseSensitive = false) (hpath : n.resourcePath = false) {s t : Str}
    (h : s.toLowercase p = t.toLowercase p)
    : n.normalizeText p s = n.normalizeText p t := by
  rw [normalizeText_eq_filter hp hcase hpath, normalizeText_eq_filter hp hcase hpath, h]

end KeyNormalizer

end Case

end Mdict
