import Mathlib.Data.List.Lex
import Mathlib.Order.Basic
import Mathlib.Tactic.Ring

/-!
This module contains what the development needs about byte strings: fixed width integers in both
byte orders, slices, and the lexicographic order with its interplay with prefixes.
-/

/--
A byte string.
-/
abbrev Bytes := List UInt8

instance instLinearOrderUInt8 : LinearOrder UInt8 where
  le_refl a := by simp only [UInt8.le_iff_toNat_le, Nat.le_refl]
  le_trans a b c hab hbc := by
    simp only [UInt8.le_iff_toNat_le] at *
    omega
  le_antisymm a b hab hba := by
    simp only [UInt8.le_iff_toNat_le] at *
    exact UInt8.toNat_inj.mp (by omega)
  le_total a b := by
    simp only [UInt8.le_iff_toNat_le]
    omega
  lt_iff_le_not_ge a b := by
    simp only [UInt8.le_iff_toNat_le, UInt8.lt_iff_toNat_lt]
    omega
  toDecidableLE := inferInstance
  toDecidableEq := inferInstance
  toDecidableLT := inferInstance

namespace Bytes

/-! ## Integers -/

/-- The `n` lowest bytes of `v`, least significant first. -/
def ofLE : (n : Nat) → (v : Nat) → Bytes
  | 0, _ => []
  | n + 1, v => UInt8.ofNat v :: ofLE n (v / 256)

/-- The number with the given bytes, least significant first. -/
def toLE : Bytes → Nat
  | [] => 0
  | b :: bs => b.toNat + 256 * toLE bs

/-- The `n` lowest bytes of `v`, most significant first. -/
def ofBE (n v : Nat) : Bytes := (ofLE n v).reverse

/-- The number with the given bytes, most significant first. -/
def toBE (bytes : Bytes) : Nat := toLE bytes.reverse

@[simp]
theorem length_ofLE (n v : Nat) : (ofLE n v).length = n := by
  induction n generalizing v with
  | zero => rfl
  | succ n ih => simp [ofLE, ih]

@[simp]
theorem length_ofBE (n v : Nat) : (ofBE n v).length = n := by
  simp [ofBE]

theorem toLE_ofLE (n v : Nat) : toLE (ofLE n v) = v % 256 ^ n := by
  induction n generalizing v with
  | zero => simp [ofLE, toLE, Nat.mod_one]
  | succ n ih =>
    have hb : (UInt8.ofNat v).toNat = v % 256 := by simp
    rw [ofLE, toLE, ih, hb, pow_succ', Nat.mod_mul]

theorem toLE_ofLE_of_lt {n v : Nat} (h : v < 256 ^ n) : toLE (ofLE n v) = v := by
  rw [toLE_ofLE, Nat.mod_eq_of_lt h]

theorem toBE_ofBE_of_lt {n v : Nat} (h : v < 256 ^ n) : toBE (ofBE n v) = v := by
  rw [toBE, ofBE, List.reverse_reverse, toLE_ofLE_of_lt h]

/-- Bytes are the number they stand for, written in their width. -/
theorem ofLE_toLE (bytes : Bytes) : ofLE bytes.length (toLE bytes) = bytes := by
  induction bytes with
  | nil => rfl
  | cons b bs ih =>
    have hb : b.toNat < 256 := b.toNat_lt
    have hdiv : (b.toNat + 256 * toLE bs) / 256 = toLE bs := by omega
    have hfirst : UInt8.ofNat (b.toNat + 256 * toLE bs) = b := by
      rw [← UInt8.toNat_inj, UInt8.toNat_ofNat']
      omega
    rw [toLE, List.length_cons, ofLE, hdiv, hfirst, ih]

theorem ofBE_toBE (bytes : Bytes) : ofBE bytes.length (toBE bytes) = bytes := by
  have h := ofLE_toLE bytes.reverse
  rw [List.length_reverse] at h
  rw [ofBE, toBE, h, List.reverse_reverse]

theorem toLE_lt (bytes : Bytes) : toLE bytes < 256 ^ bytes.length := by
  induction bytes with
  | nil => simp [toLE]
  | cons b bs ih =>
    have hb : b.toNat < 256 := b.toNat_lt
    rw [toLE, List.length_cons, pow_succ]
    omega

theorem toBE_lt (bytes : Bytes) : toBE bytes < 256 ^ bytes.length := by
  have h := toLE_lt bytes.reverse
  rwa [List.length_reverse] at h

/-! ## Slices -/

/--
The bytes from `start` up to `stop`, or nothing when the range is inverted or leaves the string.
-/
def get? (bytes : Bytes) (start stop : Nat) : Option Bytes :=
  if start ≤ stop ∧ stop ≤ bytes.length then
    some ((bytes.drop start).take (stop - start))
  else
    none

theorem get?_eq_some_iff {bytes part : Bytes} {start stop : Nat}
    : bytes.get? start stop = some part
        ↔
      start ≤ stop ∧ stop ≤ bytes.length ∧ part = (bytes.drop start).take (stop - start) := by
  unfold get?
  split
  . next h =>
    constructor
    . intro heq
      injection heq with heq
      exact ⟨h.1, h.2, heq.symm⟩
    . intro heq
      rw [heq.2.2]
  . next h =>
    constructor
    . intro heq
      contradiction
    . intro heq
      exact absurd ⟨heq.1, heq.2.1⟩ h

theorem length_of_get? {bytes part : Bytes} {start stop : Nat}
    (h : bytes.get? start stop = some part)
    : part.length = stop - start := by
  obtain ⟨h1, h2, rfl⟩ := get?_eq_some_iff.mp h
  simp only [List.length_take, List.length_drop]
  omega

theorem get?_append_append (a b c : Bytes)
    : (a ++ b ++ c).get? a.length (a.length + b.length) = some b := by
  rw [get?_eq_some_iff]
  refine ⟨by omega, by simp only [List.length_append]; omega, ?_⟩
  simp

/-- A slice of a slice is a slice. -/
theorem get?_trans {bytes part piece : Bytes} {start stop i j : Nat}
    (h : bytes.get? start stop = some part) (h' : part.get? i j = some piece)
    : bytes.get? (start + i) (start + j) = some piece := by
  have hlen := length_of_get? h
  obtain ⟨h1, h2, rfl⟩ := get?_eq_some_iff.mp h
  obtain ⟨h3, h4, rfl⟩ := get?_eq_some_iff.mp h'
  rw [get?_eq_some_iff]
  refine ⟨by omega, by omega, ?_⟩
  rw [List.drop_take, List.take_take, List.drop_drop]
  congr 1
  omega

end Bytes

/-! ## Prefixes in the lexicographic order -/

namespace List

variable {α : Type} [LinearOrder α]

theorem not_lt_of_isPrefix {p l : List α} (h : p <+: l) : ¬ l < p := by
  obtain ⟨t, rfl⟩ := h
  induction p with
  | nil => exact List.not_lt_nil _
  | cons a p ih =>
    rw [List.cons_append, List.cons_lt_cons_iff]
    rintro (h | h)
    . exact lt_irrefl a h
    . exact ih h.2

/--
Between a string and one of its extensions there are only extensions.
-/
theorem isPrefix_of_not_lt {p l l' : List α} (hp : p <+: l') (h1 : ¬ l < p) (h2 : ¬ l' < l)
    : p <+: l := by
  obtain ⟨t, rfl⟩ := hp
  induction p generalizing l with
  | nil => exact List.nil_prefix
  | cons a p ih =>
    cases l with
    | nil => exact absurd (List.nil_lt_cons a p) h1
    | cons b l =>
      rw [List.cons_lt_cons_iff, not_or] at h1
      rw [List.cons_append, List.cons_lt_cons_iff, not_or] at h2
      have hab : b = a := le_antisymm (not_lt.mp h2.1) (not_lt.mp h1.1)
      subst hab
      refine List.cons_prefix_cons.mpr ⟨rfl, ih ?_ ?_⟩
      . exact fun h => h1.2 ⟨rfl, h⟩
      . exact fun h => h2.2 ⟨rfl, h⟩

end List
