import Mdict.Format.Common.Checksum
import Mathlib.Tactic.Linarith

/-!
This module contains that the checksum of a string may be computed piece by piece.
-/

namespace Mdict

/-- Both sums reduced. -/
def reduceSums (sums : Nat × Nat) : Nat × Nat := (sums.1 % modAdler, sums.2 % modAdler)

@[simp]
theorem reduceSums_reduceSums (sums : Nat × Nat) : reduceSums (reduceSums sums) = reduceSums sums := by
  simp only [reduceSums, Nat.mod_mod]

theorem adlerSums_append (sums : Nat × Nat) (xs ys : Bytes)
    : adlerSums sums (xs ++ ys) = adlerSums (adlerSums sums xs) ys := by
  rw [adlerSums, List.foldl_append]
  rfl

/-- Reducing before or after some more bytes makes no difference. -/
theorem reduceSums_adlerSums (sums : Nat × Nat) (bytes : Bytes)
    : reduceSums (adlerSums (reduceSums sums) bytes) = reduceSums (adlerSums sums bytes) := by
  induction bytes generalizing sums with
  | nil => exact reduceSums_reduceSums sums
  | cons byte bytes ih =>
    obtain ⟨a, b⟩ := sums
    change reduceSums (adlerSums (a % modAdler + byte.toNat,
      b % modAdler + (a % modAdler + byte.toNat)) bytes)
        = reduceSums (adlerSums (a + byte.toNat, b + (a + byte.toNat)) bytes)
    rw [← ih, ← ih (a + byte.toNat, _)]
    congr 2
    simp only [reduceSums, Prod.mk.injEq, modAdler]
    omega

theorem adlerBlocks_eq {sums : Nat × Nat} (h : reduceSums sums = sums) (bytes : Bytes)
    : adlerBlocks sums bytes = reduceSums (adlerSums sums bytes) := by
  induction hn : bytes.length using Nat.strongRecOn generalizing sums bytes with
  | ind n ih =>
    unfold adlerBlocks
    split
    . next hempty =>
      rw [List.length_eq_zero_iff.mp hempty]
      exact h.symm
    . next hne =>
      change adlerBlocks (reduceSums (adlerSums sums (bytes.take reductionBlockBytes)))
        (bytes.drop reductionBlockBytes) = _
      have hlt : (bytes.drop reductionBlockBytes).length < n := by
        rw [List.length_drop, reductionBlockBytes]
        omega
      rw [ih _ hlt (reduceSums_reduceSums _) _ rfl, reduceSums_adlerSums, ← adlerSums_append,
        List.take_append_drop]

theorem reduceSums_adlerBlocks {sums : Nat × Nat} (h : reduceSums sums = sums) (bytes : Bytes)
    : reduceSums (adlerBlocks sums bytes) = adlerBlocks sums bytes := by
  rw [adlerBlocks_eq h, reduceSums_reduceSums]

/-- The checksum of a concatenation, piece by piece. -/
theorem adlerBlocks_append {sums : Nat × Nat} (h : reduceSums sums = sums) (xs ys : Bytes)
    : adlerBlocks sums (xs ++ ys) = adlerBlocks (adlerBlocks sums xs) ys := by
  rw [adlerBlocks_eq h, adlerSums_append, adlerBlocks_eq (reduceSums_adlerBlocks h xs),
    adlerBlocks_eq h, reduceSums_adlerSums]

theorem adler32_lt (bytes : Bytes) : adler32 bytes < u32Bound := by
  have hreduced := @reduceSums_adlerBlocks (1, 0) rfl bytes
  rw [adler32]
  generalize adlerBlocks (1, 0) bytes = sums at hreduced
  obtain ⟨a, b⟩ := sums
  rw [reduceSums, Prod.mk.injEq] at hreduced
  have ha : a < modAdler := hreduced.1 ▸ Nat.mod_lt _ (by decide)
  have hb : b < modAdler := hreduced.2 ▸ Nat.mod_lt _ (by decide)
  rw [modAdler] at ha hb
  rw [u32Bound]
  dsimp only
  omega

/-! ## Machine arithmetic -/

/-- Sums that are reduced modulo the prime. -/
def Reduced (sums : Nat × Nat) : Prop := sums.1 < modAdler ∧ sums.2 < modAdler

theorem reduced_reduceSums (sums : Nat × Nat) : Reduced (reduceSums sums) :=
  ⟨Nat.mod_lt _ (by decide), Nat.mod_lt _ (by decide)⟩

theorem Reduced.reduceSums_eq {sums : Nat × Nat} (h : Reduced sums) : reduceSums sums = sums := by
  rw [reduceSums, Nat.mod_eq_of_lt h.1, Nat.mod_eq_of_lt h.2]

theorem Reduced.adlerBlocks {sums : Nat × Nat} (h : Reduced sums) (bytes : Bytes)
    : Reduced (adlerBlocks sums bytes) := by
  rw [adlerBlocks_eq h.reduceSums_eq]
  exact reduced_reduceSums _

/--
No addition overflows while the second sum stays small: after `n` bytes it has grown by the first
sum `n` times and by at most 255 for each byte and every byte from it on.
-/
theorem adlerSumsU32_eq {sums : Nat × Nat} {bytes : Bytes}
    (h : 2 * sums.2 + 2 * bytes.length * sums.1 + 255 * (bytes.length * (bytes.length + 1))
      < 2 * u32Bound)
    : adlerSumsU32 sums bytes = some (adlerSums sums bytes) := by
  induction bytes generalizing sums with
  | nil => rfl
  | cons byte bytes ih =>
    obtain ⟨a, b⟩ := sums
    have hbyte : byte.toNat ≤ 255 := Nat.le_of_lt_succ byte.toNat_lt
    rw [List.length_cons] at h
    generalize hn : bytes.length = n at h ih
    have hgrown : 2 * (b + (a + byte.toNat)) + 2 * n * (a + byte.toNat) + 255 * (n * (n + 1))
        ≤ 2 * b + 2 * (n + 1) * a + 255 * ((n + 1) * (n + 1 + 1)) := by
      nlinarith
    have ha : a + byte.toNat < u32Bound := by
      nlinarith
    have hb : b + (a + byte.toNat) < u32Bound := by
      nlinarith
    have hstep : adlerSumsU32 (a, b) (byte :: bytes)
        = adlerSumsU32 (a + byte.toNat, b + (a + byte.toNat)) bytes := by
      have hstep : (do
          let a ← toU32? (a + byte.toNat)
          let b ← toU32? (b + a)
          return (a, b)) = some (a + byte.toNat, b + (a + byte.toNat)) := by
        rw [toU32?, if_pos ha]
        change (toU32? (b + (a + byte.toNat)) >>= fun b => some (a + byte.toNat, b)) = _
        rw [toU32?, if_pos hb]
        rfl
      rw [adlerSumsU32, List.foldlM_cons]
      dsimp only
      rw [hstep]
      rfl
    rw [hstep]
    exact ih (Nat.lt_of_le_of_lt hgrown h)

theorem adlerBlocksU32_eq {sums : Nat × Nat} (h : Reduced sums) (bytes : Bytes)
    : adlerBlocksU32 sums bytes = some (adlerBlocks sums bytes) := by
  induction hn : bytes.length using Nat.strongRecOn generalizing sums bytes with
  | ind n ih =>
    unfold adlerBlocksU32 Mdict.adlerBlocks
    split
    . rfl
    . next hne =>
      have hlt : (bytes.drop reductionBlockBytes).length < n := by
        rw [List.length_drop, reductionBlockBytes]
        omega
      -- A block from reduced sums just fits.
      have hblock : adlerSumsU32 sums (bytes.take reductionBlockBytes)
          = some (adlerSums sums (bytes.take reductionBlockBytes)) := by
        apply adlerSumsU32_eq
        have hlen : (bytes.take reductionBlockBytes).length ≤ 5552 := List.length_take_le _ _
        obtain ⟨ha, hb⟩ := h
        rw [modAdler] at ha hb
        rw [u32Bound]
        nlinarith
      rw [hblock]
      exact ih _ hlt (reduced_reduceSums _) _ rfl

theorem foldlM_adlerBlocksU32 {sums : Nat × Nat} (h : Reduced sums) (pieces : List Bytes)
    : pieces.foldlM adlerBlocksU32 sums = some (adlerBlocks sums pieces.flatten) := by
  induction pieces generalizing sums with
  | nil =>
    rw [List.flatten_nil, Mdict.adlerBlocks]
    rfl
  | cons piece pieces ih =>
    rw [List.foldlM_cons, adlerBlocksU32_eq h, List.flatten_cons,
      adlerBlocks_append h.reduceSums_eq]
    exact ih (h.adlerBlocks piece)

theorem foldl_adlerBlocks {sums : Nat × Nat} (h : Reduced sums) (pieces : List Bytes)
    : pieces.foldl adlerBlocks sums = adlerBlocks sums pieces.flatten := by
  induction pieces generalizing sums with
  | nil =>
    rw [List.flatten_nil, Mdict.adlerBlocks]
    rfl
  | cons piece pieces ih =>
    rw [List.foldl_cons, List.flatten_cons, adlerBlocks_append h.reduceSums_eq]
    exact ih (h.adlerBlocks piece)

theorem finishAdlerU32_eq {sums : Nat × Nat} (h : Reduced sums)
    : finishAdlerU32 sums = sums.2 * 2 ^ 16 + sums.1 := by
  obtain ⟨ha, hb⟩ := h
  rw [modAdler] at ha hb
  rw [finishAdlerU32, Nat.shiftLeft_eq, Nat.mod_eq_of_lt (by rw [u32Bound]; omega),
    ← Nat.shiftLeft_eq, Nat.shiftLeft_add_eq_or_of_lt (by omega)]

/-- Reducing after every byte gives the same sums. -/
theorem bytewiseSums_eq (bytes : Bytes) : bytewiseSums bytes = adlerBlocks (1, 0) bytes := by
  have hfold (sums : Nat × Nat) (bytes : Bytes)
      : bytes.foldl (fun sums byte =>
          let a := (sums.1 + byte.toNat) % modAdler
          (a, (sums.2 + a) % modAdler)) (reduceSums sums)
        = reduceSums (adlerSums sums bytes) := by
    induction bytes generalizing sums with
    | nil => rfl
    | cons byte bytes ih =>
      obtain ⟨a, b⟩ := sums
      rw [List.foldl_cons]
      have hstep := ih (a + byte.toNat, b + (a + byte.toNat))
      simp only [reduceSums] at hstep ⊢
      rw [Nat.mod_add_mod, Nat.mod_add_mod, Nat.add_mod_mod]
      exact hstep
  rw [adlerBlocks_eq rfl]
  exact hfold (1, 0) bytes

end Mdict
