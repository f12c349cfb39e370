import Mathlib.Data.List.Range

/-!
This module contains the complete blocks of a list, of `n` elements each, and folds over them.
-/

namespace Blocks

variable {α β : Type} {n : Nat}

/-- The complete blocks of `n` elements; what is left at the end is not among them. -/
def blocks (n : Nat) (xs : List α) : List (List α) :=
  (List.range (xs.length / n)).map fun i => (xs.drop (n * i)).take n

theorem blocks_of_lt {xs : List α} (h : xs.length < n) : blocks n xs = [] := by
  rw [blocks, Nat.div_eq_of_lt h]
  rfl

theorem length_of_mem_blocks {xs block : List α} (h : block ∈ blocks n xs) : block.length = n := by
  rw [blocks, List.mem_map] at h
  obtain ⟨i, hi, rfl⟩ := h
  rw [List.mem_range] at hi
  have hle : n * (i + 1) ≤ xs.length := by
    calc n * (i + 1) ≤ n * (xs.length / n) := Nat.mul_le_mul_left n hi
      _ ≤ xs.length := Nat.mul_div_le xs.length n
  rw [Nat.mul_succ] at hle
  rw [List.length_take, List.length_drop]
  omega

/-- The first block and those behind it. -/
theorem blocks_append_of_length {block rest : List α} (hn : 0 < n) (h : block.length = n)
    : blocks n (block ++ rest) = block :: blocks n rest := by
  have hcount : (block ++ rest).length / n = rest.length / n + 1 := by
    rw [List.length_append, h, Nat.add_div_left _ hn]
  unfold blocks
  rw [hcount, List.range_succ_eq_map, List.map_cons, List.map_map]
  congr 1
  . rw [Nat.mul_zero, List.drop_zero, ← h, List.take_left]
  . apply List.map_congr_left
    intro i _
    have hdrop : n * (i + 1) = block.length + n * i := by
      rw [h, Nat.mul_succ, Nat.add_comm]
    change ((block ++ rest).drop (n * (i + 1))).take n = _
    rw [hdrop, ← List.drop_drop, List.drop_left]

/-- The blocks of two lists, the first of which leaves nothing over. -/
theorem blocks_append {xs ys : List α} (hn : 0 < n) {k : Nat} (h : xs.length = n * k)
    : blocks n (xs ++ ys) = blocks n xs ++ blocks n ys := by
  induction k generalizing xs with
  | zero =>
    rw [Nat.mul_zero, List.length_eq_zero_iff] at h
    have hnil : ([] : List α).length < n := hn
    rw [h, blocks_of_lt hnil, List.nil_append, List.nil_append]
  | succ k ih =>
    rw [Nat.mul_succ] at h
    have hblock : (xs.take n).length = n := by
      rw [List.length_take]
      omega
    have hrest : (xs.drop n).length = n * k := by
      rw [List.length_drop]
      omega
    rw [← List.take_append_drop n xs, List.append_assoc, blocks_append_of_length hn hblock,
      blocks_append_of_length hn hblock, ih hrest, List.cons_append]

end Blocks
