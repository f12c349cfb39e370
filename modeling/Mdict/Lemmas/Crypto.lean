import Mdict.Format.Common.CryptoStrict

/-!
This module contains that RIPEMD-128 never indexes or slices out of range, and which blocks it
compresses.
-/

namespace Mdict

open Effect Blocks

/-! ## Loops that cannot fail -/

theorem foldlM_eq_ok {α β : Type} {f : β → α → Except Error β} {g : β → α → β} {xs : List α}
    (h : ∀ b, ∀ a ∈ xs, f b a = .ok (g b a)) (b : β)
    : xs.foldlM f b = .ok (xs.foldl g b) := by
  induction xs generalizing b with
  | nil => rfl
  | cons x xs ih =>
    rw [List.foldlM_cons, h b x List.mem_cons_self, except_ok_bind, List.foldl_cons]
    exact ih (fun b a ha => h b a (List.mem_cons_of_mem _ ha)) _

theorem mapM_eq_ok {α β : Type} {f : α → Except Error β} {g : α → β} {xs : List α}
    (h : ∀ a ∈ xs, f a = .ok (g a))
    : xs.mapM f = .ok (xs.map g) := by
  induction xs with
  | nil => rfl
  | cons x xs ih =>
    rw [List.mapM_cons, h x List.mem_cons_self, except_ok_bind,
      ih fun a ha => h a (List.mem_cons_of_mem _ ha)]
    rfl

/-! ## Compression -/

theorem length_wordsOfLE (n : Nat) (bytes : Bytes) : (wordsOfLE n bytes).length = n := by
  induction n generalizing bytes with
  | zero => rfl
  | succ n ih => rw [wordsOfLE, List.length_cons, ih]

theorem wordsOfLE_eq_map (n : Nat) (bytes : Bytes)
    : wordsOfLE n bytes = (List.range n).map fun i => wordOfLE (bytes.drop (i * 4)) := by
  induction n generalizing bytes with
  | zero => rfl
  | succ n ih =>
    rw [wordsOfLE, ih, List.range_succ_eq_map, List.map_cons, List.map_map, Nat.zero_mul,
      List.drop_zero]
    congr 1
    apply List.map_congr_left
    intro i _
    rw [List.drop_drop, Nat.add_comm, ← Nat.succ_mul]
    rfl

theorem wordStrict_eq_ok {chunk : Bytes} {idx : Nat} (h : idx * 4 + 4 ≤ chunk.length)
    : wordStrict chunk idx = .ok (wordOfLE (chunk.drop (idx * 4))) := by
  have htake : (chunk.drop (idx * 4)).take 4
      = [chunk[idx * 4], chunk[idx * 4 + 1], chunk[idx * 4 + 2], chunk[idx * 4 + 3]] := by
    rw [List.drop_eq_getElem_cons (by omega), List.take_succ_cons,
      List.drop_eq_getElem_cons (by omega), List.take_succ_cons,
      List.drop_eq_getElem_cons (by omega), List.take_succ_cons,
      List.drop_eq_getElem_cons (by omega), List.take_succ_cons, List.take_zero]
  have hindexed {i : Nat} (hi : i < chunk.length) : indexed chunk.toArray i = .ok chunk[i] := by
    rw [indexed, List.getElem?_toArray, List.getElem?_eq_getElem hi, okOr_some]
  rw [wordStrict, hindexed (by omega), except_ok_bind, hindexed (by omega), except_ok_bind,
    hindexed (by omega), except_ok_bind, hindexed (by omega), except_ok_bind, wordOfLE, htake]
  rfl

/-- All entries of the tables of word numbers are those of words. -/
theorem ripemd128_tables (idx : Nat) (h : idx < 64)
    : ripemd128R[idx]! < 16 ∧ ripemd128Rp[idx]! < 16 := by
  have hall : ∀ i : Fin 64, ripemd128R[i.val]! < 16 ∧ ripemd128Rp[i.val]! < 16 := by
    decide
  exact hall ⟨idx, h⟩

theorem ripemd128RoundStrict_eq_ok {words : Array UInt32} (hwords : words.size = 16)
    (lines : Ripemd128State × Ripemd128State) {idx : Nat} (h : idx < 64)
    : ripemd128RoundStrict words lines idx = .ok (ripemd128Round words lines idx) := by
  obtain ⟨hleft, hright⟩ := ripemd128_tables idx h
  unfold ripemd128RoundStrict
  dsimp only
  rw [indexed_of_lt ripemd128R h, except_ok_bind, indexed_of_lt words (by omega),
    except_ok_bind, indexed_of_lt ripemd128S h, except_ok_bind,
    indexed_of_lt ripemd128Rp h, except_ok_bind, indexed_of_lt words (by omega),
    except_ok_bind, indexed_of_lt ripemd128Sp h, except_ok_bind]
  rfl

theorem ripemd128CompressStrict_eq_ok (state : Ripemd128State) {chunk : Bytes}
    (h : chunk.length = 64)
    : ripemd128CompressStrict state chunk = .ok (ripemd128Compress state chunk) := by
  have hwords : (List.range 16).mapM (wordStrict chunk) = .ok (wordsOfLE 16 chunk) := by
    rw [wordsOfLE_eq_map]
    apply mapM_eq_ok
    intro idx hidx
    rw [List.mem_range] at hidx
    exact wordStrict_eq_ok (by omega)
  have hsize : (wordsOfLE 16 chunk).toArray.size = 16 := length_wordsOfLE 16 chunk
  have hrounds : (List.range 64).foldlM (ripemd128RoundStrict (wordsOfLE 16 chunk).toArray)
      (state, state) = .ok ((List.range 64).foldl (ripemd128Round (wordsOfLE 16 chunk).toArray)
        (state, state)) := by
    apply foldlM_eq_ok
    intro lines idx hidx
    exact ripemd128RoundStrict_eq_ok hsize lines (List.mem_range.mp hidx)
  unfold ripemd128CompressStrict
  rw [failIf_of_not (not_not.mpr h), except_ok_bind, hwords, except_ok_bind, hrounds,
    except_ok_bind]
  rfl

theorem foldlM_ripemd128CompressStrict (state : Ripemd128State) (bytes : Bytes)
    : (blocks 64 bytes).foldlM ripemd128CompressStrict state
        = .ok ((blocks 64 bytes).foldl ripemd128Compress state) := by
  apply foldlM_eq_ok
  intro state chunk hchunk
  exact ripemd128CompressStrict_eq_ok state (length_of_mem_blocks hchunk)

/-! ## Padding -/

/-- The message, a one bit, zeros up to a length of 56 modulo 64 and the length in bits. -/
def ripemd128Padded (message : Bytes) : Bytes :=
  message ++ [0x80] ++ List.replicate ((119 - message.length % 64) % 64) 0
    ++ Bytes.ofLE 8 (8 * message.length % u64Bound)

/-- Behind the complete blocks of a message the tail completes the padded message. -/
theorem ripemd128Padded_eq (message : Bytes)
    : ripemd128Padded message = message.take (64 * (message.length / 64))
        ++ ripemd128Tail (message.drop (64 * (message.length / 64))) message.length := by
  have hlen : (message.drop (64 * (message.length / 64))).length = message.length % 64 := by
    rw [List.length_drop]
    omega
  have hzeros : (119 - message.length % 64) % 64
      = (if message.length % 64 < 56 then 64 else 128) - 8 - (message.length % 64 + 1) := by
    split <;> omega
  rw [ripemd128Tail, hlen, ← hzeros, Nat.mul_comm message.length 8, ← List.append_assoc, ← List.append_assoc,
    ← List.append_assoc, List.take_append_drop]
  rfl

/-- The buffer of the tail when the marker is written. -/
theorem ripemd128Tail_marked {remainder : Bytes} (h : remainder.length < 64)
    : (remainder ++ List.replicate (128 - remainder.length) (0 : UInt8)).set remainder.length 0x80
        = remainder ++ 0x80 :: List.replicate (127 - remainder.length) 0 := by
  have hzeros : 128 - remainder.length = 127 - remainder.length + 1 := by omega
  rw [List.set_append_right remainder.length 0x80 (Nat.le_refl _), Nat.sub_self, hzeros, List.replicate_succ,
    List.set_cons_zero]

/-- Its beginning, up to the place of the length. -/
theorem ripemd128Tail_take {remainder : Bytes} {start : Nat} (h : remainder.length < start)
    (hstart : start ≤ 128)
    : (remainder ++ 0x80 :: List.replicate (127 - remainder.length) (0 : UInt8)).take start
        = remainder ++ [0x80] ++ List.replicate (start - (remainder.length + 1)) 0 := by
  have hcount : start - remainder.length = start - (remainder.length + 1) + 1 := by omega
  rw [List.take_append, List.take_of_length_le (Nat.le_of_lt h), hcount, List.take_succ_cons,
    List.take_replicate, Nat.min_eq_left (by omega), List.append_assoc]
  rfl

theorem ripemd128TailStrict_eq_ok {remainder : Bytes} (h : remainder.length < 64) (len : Nat)
    : ripemd128TailStrict remainder len = .ok (ripemd128Tail remainder len) := by
  have hcopied : copyFromSlice (List.replicate 128 0) 0 remainder.length remainder 0
      remainder.length = .ok (remainder ++ List.replicate (128 - remainder.length) 0) := by
    rw [copyFromSlice_of_le (by rw [List.length_replicate]; omega) (by omega) (by omega),
      List.take_zero, List.drop_zero, Nat.sub_zero, List.take_length, List.drop_replicate,
      List.nil_append]
  have hlen : (Bytes.ofLE 8 (len * 8 % u64Bound)).length = 8 := Bytes.length_ofLE _ _
  have hpadded : remainder.length + 9 ≤ (if remainder.length < 56 then 64 else 128)
      ∧ (if remainder.length < 56 then 64 else 128) ≤ 128 := by
    split <;> omega
  unfold ripemd128TailStrict ripemd128Tail
  dsimp only
  generalize (if remainder.length < 56 then 64 else 128) = paddedLen at *
  generalize Bytes.ofLE 8 (len * 8 % u64Bound) = length at *
  rw [hcopied, except_ok_bind, failIf_of_not, except_ok_bind, ripemd128Tail_marked h,
    subtract_of_le (by omega), except_ok_bind, copyFromSlice_of_le, except_ok_bind,
    ripemd128Tail_take (by omega) (by omega), List.drop_zero, Nat.sub_zero, ← hlen,
    List.take_length]
  . have hstop : paddedLen = (remainder ++ [0x80] ++ List.replicate
        (paddedLen - length.length - (remainder.length + 1)) 0 ++ length).length := by
      simp only [List.length_append, List.length_replicate, List.length_cons, List.length_nil]
      omega
    rw [okOr_eq_ok, Bytes.get?_eq_some_iff]
    refine ⟨Nat.zero_le _, ?_, ?_⟩
    . rw [List.length_append]
      omega
    . rw [List.drop_zero, Nat.sub_zero]
      exact (List.take_left' hstop.symm).symm
  . simp only [List.length_append, List.length_cons, List.length_replicate]
    omega
  . omega
  . omega
  . rw [List.length_append, List.length_replicate]
    omega

theorem ripemd128Blocks_eq (state : Ripemd128State) (bytes : Bytes)
    : ripemd128Blocks state bytes = ((blocks 64 bytes).foldl ripemd128Compress state,
        bytes.drop (64 * (bytes.length / 64))) := by
  induction state, bytes using ripemd128Blocks.induct with
  | case1 state bytes h =>
    rw [ripemd128Blocks, if_pos h, blocks_of_lt h, Nat.div_eq_of_lt h]
    rfl
  | case2 state bytes h ih =>
    have hblock : (bytes.take 64).length = 64 := by
      rw [List.length_take]
      omega
    have hblocks : blocks 64 bytes = bytes.take 64 :: blocks 64 (bytes.drop 64) := by
      rw [← blocks_append_of_length (by omega) hblock, List.take_append_drop]
    have hcount : 64 * (bytes.length / 64) = 64 + 64 * ((bytes.drop 64).length / 64) := by
      rw [List.length_drop]
      omega
    rw [ripemd128Blocks, if_neg h, ih, hblocks, List.foldl_cons, hcount, ← List.drop_drop]

end Mdict
