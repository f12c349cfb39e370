import Mdict.Lemmas.Crypto

/-!
This module contains the main result on RIPEMD-128: its two ways of padding are the standard one.
-/

namespace Mdict

open Effect Blocks

theorem length_ripemd128Padded (message : Bytes)
    : (ripemd128Padded message).length
        = 64 * ((message.length + 8) / 64 + 1) := by
  rw [ripemd128Padded, List.length_append, List.length_append, List.length_append,
    List.length_replicate, Bytes.length_ofLE, List.length_singleton]
  omega

/-- RIPEMD-128 compresses the blocks of the padded message, block by block. -/
theorem ripemd128_eq (message : Bytes)
    : ripemd128 message = bytesOfWords
        ((blocks 64 (ripemd128Padded message)).foldl ripemd128Compress ripemd128Init).words := by
  have htake : (message.take (64 * (message.length / 64))).length = 64 * (message.length / 64) := by
    rw [List.length_take]
    omega
  have hblocks : blocks 64 (message.take (64 * (message.length / 64))) = blocks 64 message := by
    have hrest : (message.drop (64 * (message.length / 64))).length < 64 := by
      rw [List.length_drop]
      omega
    have happend := @blocks_append _ 64 _ (message.drop (64 * (message.length / 64))) (by omega) _
      htake
    rw [List.take_append_drop, blocks_of_lt hrest, List.append_nil] at happend
    exact happend.symm
  rw [ripemd128, ripemd128Blocks_eq, ripemd128Padded_eq, blocks_append (by omega) htake, hblocks,
    List.foldl_append]
  dsimp only
  rw [ripemd128Blocks_eq]

/--
RIPEMD-128 never leaves the range of an array, and it compresses the blocks of the standard padded
message, which leave nothing over.
-/
theorem ripemd128_padded (message : Bytes)
    : ripemd128Strict message = .ok (ripemd128 message)
        ∧ ripemd128 message = bytesOfWords
            ((blocks 64 (ripemd128Padded message)).foldl ripemd128Compress ripemd128Init).words
        ∧ 64 ∣ (ripemd128Padded message).length := by
  refine ⟨?_, ripemd128_eq message, ⟨_, length_ripemd128Padded message⟩⟩
  have hrest : (message.drop (64 * (message.length / 64))).length < 64 := by
    rw [List.length_drop]
    omega
  rw [ripemd128Strict, ripemd128, ripemd128Blocks_eq, foldlM_ripemd128CompressStrict,
    except_ok_bind]
  dsimp only
  rw [ripemd128TailStrict_eq_ok hrest, except_ok_bind, foldlM_ripemd128CompressStrict,
    except_ok_bind, ripemd128Blocks_eq]
  rfl

end Mdict
