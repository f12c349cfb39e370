import Mdict.Lemmas.Checksum
import Mdict.Core.Persistent.Scratch

/-!
This module contains that both implementations of ADLER32 compute the checksum as it is defined.
-/

namespace Mdict

open Persistent

/--
However a byte string is cut into updates, the one-shot and the incremental checksum are the
bytewise one, and none of their additions overflows.
-/
theorem adler32_bytewise (pieces : List Bytes)
    : adler32U32 pieces.flatten = some (bytewiseAdler32 pieces.flatten)
        ∧ (pieces.foldlM adlerBlocksU32 newAdler32).map finishAdlerU32
          = some (bytewiseAdler32 pieces.flatten)
        ∧ adler32 pieces.flatten = bytewiseAdler32 pieces.flatten
        ∧ finishAdler32 (pieces.foldl adlerBlocks newAdler32) = bytewiseAdler32 pieces.flatten := by
  have hstart : Reduced (1, 0) := ⟨by decide, by decide⟩
  have hbytewise : bytewiseAdler32 pieces.flatten
      = finishAdler32 (adlerBlocks (1, 0) pieces.flatten) := by
    rw [bytewiseAdler32, bytewiseSums_eq]
    rfl
  have hfinish := finishAdlerU32_eq (hstart.adlerBlocks pieces.flatten)
  rw [hbytewise, newAdler32]
  refine ⟨?_, ?_, rfl, ?_⟩
  . rw [adler32U32, adlerBlocksU32_eq hstart, Option.map_some, hfinish]
    rfl
  . rw [foldlM_adlerBlocksU32 hstart, Option.map_some, hfinish]
    rfl
  . rw [foldl_adlerBlocks hstart]

end Mdict
