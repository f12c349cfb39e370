import Mdict.Lemmas.Layout
import Mdict.Lemmas.Sample

/-!
This module contains what is known of every layout that a file opens with, whatever its bytes are.
-/

namespace Mdict

open Effect

variable {source : FileSource} {kind : ContainerKind} {options : OpenOptions} {w : World}
variable {s s' : Session} {layout : VerifiedLayout}

/--
A file that opens has its seven sections one after the other, and its blocks tile the sections they
belong to, the ordinals and the decoded record stream. All of it lies in the file and within the
limits, so that both searches find the one block that covers a point.
-/
theorem openLayout_tiled (h : openLayout source kind options w s = (.ok layout, s'))
    : layout.val.WellFormed source.len options.limits
      ∧ layout.val.Verified
      ∧ (∀ range ∈ layout.val.sections.ordered,
          range.2.offset + range.2.len ≤ source.len ∧ range.2.offset + range.2.len < u64Bound)
      ∧ (∀ block ∈ layout.val.keyBlocks, block.compOffset + block.compSize
          ≤ layout.val.sections.keywordBlocks.offset + layout.val.sections.keywordBlocks.len)
      ∧ (∀ block ∈ layout.val.recordBlocks, block.compOffset + block.compSize
          ≤ layout.val.sections.recordBlocks.offset + layout.val.sections.recordBlocks.len)
      ∧ (∀ file : MdictFile, file.layout = layout.val →
          ∀ ordinal, ordinal < layout.val.totalEntries → ∃ i block,
            file.findKeyBlockByOrdinal ordinal = .ok (some i)
              ∧ layout.val.keyBlocks[i]? = some block
              ∧ block.entryStartIndex ≤ ordinal
              ∧ ordinal < block.entryStartIndex + block.entryCount
              ∧ ∀ j other, layout.val.keyBlocks[j]? = some other →
                  other.entryStartIndex ≤ ordinal →
                    ordinal < other.entryStartIndex + other.entryCount → j = i)
      ∧ ∀ offset, offset < layout.val.totalDecodedRecordLen → ∃ i block,
          findRecordBlock layout.val.recordBlocks offset = some i
            ∧ layout.val.recordBlocks[i]? = some block
            ∧ block.decompOffset ≤ offset ∧ offset < block.decompOffset + block.decompSize
            ∧ ∀ j other, layout.val.recordBlocks[j]? = some other → other.decompOffset ≤ offset →
                offset < other.decompOffset + other.decompSize → j = i := by
  have hwell := openLayout_wellFormed h
  have hverified := ValidatedLayout.verify_eq_ok layout.property
  refine ⟨hwell, hverified, ?_, ?_, ?_, ?_, ?_⟩
  . intro range hrange
    have hle := hwell.stop_of_mem hrange
    have hstop := hwell.stop_le
    have hlt := hwell.stop_lt
    omega
  . intro block hblock
    obtain ⟨i, hi⟩ := List.mem_iff_getElem?.mp hblock
    exact hwell.keyBlocks.stop_le (by rw [List.getElem?_map, hi]; rfl)
      (by rw [List.getElem?_map, hi]; rfl)
  . intro block hblock
    obtain ⟨i, hi⟩ := List.mem_iff_getElem?.mp hblock
    exact hwell.recordBlocks.stop_le (by rw [List.getElem?_map, hi]; rfl)
      (by rw [List.getElem?_map, hi]; rfl)
  . intro file hfile ordinal hordinal
    obtain ⟨i, block, hfind, hblock, hlo, hhi⟩ :=
      @MdictFile.findKeyBlockByOrdinal_eq file ordinal (by rw [MdictFile.len, hfile]; exact hordinal)
    rw [hfile] at hblock
    exact ⟨i, block, hfind, hblock, hlo, hhi, fun j other hother hlo' hhi' =>
      hverified.keyBlock_unique hother hblock ⟨hlo', hhi'⟩ ⟨hlo, hhi⟩⟩
  . intro offset hoffset
    obtain ⟨i, block, hfind, hblock, hlo, hhi⟩ := hverified.findRecordBlock_eq hoffset
    exact ⟨i, block, hfind, hblock, hlo, hhi, fun j other hother hlo' hhi' =>
      hverified.recordBlock_unique hother hblock ⟨hlo', hhi'⟩ ⟨hlo, hhi⟩⟩

/-- A small file opens, and its layout is tiled. -/
theorem openLayout_tiled_sample
    : ∃ layout s', openLayout ⟨Sample.container⟩ .mdx .new Sample.world .fresh = (.ok layout, s')
        ∧ layout.val.WellFormed Sample.container.length .new := by
  have hopens := Sample.evaluates.layout_opens
  match hrun : openLayout ⟨Sample.container⟩ .mdx .new Sample.world .fresh with
  | (.ok layout, s') => exact ⟨layout, s', rfl, (openLayout_tiled hrun).1⟩
  | (.error e, s') =>
    rw [hrun] at hopens
    contradiction

end Mdict
