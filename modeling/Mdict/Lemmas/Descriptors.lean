import Mdict.Core.Keys

/-!
This module contains what the verification of a layout establishes: entries and decoded record
bytes are tiled by the blocks, so that both binary searches find the block that covers a point.
-/

namespace Mdict

open Effect

namespace ValidatedLayout

/-- The numbers of entries of the key blocks. -/
def entryCounts (layout : ValidatedLayout) : List Nat := layout.keyBlocks.map (·.entryCount)

/-- The decoded sizes of the record blocks. -/
def decompSizes (layout : ValidatedLayout) : List Nat := layout.recordBlocks.map (·.decompSize)

theorem verifyKeyBlocks_eq_ok {blocks : List KeyBlockDescriptor} {first total : Nat}
    (h : verifyKeyBlocks first blocks = .ok total)
    : total = first + (blocks.map (·.entryCount)).sum
        ∧ (first < u64Bound → total < u64Bound)
        ∧ ∀ i block, blocks[i]? = some block →
            block.entryStartIndex = first + Search.start (blocks.map (·.entryCount)) i := by
  induction blocks generalizing first with
  | nil =>
    simp only [verifyKeyBlocks, Except.ok.injEq] at h
    simp [h]
  | cons block blocks ih =>
    simp only [verifyKeyBlocks, except_bind_eq_ok, failIf_eq_ok, okOr_eq_ok, checkedAdd_eq_some,
      Decidable.not_not] at h
    obtain ⟨⟨⟩, hstart, next, ⟨hnext, hlt⟩, h⟩ := h
    obtain ⟨htotal, hbound, hstarts⟩ := ih h
    refine ⟨?_, fun _ => hbound hlt, ?_⟩
    . simp only [List.map_cons, List.sum_cons]
      omega
    . intro i b hb
      cases i with
      | zero =>
        simp only [List.getElem?_cons_zero, Option.some.injEq] at hb
        subst hb
        simp [hstart]
      | succ i =>
        rw [List.getElem?_cons_succ] at hb
        rw [hstarts i b hb]
        simp only [Search.start, List.map_cons, List.take_succ_cons, List.sum_cons]
        omega

theorem verifyRecordBlocks_eq_ok {blocks : List RecordBlockDescriptor} {first total : Nat}
    (h : verifyRecordBlocks first blocks = .ok total)
    : total = first + (blocks.map (·.decompSize)).sum
        ∧ (first < u64Bound → total < u64Bound)
        ∧ ∀ i block, blocks[i]? = some block →
            block.decompOffset = first + Search.start (blocks.map (·.decompSize)) i := by
  induction blocks generalizing first with
  | nil =>
    simp only [verifyRecordBlocks, Except.ok.injEq] at h
    simp [h]
  | cons block blocks ih =>
    simp only [verifyRecordBlocks, except_bind_eq_ok, failIf_eq_ok, okOr_eq_ok, checkedAdd_eq_some,
      Decidable.not_not] at h
    obtain ⟨⟨⟩, hstart, next, ⟨hnext, hlt⟩, h⟩ := h
    obtain ⟨htotal, hbound, hstarts⟩ := ih h
    refine ⟨?_, fun _ => hbound hlt, ?_⟩
    . simp only [List.map_cons, List.sum_cons]
      omega
    . intro i b hb
      cases i with
      | zero =>
        simp only [List.getElem?_cons_zero, Option.some.injEq] at hb
        subst hb
        simp [hstart]
      | succ i =>
        rw [List.getElem?_cons_succ] at hb
        rw [hstarts i b hb]
        simp only [Search.start, List.map_cons, List.take_succ_cons, List.sum_cons]
        omega

/-- What a verified layout guarantees to the core. -/
structure Verified (layout : ValidatedLayout) : Prop where
  contiguous : layout.sections.verifyContiguous = .ok ()
  entryStart : ∀ i block, layout.keyBlocks[i]? = some block →
    block.entryStartIndex = Search.start layout.entryCounts i
  totalEntries : layout.entryCounts.sum = layout.totalEntries
  totalEntries_lt : layout.totalEntries < u64Bound
  decompOffset : ∀ i block, layout.recordBlocks[i]? = some block →
    block.decompOffset = Search.start layout.decompSizes i
  totalDecodedRecordLen : layout.decompSizes.sum = layout.totalDecodedRecordLen
  totalDecodedRecordLen_lt : layout.totalDecodedRecordLen < u64Bound

theorem verify_eq_ok {layout : ValidatedLayout} (h : layout.verify = .ok ()) : layout.Verified := by
  simp only [verify, except_bind_eq_ok, failIf_eq_ok, Decidable.not_not] at h
  obtain ⟨⟨⟩, hsections, entries, hentries, ⟨⟩, rfl, bytes, hbytes, rfl⟩ := h
  obtain ⟨htotal, hlt, hstart⟩ := verifyKeyBlocks_eq_ok hentries
  obtain ⟨htotal', hlt', hstart'⟩ := verifyRecordBlocks_eq_ok hbytes
  exact {
    contiguous := hsections
    entryStart := fun i block hi => by
      rw [hstart i block hi, Nat.zero_add]
      rfl
    totalEntries := by
      rw [htotal, Nat.zero_add]
      rfl
    totalEntries_lt := hlt (by decide)
    decompOffset := fun i block hi => by
      rw [hstart' i block hi, Nat.zero_add]
      rfl
    totalDecodedRecordLen := by
      rw [htotal', Nat.zero_add]
      rfl
    totalDecodedRecordLen_lt := hlt' (by decide)
  }

namespace Verified

variable {layout : ValidatedLayout}

theorem entryEnd (h : layout.Verified) {i : Nat} {block : KeyBlockDescriptor}
    (hi : layout.keyBlocks[i]? = some block)
    : block.entryStartIndex + block.entryCount = Search.start layout.entryCounts (i + 1) := by
  obtain ⟨hlt, heq⟩ := List.getElem?_eq_some_iff.mp hi
  have hlt' : i < layout.entryCounts.length := by
    rw [entryCounts, List.length_map]
    exact hlt
  rw [Search.start_succ hlt', h.entryStart i block hi]
  simp [entryCounts, heq]

theorem decompEnd (h : layout.Verified) {i : Nat} {block : RecordBlockDescriptor}
    (hi : layout.recordBlocks[i]? = some block)
    : block.decompOffset + block.decompSize = Search.start layout.decompSizes (i + 1) := by
  obtain ⟨hlt, heq⟩ := List.getElem?_eq_some_iff.mp hi
  have hlt' : i < layout.decompSizes.length := by
    rw [decompSizes, List.length_map]
    exact hlt
  rw [Search.start_succ hlt', h.decompOffset i block hi]
  simp [decompSizes, heq]

theorem entryStart_le (h : layout.Verified) (i : Nat)
    : Search.start layout.entryCounts i < u64Bound := by
  have := Search.start_le_sum layout.entryCounts i
  rw [h.totalEntries] at this
  have := h.totalEntries_lt
  omega

theorem decompStart_le (h : layout.Verified) (i : Nat)
    : Search.start layout.decompSizes i < u64Bound := by
  have := Search.start_le_sum layout.decompSizes i
  rw [h.totalDecodedRecordLen] at this
  have := h.totalDecodedRecordLen_lt
  omega

theorem findRecordBlock_go_eq (h : layout.Verified) (offset left right : Nat)
    (hright : right ≤ layout.recordBlocks.length)
    : findRecordBlock.go layout.recordBlocks offset left right
        = Search.findCovering (Search.start layout.decompSizes)
            (fun i => Search.start layout.decompSizes (i + 1)) offset left right := by
  unfold findRecordBlock.go Search.findCovering
  split
  . next hlt =>
    have hmid : (left + right) / 2 < layout.recordBlocks.length := by omega
    have hblock := List.getElem?_eq_getElem hmid
    generalize layout.recordBlocks[(left + right) / 2] = block at hblock
    have hend := h.decompEnd hblock
    have hbound := h.decompStart_le ((left + right) / 2 + 1)
    have hstop : checkedAdd block.decompOffset block.decompSize
        = some (Search.start layout.decompSizes ((left + right) / 2 + 1)) := by
      rw [checkedAdd_eq_some]
      exact ⟨hend, hbound⟩
    dsimp only
    rw [hblock, Option.bind_eq_bind, Option.bind_some, hstop, Option.bind_eq_bind,
      Option.bind_some, h.decompOffset _ block hblock]
    split
    . exact findRecordBlock_go_eq h offset left _ (by omega)
    . split
      . exact findRecordBlock_go_eq h offset _ right hright
      . rfl
  . rfl
termination_by right - left

/-- The search finds the record block that covers an offset of the decoded stream. -/
theorem findRecordBlock_eq (h : layout.Verified) {offset : Nat}
    (hoffset : offset < layout.totalDecodedRecordLen)
    : ∃ i block, findRecordBlock layout.recordBlocks offset = some i
        ∧ layout.recordBlocks[i]? = some block
        ∧ block.decompOffset ≤ offset ∧ offset < block.decompOffset + block.decompSize := by
  rw [← h.totalDecodedRecordLen] at hoffset
  obtain ⟨i, hi, hfind, hlo, hhi⟩ := Search.findCovering_start hoffset
  have hlt : i < layout.recordBlocks.length := by
    simpa [decompSizes] using hi
  have hblock := List.getElem?_eq_getElem hlt
  generalize layout.recordBlocks[i] = block at hblock
  refine ⟨i, block, ?_, hblock, ?_, ?_⟩
  . rw [findRecordBlock, h.findRecordBlock_go_eq _ _ _ (Nat.le_refl _), ← hfind]
    simp [decompSizes]
  . rw [h.decompOffset i block hblock]
    exact hlo
  . rw [h.decompEnd hblock, Search.start_succ hi]
    exact hhi

/-- At most one key block covers an ordinal. -/
theorem keyBlock_unique (h : layout.Verified) {i j ordinal : Nat} {a b : KeyBlockDescriptor}
    (hi : layout.keyBlocks[i]? = some a) (hj : layout.keyBlocks[j]? = some b)
    (ha : a.entryStartIndex ≤ ordinal ∧ ordinal < a.entryStartIndex + a.entryCount)
    (hb : b.entryStartIndex ≤ ordinal ∧ ordinal < b.entryStartIndex + b.entryCount)
    : i = j := by
  have hlt {k : Nat} {block : KeyBlockDescriptor} (hk : layout.keyBlocks[k]? = some block)
      : k < layout.entryCounts.length := by
    rw [entryCounts, List.length_map]
    exact (List.getElem?_eq_some_iff.mp hk).1
  rw [h.entryEnd hi, h.entryStart i a hi, Search.start_succ (hlt hi)] at ha
  rw [h.entryEnd hj, h.entryStart j b hj, Search.start_succ (hlt hj)] at hb
  exact Search.covering_unique (hlt hi) (hlt hj) ha hb

/-- At most one record block covers an offset of the decoded stream. -/
theorem recordBlock_unique (h : layout.Verified) {i j offset : Nat} {a b : RecordBlockDescriptor}
    (hi : layout.recordBlocks[i]? = some a) (hj : layout.recordBlocks[j]? = some b)
    (ha : a.decompOffset ≤ offset ∧ offset < a.decompOffset + a.decompSize)
    (hb : b.decompOffset ≤ offset ∧ offset < b.decompOffset + b.decompSize)
    : i = j := by
  have hlt {k : Nat} {block : RecordBlockDescriptor} (hk : layout.recordBlocks[k]? = some block)
      : k < layout.decompSizes.length := by
    rw [decompSizes, List.length_map]
    exact (List.getElem?_eq_some_iff.mp hk).1
  rw [h.decompEnd hi, h.decompOffset i a hi, Search.start_succ (hlt hi)] at ha
  rw [h.decompEnd hj, h.decompOffset j b hj, Search.start_succ (hlt hj)] at hb
  exact Search.covering_unique (hlt hi) (hlt hj) ha hb

end Verified

end ValidatedLayout

namespace MdictFile

variable (file : MdictFile)

theorem layoutVerified : file.layout.Verified := ValidatedLayout.verify_eq_ok file.verified

theorem findKeyBlockByOrdinal_go_eq (ordinal left right : Nat)
    (hright : right ≤ file.layout.keyBlocks.length)
    : findKeyBlockByOrdinal.go file ordinal left right
        = .ok (Search.findCovering (Search.start file.layout.entryCounts)
            (fun i => Search.start file.layout.entryCounts (i + 1)) ordinal left right) := by
  have h := file.layoutVerified
  unfold findKeyBlockByOrdinal.go Search.findCovering
  split
  . next hlt =>
    have hmid : (left + right) / 2 < file.layout.keyBlocks.length := by omega
    have hblock := List.getElem?_eq_getElem hmid
    generalize file.layout.keyBlocks[(left + right) / 2] = block at hblock
    have hend := h.entryEnd hblock
    have hbound := h.entryStart_le ((left + right) / 2 + 1)
    have hstop : checkedAdd block.entryStartIndex block.entryCount
        = some (Search.start file.layout.entryCounts ((left + right) / 2 + 1)) := by
      rw [checkedAdd_eq_some]
      exact ⟨hend, hbound⟩
    dsimp only
    rw [hblock, okOr_some, except_ok_bind, hstop, okOr_some, except_ok_bind,
      h.entryStart _ block hblock]
    split
    . exact findKeyBlockByOrdinal_go_eq ordinal left _ (by omega)
    . split
      . exact findKeyBlockByOrdinal_go_eq ordinal _ right hright
      . rfl
  . rfl
termination_by right - left

/-- The search finds the key block that covers an ordinal. -/
theorem findKeyBlockByOrdinal_eq {ordinal : Nat} (hordinal : ordinal < file.len)
    : ∃ i block, file.findKeyBlockByOrdinal ordinal = .ok (some i)
        ∧ file.layout.keyBlocks[i]? = some block
        ∧ block.entryStartIndex ≤ ordinal
        ∧ ordinal < block.entryStartIndex + block.entryCount := by
  have h := file.layoutVerified
  rw [len, ← h.totalEntries] at hordinal
  obtain ⟨i, hi, hfind, hlo, hhi⟩ := Search.findCovering_start hordinal
  have hlt : i < file.layout.keyBlocks.length := by
    simpa [ValidatedLayout.entryCounts] using hi
  have hblock := List.getElem?_eq_getElem hlt
  generalize file.layout.keyBlocks[i] = block at hblock
  refine ⟨i, block, ?_, hblock, ?_, ?_⟩
  . rw [findKeyBlockByOrdinal, file.findKeyBlockByOrdinal_go_eq _ _ _ (Nat.le_refl _), ← hfind]
    simp [ValidatedLayout.entryCounts]
  . rw [h.entryStart i block hblock]
    exact hlo
  . rw [h.entryEnd hblock, Search.start_succ hi]
    exact hhi

/-- An ordinal has a place in the key blocks. -/
theorem keyPosition_eq {ordinal : Nat} (hordinal : ordinal < file.len)
    : ∃ i block, file.layout.keyBlocks[i]? = some block
        ∧ block.entryStartIndex ≤ ordinal
        ∧ ordinal < block.entryStartIndex + block.entryCount
        ∧ file.keyPosition ordinal = .ok (i, ordinal - block.entryStartIndex) := by
  obtain ⟨i, block, hfind, hblock, hlo, hhi⟩ := file.findKeyBlockByOrdinal_eq hordinal
  have hlt := file.layoutVerified.totalEntries_lt
  have hsub : ordinal - block.entryStartIndex < u64Bound := by
    rw [len] at hordinal
    omega
  refine ⟨i, block, hblock, hlo, hhi, ?_⟩
  simp only [keyPosition, hfind, hblock, okOr_some, checkedSub, if_pos hlo, if_pos hsub,
    except_ok_bind]
  rfl

end MdictFile

end Mdict
