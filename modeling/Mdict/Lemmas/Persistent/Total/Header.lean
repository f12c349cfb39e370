import Mdict.Lemmas.Persistent.Metadata

/-!
This module contains that the header of a finished index is built whenever its metadata and its
length are within the limits, and that the checks in advance then pass as well.
-/

namespace Mdict.Persistent

open Effect

variable {options : KeyIndexOptions}

/-- The end of some sections of these lengths that start at the next multiples of eight. -/
def sectionsEnd (offset : Nat) (lens : List Nat) : Nat :=
  lens.foldl (fun offset len => (offset + 7) / 8 * 8 + len) offset

/-- The length of an index whose normalized texts have `textLen` bytes. -/
def indexLen (options : KeyIndexOptions) (rows textLen : Nat) : Nat :=
  sectionsEnd (metadataLen options rows textLen) (SectionKind.all.map (sectionLen rows textLen))

theorem layOut_total {sections : List SectionFile} {offset checksumStart : Nat}
    {descriptors : SectionTable}
    (hoffset : offset + (sections.map fun «section» => section.len + 7).sum < u64Bound)
    (hchecksums : checksumStart + (sections.map (·.checksums.length)).sum < u64Bound)
    : ∃ table, layOut offset checksumStart descriptors sections
        = .ok (table, sectionsEnd offset (sections.map (·.len))) := by
  induction sections generalizing offset checksumStart descriptors with
  | nil => exact ⟨descriptors, rfl⟩
  | cons «section» sections ih =>
    rw [List.map_cons, List.sum_cons] at hoffset hchecksums
    have haligned : align8 offset = .ok ((offset + 7) / 8 * 8) :=
      align8_eq_ok.mpr ⟨rfl, by omega⟩
    rw [layOut, haligned, except_ok_bind]
    dsimp only
    rw [checkedAdd_of_lt (by omega), okOr_some, except_ok_bind, checkedAdd_of_lt (by omega),
      okOr_some, except_ok_bind]
    exact ih (by omega) (by omega)

theorem sectionsEnd_aligned {offset : Nat} {lens : List Nat} (h : lens ≠ [])
    : sectionsEnd ((offset + 7) / 8 * 8) lens = sectionsEnd offset lens := by
  cases lens with
  | nil => contradiction
  | cons len lens =>
    have haligned : ((offset + 7) / 8 * 8 + 7) / 8 * 8 = (offset + 7) / 8 * 8 := by omega
    rw [sectionsEnd, sectionsEnd, List.foldl_cons, List.foldl_cons, haligned]

theorem length_headerFields (totalLen chunkBytes : Nat) (identity : KeyIndexSourceIdentity)
    (normalizedTextLen : Nat) (descriptors : SectionTable)
    : (headerFields totalLen chunkBytes identity normalizedTextLen descriptors).length
        = headerFieldsBytes := by
  rw [headerFields_eq]
  simp only [List.length_append, Bytes.length_ofLE, SectionKind.all, List.flatMap_cons,
    List.flatMap_nil, descriptorBytes, List.length_nil]
  rfl

/-- What fits in the metadata and in the file can be written. -/
theorem buildHeader_total (haccepted : Accepted options) {rowLens : List Nat}
    {sections : List SectionFile} (h : Finished options rowLens sections)
    (hrows : rowLens.length ≤ u32Max) (htext : rowLens.sum < 2 ^ 63)
    (hmetadata : metadataLen options rowLens.length rowLens.sum ≤ options.maxMetadataBytes)
    (hlen : indexLen options rowLens.length rowLens.sum ≤ options.maxIndexBytes)
    (identity : KeyIndexSourceIdentity)
    : ∃ header descriptors, buildHeader sections identity rowLens.sum options
        = .ok (header, descriptors, indexLen options rowLens.length rowLens.sum) := by
  have hbound : u64Bound = 2 ^ 64 := rfl
  have hmax : u32Max + 1 = 2 ^ 32 := rfl
  obtain ⟨total, htotal, hle, htotalLen⟩ := h.checksumTotal haccepted
  have hlens : sections.map (·.len)
      = SectionKind.all.map (sectionLen rowLens.length rowLens.sum) := by
    rw [← h.sectionsOf.kinds, List.map_map]
    exact List.map_congr_left fun «section» hmem => h.sectionsOf.len _ hmem
  have hsum : (sections.map fun «section» => section.len + 7).sum
      = rowLens.sum + 7 + (8 * (rowLens.length + 1) + 7 + (4 * rowLens.length + 7
        + (4 * rowLens.length + 7))) := by
    rw [show (sections.map fun «section» => section.len + 7)
      = (sections.map (·.len)).map (· + 7) by rw [List.map_map]; rfl, hlens]
    rfl
  have hchecksums := h.sum_checksums
  rw [← htotalLen] at hchecksums
  have hheader : headerBytes = 224 := rfl
  obtain ⟨table, htable⟩ := @layOut_total sections ((headerBytes + total * 4 + 7) / 8 * 8) 0
    (fun _ => .empty) (by rw [hsum]; omega) (by omega)
  have hend : sectionsEnd ((headerBytes + total * 4 + 7) / 8 * 8) (sections.map (·.len))
      = indexLen options rowLens.length rowLens.sum := by
    rw [hlens, htotalLen]
    exact sectionsEnd_aligned (List.cons_ne_nil _ _)
  rw [hend] at htable
  have haligned : align8 (headerBytes + total * 4)
      = .ok ((headerBytes + total * 4 + 7) / 8 * 8) := align8_eq_ok.mpr ⟨rfl, by omega⟩
  rw [← htotalLen] at hmetadata
  rw [buildHeader, toU32?_eq_some.mpr ⟨rfl, haccepted.chunkBytes_lt⟩, okOr_some, except_ok_bind,
    ensureLimit_of_le haccepted.headerBytes_le, except_ok_bind, htotal, except_ok_bind,
    checkedMul_of_lt (by omega), okOr_some, except_ok_bind, checkedAdd_of_lt (by omega), okOr_some,
    except_ok_bind, ensureLimit_of_le hmetadata, except_ok_bind, haligned, except_ok_bind, htable,
    except_ok_bind]
  dsimp only
  rw [ensureLimit_of_le hlen, except_ok_bind, length_headerFields,
    failIf_of_not (fun hne => hne rfl), except_ok_bind, failIf_of_not, except_ok_bind]
  . exact ⟨_, _, rfl⟩
  . rw [pushU32, List.length_append, List.length_append, length_headerFields, List.length_replicate,
      Bytes.length_ofLE]
    exact fun hne => hne rfl

/-- When the metadata fit in the end, the checks in advance find nothing wrong. -/
theorem buildMetadataPlan_of_fits (haccepted : Accepted options) {rows textLen : Nat}
    (hrows : rows ≤ u32Max) (htext : textLen < u64Bound)
    (hfits : metadataLen options rows textLen ≤ options.maxMetadataBytes)
    : ∃ plan, buildMetadataPlan rows options = .ok plan ∧ textLen ≤ plan.maximumTextBytes := by
  have hbound : u64Bound = 2 ^ 64 := rfl
  have hmax : u32Max + 1 = 2 ^ 32 := rfl
  have hchunk : options.chunkBytes < 2 ^ 32 := haccepted.chunkBytes_lt
  have hlt := mt (maxMetadataBytes_lt_iff haccepted rows textLen).mpr (Nat.not_lt.mpr hfits)
  rw [not_or, Nat.not_lt, Nat.not_lt] at hlt
  rw [buildMetadataPlan_eq haccepted (by omega), if_neg (by omega)]
  refine ⟨_, rfl, ?_⟩
  have htop : u64Max + 1 = u64Bound := rfl
  rcases Nat.lt_or_ge (maximumText options rows) u64Max with hsmall | hlarge
  . rw [maximumText_eq hsmall]
    exact hlt.2
  . exact Nat.le_trans (by omega) hlarge

end Mdict.Persistent
