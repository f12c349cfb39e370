import Mdict.Lemmas.Persistent.Metadata

/-!
This module contains that a build does not wait for its end to find out that the metadata of the
index are too large.
-/

namespace Mdict.Persistent

variable {options : KeyIndexOptions}

/-- The plan of a build, when there is one. -/
def planOf (options : KeyIndexOptions) (rows : Nat) : BuildMetadataPlan where
  fixedChecksumCount := fixedChecksums options rows
  maximumTextBytes := maximumText options rows
  limit := options.maxMetadataBytes

/-- The checks in advance, when the bounds of the rows can be counted. -/
theorem checkMetadata_eq (h : Accepted options) {rowLens : List Nat}
    (hrows : 8 * (rowLens.length + 1) + (options.chunkBytes - 1) < u64Bound)
    (hfixed : fixedChecksums options rowLens.length ≤ checksumSlots options)
    : checkMetadata options rowLens
        = rowLens.foldlM (growText (planOf options rowLens.length) options) 0 := by
  rw [checkMetadata, buildMetadataPlan_eq h hrows, if_neg (by omega)]
  rfl

/-- Rows that pass the checks in advance have metadata that fit. -/
theorem metadataLen_le_of_checkMetadata (h : Accepted options) {rowLens : List Nat} {last : Nat}
    (hok : checkMetadata options rowLens = .ok last)
    : metadataLen options rowLens.length rowLens.sum ≤ options.maxMetadataBytes := by
  by_cases hrows : 8 * (rowLens.length + 1) + (options.chunkBytes - 1) < u64Bound
  . by_cases hfixed : fixedChecksums options rowLens.length ≤ checksumSlots options
    . rw [checkMetadata_eq h hrows hfixed] at hok
      obtain ⟨rfl, -, hle⟩ := (foldlM_growText_eq_ok (by decide) (Nat.zero_le _)).mp hok
      rw [Nat.zero_add] at hle
      by_contra hover
      have := (maxMetadataBytes_lt_iff h rowLens.length rowLens.sum).mp (Nat.lt_of_not_le hover)
      have := (hle.trans (maximumText_le rowLens.length))
      omega
    . rw [checkMetadata, buildMetadataPlan_eq h hrows, if_pos (by omega)] at hok
      contradiction
  . obtain ⟨e, he, -⟩ := buildMetadataPlan_error hrows
    rw [checkMetadata, he] at hok
    contradiction

/-- Rows that are refused in advance for the size of the metadata have too much of them. -/
theorem lt_metadataLen_of_checkMetadata (h : Accepted options) {rowLens : List Nat} {e : Error}
    (herror : checkMetadata options rowLens = .error e) (he : IsMetadataLimit e)
    : options.maxMetadataBytes < metadataLen options rowLens.length rowLens.sum := by
  rw [maxMetadataBytes_lt_iff h]
  by_cases hrows : 8 * (rowLens.length + 1) + (options.chunkBytes - 1) < u64Bound
  . by_cases hfixed : fixedChecksums options rowLens.length ≤ checksumSlots options
    . rw [checkMetadata_eq h hrows hfixed] at herror
      obtain ⟨hmax, hover⟩ := foldlM_growText_limit herror he
      rw [Nat.zero_add] at hover
      right
      rw [← maximumText_eq hmax]
      exact hover
    . exact .inl (by omega)
  . obtain ⟨e', he', hnot⟩ := buildMetadataPlan_error hrows
    rw [checkMetadata, he'] at herror
    cases herror
    exact absurd he hnot

/-- Too much metadata is found out in advance, as long as the sections have a length. -/
theorem checkMetadata_exceeds (h : Accepted options) {rowLens : List Nat}
    (hrows : 8 * (rowLens.length + 1) + (options.chunkBytes - 1) < u64Bound)
    (htext : rowLens.sum + (options.chunkBytes - 1) < u64Bound)
    (hover : options.maxMetadataBytes < metadataLen options rowLens.length rowLens.sum)
    : ∃ e, checkMetadata options rowLens = .error e ∧ IsMetadataLimit e := by
  rw [maxMetadataBytes_lt_iff h] at hover
  by_cases hfixed : fixedChecksums options rowLens.length ≤ checksumSlots options
  . rw [checkMetadata_eq h hrows hfixed]
    have hmax := @maximumText_le options rowLens.length
    apply foldlM_growText_exceeds h
    . have hbounds := chunksOf_le h.minChunkBytes_le
        (by omega : 8 * (rowLens.length + 1) < u64Bound)
      have hordinals := chunksOf_le h.minChunkBytes_le (by omega : 4 * rowLens.length < u64Bound)
      dsimp only [planOf, fixedChecksums]
      omega
    . omega
    . exact Nat.zero_le _
    . dsimp only [planOf]
      omega
  . rw [checkMetadata, buildMetadataPlan_eq h hrows, if_pos (by omega)]
    exact ⟨_, rfl, _, _, rfl⟩

/--
The checks that a build makes in advance refuse an index for the size of its metadata exactly when
the header with the checksum table of the finished sections exceeds the limit, which is exactly when
the header of the finished sections would be refused for it.
-/
theorem metadata_limit_agrees (hoptions : validateOptions options = .ok ()) (rowLens : List Nat)
    : (∀ last, checkMetadata options rowLens = .ok last →
        metadataLen options rowLens.length rowLens.sum ≤ options.maxMetadataBytes)
      ∧ (∀ e, checkMetadata options rowLens = .error e → IsMetadataLimit e →
        options.maxMetadataBytes < metadataLen options rowLens.length rowLens.sum)
      ∧ ∀ sections, Finished options rowLens sections →
        ((∃ e, checkMetadata options rowLens = .error e ∧ IsMetadataLimit e)
          ↔ options.maxMetadataBytes < metadataLen options rowLens.length rowLens.sum)
        ∧ ∀ identity, (∃ e, buildHeader sections identity rowLens.sum options = .error e
            ∧ IsMetadataLimit e)
          ↔ options.maxMetadataBytes < metadataLen options rowLens.length rowLens.sum := by
  have haccepted := accepted_of_validateOptions hoptions
  refine ⟨fun last hok => metadataLen_le_of_checkMetadata haccepted hok,
    fun e herror he => lt_metadataLen_of_checkMetadata haccepted herror he,
    fun sections hsections => ?_⟩
  obtain ⟨total, htotal, hle, hlen⟩ := hsections.checksumTotal haccepted
  refine ⟨⟨?_, ?_⟩, fun identity => ?_⟩
  . rintro ⟨e, herror, he⟩
    exact lt_metadataLen_of_checkMetadata haccepted herror he
  . have hbound : u64Bound = 2 ^ 64 := rfl
    have hchunk : options.chunkBytes < 2 ^ 32 := haccepted.chunkBytes_lt
    have hrows := hsections.len_lt .bounds
    have htext := hsections.len_lt .text
    dsimp only [sectionLen] at hrows htext
    exact checkMetadata_exceeds haccepted (by omega) (by omega)
  . rw [← hlen]
    exact buildHeader_limit_iff haccepted htotal hle identity rowLens.sum

/-- Room for eight checksums, of which two rows of 321 bytes in all need nine. -/
def tightOptions : KeyIndexOptions :=
  { KeyIndexOptions.new with maxMetadataBytes := 256, chunkBytes := 64 }

/-- Two rows whose texts are one byte too long for the checksums that there is room for. -/
theorem metadata_limit_agrees_sample
    : validateOptions tightOptions = .ok ()
        ∧ (∃ e, checkMetadata tightOptions [300, 21] = .error e ∧ IsMetadataLimit e)
        ∧ ¬∃ e, checkMetadata tightOptions [300, 20] = .error e ∧ IsMetadataLimit e := by
  have hoptions : validateOptions tightOptions = .ok () := rfl
  have hfinished (last : Nat) (hlast : last < 64)
      : Finished tightOptions [300, last] (SectionKind.all.map fun kind =>
          sectionOf kind tightOptions (List.replicate (sectionLen 2 (300 + (last + 0)) kind) 0)) := by
    apply finished_sectionOf (accepted_of_validateOptions hoptions)
    . intro kind
      exact List.length_replicate
    . intro kind
      have hbound : u64Bound = 2 ^ 64 := rfl
      have hchunk : tightOptions.chunkBytes = 64 := rfl
      rw [List.length_replicate]
      cases kind <;> dsimp only [sectionLen] <;> omega
  refine ⟨hoptions, ?_, ?_⟩
  . obtain ⟨-, -, hagree⟩ := metadata_limit_agrees hoptions [300, 21]
    exact (hagree _ (hfinished 21 (by decide))).1.mpr (by decide)
  . obtain ⟨-, -, hagree⟩ := metadata_limit_agrees hoptions [300, 20]
    rw [(hagree _ (hfinished 20 (by decide))).1]
    decide

end Mdict.Persistent
