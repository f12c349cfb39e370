import Mdict.Lemmas.Persistent.Scratch
import Mdict.Core.Persistent.Build

/-!
This module contains the limit of the metadata of an index: what a build checks of it in advance,
and what it checks when the sections are complete.
-/

namespace Mdict.Persistent

open Effect

variable {options : KeyIndexOptions}

/-- The error of an index whose metadata is too large. -/
def IsMetadataLimit (e : Error) : Prop :=
  ∃ value max, e = .limitExceeded "key_index_metadata_bytes" value max

theorem not_isMetadataLimit_invalidFormat (context : String)
    : ¬IsMetadataLimit (.invalidFormat context) := by
  rintro ⟨_, _, ⟨⟩⟩

theorem chunkCount_eq_error {len chunkBytes : Nat} {e : Error}
    (h : chunkCount len chunkBytes = .error e)
    : ¬IsMetadataLimit e ∧ (chunkBytes = 0 ∨ u64Bound ≤ len + (chunkBytes - 1)) := by
  unfold chunkCount at h
  split at h
  . next hzero =>
    cases h
    exact ⟨by rintro ⟨_, _, ⟨⟩⟩, .inl hzero⟩
  . split at h
    . contradiction
    . cases hsum : checkedAdd len (chunkBytes - 1) with
      | none =>
        rw [hsum] at h
        cases h
        exact ⟨by rintro ⟨_, _, ⟨⟩⟩, .inr (checkedAdd_eq_none.mp hsum)⟩
      | some sum =>
        rw [hsum] at h
        contradiction

/-- The number of chunks that some bytes are cut into. -/
def chunksOf (chunkBytes len : Nat) : Nat := (len + (chunkBytes - 1)) / chunkBytes

theorem chunksOf_le_iff {chunkBytes len count : Nat} (hpos : 0 < chunkBytes)
    : chunksOf chunkBytes len ≤ count ↔ len ≤ count * chunkBytes := by
  rw [chunksOf, Nat.div_le_iff_le_mul_add_pred hpos, Nat.mul_comm]
  omega

/-- A length whose chunks can be counted has few of them. -/
theorem chunksOf_le {chunkBytes len : Nat} (hmin : minChunkBytes ≤ chunkBytes) (hlen : len < u64Bound)
    : chunksOf chunkBytes len ≤ 2 ^ 58 := by
  have hmin' : 64 ≤ chunkBytes := hmin
  rw [chunksOf_le_iff (by omega)]
  have hbound : u64Bound = 2 ^ 58 * 64 := by decide
  rw [hbound] at hlen
  exact (Nat.le_of_lt hlen).trans (Nat.mul_le_mul_left _ hmin')

/-- The checksums of the sections other than the text. -/
def fixedChecksums (options : KeyIndexOptions) (rows : Nat) : Nat :=
  chunksOf options.chunkBytes (4 * rows) * 2 + chunksOf options.chunkBytes (8 * (rows + 1))

/-- The length of the metadata: the header and a checksum for every chunk of the four sections. -/
def metadataLen (options : KeyIndexOptions) (rows textLen : Nat) : Nat :=
  headerBytes
    + 4 * (chunksOf options.chunkBytes textLen + fixedChecksums options rows)

/-- How many checksums the limit has room for. -/
def checksumSlots (options : KeyIndexOptions) : Nat := (options.maxMetadataBytes - headerBytes) / 4

/-- The longest text whose checksums fit beside the others. -/
def maximumText (options : KeyIndexOptions) (rows : Nat) : Nat :=
  (checkedMul (checksumSlots options - fixedChecksums options rows) options.chunkBytes).getD u64Max

theorem maximumText_le (rows : Nat)
    : maximumText options rows
        ≤ (checksumSlots options - fixedChecksums options rows) * options.chunkBytes := by
  rw [maximumText, checkedMul]
  split
  . exact Nat.le_refl _
  . have hmax : u64Max + 1 = u64Bound := rfl
    rw [Option.getD_none]
    omega

/-- A bound that is not the largest number is the product. -/
theorem maximumText_eq {rows : Nat} (h : maximumText options rows < u64Max)
    : maximumText options rows
        = (checksumSlots options - fixedChecksums options rows) * options.chunkBytes := by
  rw [maximumText, checkedMul] at h ⊢
  split at h
  . next hlt => rw [if_pos hlt, Option.getD_some]
  . exact absurd h (Nat.lt_irrefl _)

/-- The options of a build. -/
structure Accepted (options : KeyIndexOptions) : Prop where
  minChunkBytes_le : minChunkBytes ≤ options.chunkBytes
  chunkBytes_lt : options.chunkBytes < u32Bound
  headerBytes_le : headerBytes ≤ options.maxMetadataBytes

theorem accepted_of_validateOptions (h : validateOptions options = .ok ()) : Accepted options := by
  simp only [validateOptions, except_bind_eq_ok, failIf_eq_ok, not_or, not_not, not_lt] at h
  obtain ⟨-, -, -, ⟨hmin, hmax, -⟩, hheader⟩ := h
  have hbound : u32Max + 1 = u32Bound := rfl
  exact ⟨hmin, by omega, hheader⟩

/-- The metadata is too long when the other checksums leave too little room for those of the text. -/
theorem maxMetadataBytes_lt_iff (h : Accepted options) (rows textLen : Nat)
    : options.maxMetadataBytes < metadataLen options rows textLen
        ↔ checksumSlots options < fixedChecksums options rows
          ∨ (checksumSlots options - fixedChecksums options rows) * options.chunkBytes < textLen := by
  have hmin : 64 ≤ options.chunkBytes := h.minChunkBytes_le
  have hheader := h.headerBytes_le
  have hcount := @chunksOf_le_iff options.chunkBytes textLen
    (checksumSlots options - fixedChecksums options rows) (by omega)
  have hslots : options.maxMetadataBytes < metadataLen options rows textLen
      ↔ checksumSlots options
        < chunksOf options.chunkBytes textLen + fixedChecksums options rows := by
    rw [metadataLen, checksumSlots, headerBytes]
    rw [headerBytes] at hheader
    omega
  rw [hslots]
  omega

/-! ## In advance -/

theorem buildMetadataPlan_eq (h : Accepted options) {rows : Nat}
    (hrows : 8 * (rows + 1) + (options.chunkBytes - 1) < u64Bound)
    : buildMetadataPlan rows options =
        if checksumSlots options < fixedChecksums options rows then
          .error (.limitExceeded "key_index_metadata_bytes"
            (headerBytes + fixedChecksums options rows * 4) options.maxMetadataBytes)
        else
          .ok {
            fixedChecksumCount := fixedChecksums options rows
            maximumTextBytes := maximumText options rows
            limit := options.maxMetadataBytes } := by
  have hmin : 64 ≤ options.chunkBytes := h.minChunkBytes_le
  have hbound : u64Bound = 2 ^ 64 := rfl
  have hrowsAdd : checkedAdd rows 1 = some (rows + 1) := by
    rw [checkedAdd_eq_some]
    omega
  have hbounds : checkedMul (rows + 1) 8 = some (8 * (rows + 1)) := by
    rw [checkedMul_eq_some]
    omega
  have hordinals : checkedMul rows 4 = some (4 * rows) := by
    rw [checkedMul_eq_some]
    omega
  have hboundsCount : chunkCount (8 * (rows + 1)) options.chunkBytes
      = .ok (chunksOf options.chunkBytes (8 * (rows + 1))) :=
    chunkCount_eq_ok.mpr ⟨by omega, rfl, .inr hrows⟩
  have hordinalCount : chunkCount (4 * rows) options.chunkBytes
      = .ok (chunksOf options.chunkBytes (4 * rows)) :=
    chunkCount_eq_ok.mpr ⟨by omega, rfl, .inr (by omega)⟩
  have hboundsLe := chunksOf_le h.minChunkBytes_le (by omega : 8 * (rows + 1) < u64Bound)
  have hordinalsLe := chunksOf_le h.minChunkBytes_le (by omega : 4 * rows < u64Bound)
  have hdouble : checkedMul (chunksOf options.chunkBytes (4 * rows)) 2
      = some (chunksOf options.chunkBytes (4 * rows) * 2) := by
    rw [checkedMul_eq_some]
    omega
  have hfixed : checkedAdd (chunksOf options.chunkBytes (4 * rows) * 2)
      (chunksOf options.chunkBytes (8 * (rows + 1))) = some (fixedChecksums options rows) := by
    rw [checkedAdd_eq_some, fixedChecksums]
    omega
  have hfixedLe : fixedChecksums options rows ≤ 2 ^ 60 := by
    rw [fixedChecksums]
    omega
  have havailable : checkedSub options.maxMetadataBytes headerBytes
      = some (options.maxMetadataBytes - headerBytes) := if_pos h.headerBytes_le
  have hbytes : checkedMul (fixedChecksums options rows) 4
      = some (fixedChecksums options rows * 4) := by
    rw [checkedMul_eq_some]
    omega
  have hrequired : checkedAdd headerBytes (fixedChecksums options rows * 4)
      = some (headerBytes + fixedChecksums options rows * 4) := by
    rw [checkedAdd_eq_some, headerBytes]
    omega
  simp only [buildMetadataPlan, hrowsAdd, Option.bind_some, hbounds, hordinals, okOr_some,
    except_ok_bind, hboundsCount, hordinalCount, hdouble, hfixed, havailable, hbytes, hrequired]
  rfl

/-- When the bounds cannot be counted, the plan fails, but not for the size of the metadata. -/
theorem buildMetadataPlan_error {rows : Nat}
    (hrows : ¬8 * (rows + 1) + (options.chunkBytes - 1) < u64Bound)
    : ∃ e, buildMetadataPlan rows options = .error e ∧ ¬IsMetadataLimit e := by
  cases hbounds : (checkedAdd rows 1).bind (checkedMul · 8) with
  | none =>
    refine ⟨_, ?_, not_isMetadataLimit_invalidFormat "key-index bounds length overflow"⟩
    rw [buildMetadataPlan, hbounds]
    rfl
  | some bounds =>
    rw [Option.bind_eq_some_iff] at hbounds
    obtain ⟨count, hcount, hbounds⟩ := hbounds
    have hbytes : bounds = 8 * (rows + 1) := by
      rw [checkedAdd_eq_some] at hcount
      rw [checkedMul_eq_some] at hbounds
      omega
    have hordinals : checkedMul rows 4 = some (rows * 4) := by
      rw [checkedMul_eq_some] at hbounds ⊢
      omega
    cases hchunks : chunkCount bounds options.chunkBytes with
    | error e =>
      refine ⟨e, ?_, (chunkCount_eq_error hchunks).1⟩
      rw [buildMetadataPlan, hcount, Option.bind_some, hbounds, okOr_some, except_ok_bind,
        hordinals, okOr_some, except_ok_bind, hchunks]
      rfl
    | ok chunks =>
      obtain ⟨-, -, hlen⟩ := chunkCount_eq_ok.mp hchunks
      omega

theorem growText_eq_ok {plan : BuildMetadataPlan} {textLen rowLen next : Nat}
    : growText plan options textLen rowLen = .ok next
        ↔ next = textLen + rowLen ∧ next < u64Bound ∧ next ≤ plan.maximumTextBytes := by
  have hcheck : checkTextLen plan options (textLen + rowLen) = .ok ()
      ↔ textLen + rowLen ≤ plan.maximumTextBytes := by
    unfold checkTextLen
    split
    . next hover =>
      simp only [except_bind_eq_ok, reduceCtorEq, and_false, exists_false, false_iff]
      omega
    . next hfits =>
      simp only [true_iff]
      omega
  simp only [growText, except_bind_eq_ok, okOr_eq_ok, checkedAdd_eq_some, except_pure_eq_ok]
  constructor
  . rintro ⟨_, ⟨rfl, hlt⟩, ⟨⟩, hfits, rfl⟩
    exact ⟨rfl, hlt, hcheck.mp hfits⟩
  . rintro ⟨rfl, hlt, hfits⟩
    exact ⟨_, ⟨rfl, hlt⟩, (), hcheck.mpr hfits, rfl⟩

/-- A row that is too much for the metadata is one whose checksums do not fit. -/
theorem growText_limit {plan : BuildMetadataPlan} {textLen rowLen : Nat} {e : Error}
    (h : growText plan options textLen rowLen = .error e) (he : IsMetadataLimit e)
    : textLen + rowLen < u64Bound ∧ plan.maximumTextBytes < textLen + rowLen := by
  by_cases hlt : textLen + rowLen < u64Bound
  . refine ⟨hlt, ?_⟩
    by_contra hle
    have hok : growText plan options textLen rowLen = .ok (textLen + rowLen) :=
      growText_eq_ok.mpr ⟨rfl, hlt, Nat.le_of_not_lt hle⟩
    rw [hok] at h
    contradiction
  . exfalso
    have hover : checkedAdd textLen rowLen = none := checkedAdd_eq_none.mpr (Nat.le_of_not_lt hlt)
    rw [growText, hover] at h
    cases h
    exact not_isMetadataLimit_invalidFormat _ he

theorem growText_exceeds {plan : BuildMetadataPlan} {textLen rowLen : Nat}
    (h : Accepted options) (hfixed : plan.fixedChecksumCount ≤ 2 ^ 60)
    (hlt : textLen + rowLen + (options.chunkBytes - 1) < u64Bound)
    (hover : plan.maximumTextBytes < textLen + rowLen)
    : ∃ e, growText plan options textLen rowLen = .error e ∧ IsMetadataLimit e := by
  have hmin : 64 ≤ options.chunkBytes := h.minChunkBytes_le
  have hbound : u64Bound = 2 ^ 64 := rfl
  have hsum : checkedAdd textLen rowLen = some (textLen + rowLen) := by
    rw [checkedAdd_eq_some]
    omega
  have hchunks : chunkCount (textLen + rowLen) options.chunkBytes
      = .ok (chunksOf options.chunkBytes (textLen + rowLen)) :=
    chunkCount_eq_ok.mpr ⟨by omega, rfl, .inr hlt⟩
  have hchunksLe := chunksOf_le h.minChunkBytes_le (by omega : textLen + rowLen < u64Bound)
  generalize chunksOf options.chunkBytes (textLen + rowLen) = chunks at hchunks hchunksLe
  have hcount : checkedAdd plan.fixedChecksumCount chunks
      = some (plan.fixedChecksumCount + chunks) := by
    rw [checkedAdd_eq_some]
    omega
  have hbytes : checkedMul (plan.fixedChecksumCount + chunks) 4
      = some ((plan.fixedChecksumCount + chunks) * 4) := by
    rw [checkedMul_eq_some]
    omega
  have hrequired : checkedAdd headerBytes ((plan.fixedChecksumCount + chunks) * 4)
      = some (headerBytes + (plan.fixedChecksumCount + chunks) * 4) := by
    rw [checkedAdd_eq_some, headerBytes]
    omega
  refine ⟨_, ?_, headerBytes + (plan.fixedChecksumCount + chunks) * 4, plan.limit, rfl⟩
  rw [growText, hsum, okOr_some, except_ok_bind, checkTextLen, if_pos hover, hchunks,
    except_ok_bind, hcount, Option.bind_some, hbytes, Option.bind_some, hrequired]
  rfl

/-! ### All rows -/

theorem foldlM_growText_eq_ok {plan : BuildMetadataPlan} {rowLens : List Nat} {textLen last : Nat}
    (hlt : textLen < u64Bound) (hle : textLen ≤ plan.maximumTextBytes)
    : rowLens.foldlM (growText plan options) textLen = .ok last
        ↔ last = textLen + rowLens.sum ∧ last < u64Bound ∧ last ≤ plan.maximumTextBytes := by
  induction rowLens generalizing textLen with
  | nil =>
    rw [List.foldlM_nil, except_pure_eq_ok, List.sum_nil]
    omega
  | cons rowLen rowLens ih =>
    rw [List.foldlM_cons, except_bind_eq_ok, List.sum_cons, ← Nat.add_assoc]
    constructor
    . rintro ⟨next, hnext, hrest⟩
      obtain ⟨rfl, hnextLt, hnextLe⟩ := growText_eq_ok.mp hnext
      exact (ih hnextLt hnextLe).mp hrest
    . rintro ⟨rfl, hlastLt, hlastLe⟩
      have hnextLt : textLen + rowLen < u64Bound := by omega
      have hnextLe : textLen + rowLen ≤ plan.maximumTextBytes := by omega
      exact ⟨_, growText_eq_ok.mpr ⟨rfl, hnextLt, hnextLe⟩,
        (ih hnextLt hnextLe).mpr ⟨rfl, hlastLt, hlastLe⟩⟩

theorem foldlM_growText_limit {plan : BuildMetadataPlan} {rowLens : List Nat} {textLen : Nat}
    {e : Error} (h : rowLens.foldlM (growText plan options) textLen = .error e)
    (he : IsMetadataLimit e)
    : plan.maximumTextBytes < u64Max ∧ plan.maximumTextBytes < textLen + rowLens.sum := by
  induction rowLens generalizing textLen with
  | nil => contradiction
  | cons rowLen rowLens ih =>
    rw [List.foldlM_cons] at h
    rw [List.sum_cons, ← Nat.add_assoc]
    cases hnext : growText plan options textLen rowLen with
    | error e' =>
      rw [hnext] at h
      cases h
      have hmax : u64Max + 1 = u64Bound := rfl
      have := growText_limit hnext he
      omega
    | ok next =>
      rw [hnext, except_ok_bind] at h
      obtain ⟨rfl, -⟩ := growText_eq_ok.mp hnext
      exact ih h

theorem foldlM_growText_exceeds {plan : BuildMetadataPlan} (h : Accepted options)
    (hfixed : plan.fixedChecksumCount ≤ 2 ^ 60) {rowLens : List Nat} {textLen : Nat}
    (hlt : textLen + rowLens.sum + (options.chunkBytes - 1) < u64Bound)
    (hle : textLen ≤ plan.maximumTextBytes)
    (hover : plan.maximumTextBytes < textLen + rowLens.sum)
    : ∃ e, rowLens.foldlM (growText plan options) textLen = .error e ∧ IsMetadataLimit e := by
  induction rowLens generalizing textLen with
  | nil =>
    rw [List.sum_nil] at hover
    omega
  | cons rowLen rowLens ih =>
    rw [List.sum_cons, ← Nat.add_assoc] at hlt hover
    rw [List.foldlM_cons]
    by_cases hnext : textLen + rowLen ≤ plan.maximumTextBytes
    . have hok : growText plan options textLen rowLen = .ok (textLen + rowLen) :=
        growText_eq_ok.mpr ⟨rfl, by omega, hnext⟩
      rw [hok, except_ok_bind]
      exact ih hlt hnext hover
    . obtain ⟨e, he, hlimit⟩ := growText_exceeds h hfixed
        (by omega : textLen + rowLen + (options.chunkBytes - 1) < u64Bound) (by omega)
      exact ⟨e, by rw [he]; rfl, hlimit⟩

/-! ## In the end -/

/-- The sections of an index whose rows have normalized texts of these lengths. -/
structure Finished (options : KeyIndexOptions) (rowLens : List Nat) (sections : List SectionFile)
    : Prop where
  sectionsOf : SectionsOf rowLens.length rowLens.sum sections
  counts : ∀ «section» ∈ sections,
    chunkCount section.len options.chunkBytes = .ok section.checksums.length

theorem checksumTotal_of_counts {sections : List SectionFile} {chunkBytes checksumStart : Nat}
    (hcounts : ∀ «section» ∈ sections,
      chunkCount section.len chunkBytes = .ok section.checksums.length)
    (hlt : checksumStart + (sections.map (·.checksums.length)).sum < u64Bound)
    : checksumTotal chunkBytes checksumStart sections
        = .ok (checksumStart + (sections.map (·.checksums.length)).sum) := by
  induction sections generalizing checksumStart with
  | nil => rfl
  | cons «section» sections ih =>
    rw [List.map_cons, List.sum_cons, ← Nat.add_assoc] at hlt ⊢
    have hadd : checkedAdd checksumStart section.checksums.length
        = some (checksumStart + section.checksums.length) := by
      rw [checkedAdd_eq_some]
      omega
    rw [checksumTotal, hcounts _ List.mem_cons_self, except_ok_bind,
      failIf_of_not (not_not.mpr rfl), except_ok_bind, hadd, okOr_some, except_ok_bind]
    exact ih (fun other hother => hcounts other (List.mem_cons_of_mem _ hother)) hlt

/-- Sections of the right lengths that are written as sections are. -/
theorem finished_sectionOf (h : Accepted options) {rowLens : List Nat} {bytes : SectionKind → Bytes}
    (hlen : ∀ kind, (bytes kind).length = sectionLen rowLens.length rowLens.sum kind)
    (hlt : ∀ kind, (bytes kind).length + (options.chunkBytes - 1) < u64Bound)
    : Finished options rowLens
        (SectionKind.all.map fun kind => sectionOf kind options (bytes kind)) := by
  have hmin : 64 ≤ options.chunkBytes := h.minChunkBytes_le
  refine ⟨⟨rfl, ?_, ?_⟩, ?_⟩
  . intro «section» hsection
    obtain ⟨kind, -, rfl⟩ := List.mem_map.mp hsection
    rfl
  . intro «section» hsection
    obtain ⟨kind, -, rfl⟩ := List.mem_map.mp hsection
    exact hlen kind
  . intro «section» hsection
    obtain ⟨kind, -, rfl⟩ := List.mem_map.mp hsection
    exact chunkCount_eq_ok.mpr ⟨by omega, length_chunkSums, .inr (hlt kind)⟩

namespace Finished

variable {rowLens : List Nat} {sections : List SectionFile}

theorem map_checksums (h : Finished options rowLens sections)
    : sections.map (·.checksums.length)
        = SectionKind.all.map fun kind =>
          chunksOf options.chunkBytes (sectionLen rowLens.length rowLens.sum kind) := by
  rw [← h.sectionsOf.kinds, List.map_map]
  apply List.map_congr_left
  intro «section» hsection
  obtain ⟨-, hcount, -⟩ := chunkCount_eq_ok.mp (h.counts _ hsection)
  rw [hcount, h.sectionsOf.len _ hsection]
  rfl

/-- The number of all checksums. -/
theorem sum_checksums (h : Finished options rowLens sections)
    : headerBytes + (sections.map (·.checksums.length)).sum * 4
        = metadataLen options rowLens.length rowLens.sum := by
  rw [h.map_checksums, metadataLen, fixedChecksums, SectionKind.all]
  simp only [List.map_cons, List.map_nil, List.sum_cons, List.sum_nil, sectionLen]
  omega

theorem len_lt (h : Finished options rowLens sections) (kind : SectionKind)
    : sectionLen rowLens.length rowLens.sum kind = 0
        ∨ sectionLen rowLens.length rowLens.sum kind + (options.chunkBytes - 1) < u64Bound := by
  obtain ⟨«section», hsection, rfl⟩ := h.sectionsOf.exists_mem kind
  obtain ⟨-, -, hlen⟩ := chunkCount_eq_ok.mp (h.counts _ hsection)
  rw [← h.sectionsOf.len _ hsection]
  exact hlen

theorem checksumTotal (h : Finished options rowLens sections) (haccepted : Accepted options)
    : ∃ total, Persistent.checksumTotal options.chunkBytes 0 sections = .ok total
        ∧ total ≤ 2 ^ 60
        ∧ headerBytes + total * 4 = metadataLen options rowLens.length rowLens.sum := by
  have hmin : 64 ≤ options.chunkBytes := haccepted.minChunkBytes_le
  have hle : (sections.map (·.checksums.length)).sum ≤ 2 ^ 60 := by
    have hkind (kind : SectionKind)
        : chunksOf options.chunkBytes (sectionLen rowLens.length rowLens.sum kind) ≤ 2 ^ 58 := by
      apply chunksOf_le haccepted.minChunkBytes_le
      have hbound : u64Bound = 2 ^ 64 := rfl
      rcases h.len_lt kind with hzero | hlt <;> omega
    rw [h.map_checksums, SectionKind.all]
    simp only [List.map_cons, List.map_nil, List.sum_cons, List.sum_nil]
    have htext := hkind .text
    have hbounds := hkind .bounds
    have hraw := hkind .raw
    have horder := hkind .order
    omega
  have htotal := @checksumTotal_of_counts _ _ 0 h.counts (by
    have hbound : u64Bound = 2 ^ 64 := rfl
    omega)
  rw [Nat.zero_add] at htotal
  exact ⟨_, htotal, hle, h.sum_checksums⟩

end Finished

theorem failsWith_align8 (value : Nat)
    : FailsWith (fun e => ¬IsMetadataLimit e) (align8 value) :=
  .bind (failsWith_okOr (by rintro ⟨_, _, ⟨⟩⟩)) fun _ _ => .pure _

theorem failsWith_layOut (offset checksumStart : Nat) (descriptors : SectionTable)
    (sections : List SectionFile)
    : FailsWith (fun e => ¬IsMetadataLimit e)
        (layOut offset checksumStart descriptors sections) := by
  induction sections generalizing offset checksumStart descriptors with
  | nil => exact .ok _
  | cons «section» sections ih =>
    exact .bind (failsWith_align8 _) fun _ _ =>
      .bind (failsWith_okOr (not_isMetadataLimit_invalidFormat _)) fun _ _ =>
        .bind (failsWith_okOr (not_isMetadataLimit_invalidFormat _)) fun _ _ => ih _ _ _

/-- A header is refused for the size of the metadata exactly when that is above the limit. -/
theorem buildHeader_limit_iff (h : Accepted options) {sections : List SectionFile} {total : Nat}
    (htotal : checksumTotal options.chunkBytes 0 sections = .ok total) (hle : total ≤ 2 ^ 60)
    (identity : KeyIndexSourceIdentity) (normalizedTextLen : Nat)
    : (∃ e, buildHeader sections identity normalizedTextLen options = .error e ∧ IsMetadataLimit e)
        ↔ options.maxMetadataBytes < headerBytes + total * 4 := by
  have hbytes : checkedMul total 4 = some (total * 4) := by
    have hbound : u64Bound = 2 ^ 64 := rfl
    rw [checkedMul_eq_some]
    omega
  have hmetadata : checkedAdd headerBytes (total * 4) = some (headerBytes + total * 4) := by
    have hbound : u64Bound = 2 ^ 64 := rfl
    rw [checkedAdd_eq_some, headerBytes]
    omega
  have hheader : ensureLimit "key_index_header_bytes" headerBytes options.maxMetadataBytes = .ok () :=
    ensureLimit_eq_ok.mpr h.headerBytes_le
  rw [buildHeader, toU32?_eq_some.mpr ⟨rfl, h.chunkBytes_lt⟩, okOr_some, except_ok_bind,
    hheader, except_ok_bind, htotal, except_ok_bind, hbytes,
    okOr_some, except_ok_bind, hmetadata, okOr_some, except_ok_bind]
  constructor
  . rintro ⟨e, he, hlimit⟩
    by_contra hle
    have hfits : ensureLimit "key_index_metadata_bytes" (headerBytes + total * 4)
        options.maxMetadataBytes = .ok () :=
      ensureLimit_eq_ok.mpr (Nat.le_of_not_lt hle)
    rw [hfits, except_ok_bind] at he
    refine FailsWith.bind (failsWith_align8 _) (fun _ _ => ?_) e he hlimit
    refine .bind (failsWith_layOut _ _ _ _) fun _ _ => ?_
    refine .bind (failsWith_failIf ?_) fun _ _ => ?_
    . rintro ⟨_, _, hlimit⟩
      injection hlimit with hname
      exact absurd hname (by decide)
    . exact .bind (failsWith_failIf (not_isMetadataLimit_invalidFormat _)) fun _ _ =>
        .bind (failsWith_failIf (not_isMetadataLimit_invalidFormat _)) fun _ _ => .pure _
  . intro hover
    refine ⟨_, ?_, headerBytes + total * 4, options.maxMetadataBytes, rfl⟩
    rw [ensureLimit, failIf, if_pos hover]
    rfl

end Mdict.Persistent
