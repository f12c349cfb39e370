import Mdict.Core.Persistent.Format
import Mdict.Lemmas.Checksum
import Mdict.Lemmas.Session
import Mdict.Lib.Search

/-!
This module contains the round trip of the index file: what `buildHeader` writes is what
`parseHeader` reads back, and the layout of the sections passes its validation.
-/

namespace Mdict.Persistent

open Effect

/-! ## Arithmetic of the layout -/

@[simp]
theorem align8_eq_ok {value aligned : Nat}
    : align8 value = .ok aligned ↔ (value + 7) / 8 * 8 = aligned ∧ value + 7 < u64Bound := by
  simp only [align8, except_bind_eq_ok, okOr_eq_ok, checkedAdd_eq_some, except_pure_eq_ok]
  constructor
  . rintro ⟨_, ⟨rfl, hlt⟩, rfl⟩
    exact ⟨rfl, hlt⟩
  . rintro ⟨rfl, hlt⟩
    exact ⟨_, ⟨rfl, hlt⟩, rfl⟩

/-- Aligning again changes nothing. -/
theorem align8_of_aligned {value : Nat} (h : value % 8 = 0) (hlt : value + 7 < u64Bound)
    : align8 value = .ok value := by
  rw [align8_eq_ok]
  omega

/-- The number of chunks is the length by the chunk length, rounded up. -/
theorem chunkCount_eq_ok {len chunkBytes count : Nat}
    : chunkCount len chunkBytes = .ok count
        ↔ 0 < chunkBytes ∧ count = (len + (chunkBytes - 1)) / chunkBytes
          ∧ (len = 0 ∨ len + (chunkBytes - 1) < u64Bound) := by
  unfold chunkCount
  split
  . simp only [reduceCtorEq, false_iff]
    omega
  . split
    . next hchunk hlen =>
      have hzero : (len + (chunkBytes - 1)) / chunkBytes = 0 := Nat.div_eq_of_lt (by omega)
      rw [hzero]
      simp only [Except.ok.injEq]
      omega
    . simp only [except_bind_eq_ok, okOr_eq_ok, checkedAdd_eq_some, except_pure_eq_ok]
      constructor
      . rintro ⟨_, ⟨rfl, hlt⟩, rfl⟩
        exact ⟨by omega, rfl, .inr hlt⟩
      . rintro ⟨-, rfl, hlt⟩
        exact ⟨_, ⟨rfl, by omega⟩, rfl⟩

theorem chunkCount_lt {len chunkBytes count : Nat} (h : chunkCount len chunkBytes = .ok count)
    : count < u64Bound := by
  obtain ⟨hchunk, rfl, hlen | hlt⟩ := chunkCount_eq_ok.mp h
  . rw [hlen, Nat.div_eq_of_lt (by omega)]
    decide
  . exact Nat.lt_of_le_of_lt (Nat.div_le_self _ _) hlt

/-! ## Reading fields -/

namespace HeaderCursor

/-- The bytes from the position of a cursor on. -/
structure StandsAt (cursor : HeaderCursor) (rest : Bytes) : Prop where
  rest_eq : cursor.bytes.drop cursor.position = rest
  length_eq : cursor.position + rest.length = cursor.bytes.length
  length_lt : cursor.bytes.length < u64Bound

variable {cursor : HeaderCursor} {rest : Bytes}

theorem standsAt_start {bytes : Bytes} (h : bytes.length < u64Bound)
    : StandsAt { bytes, position := 0 } bytes :=
  ⟨rfl, Nat.zero_add _, h⟩

theorem readArray_append {field : Bytes} {n : Nat} (h : cursor.StandsAt (field ++ rest))
    (hn : field.length = n)
    : ∃ next, cursor.readArray n = .ok (field, next) ∧ next.bytes = cursor.bytes
        ∧ next.StandsAt rest := by
  subst hn
  have hlen := h.length_eq
  have hlt := h.length_lt
  rw [List.length_append] at hlen
  refine ⟨{ cursor with position := cursor.position + field.length }, ?_, rfl, ?_⟩
  . have hstop : checkedAdd cursor.position field.length = some (cursor.position + field.length) := by
      rw [checkedAdd_eq_some]
      omega
    have hfield : cursor.bytes.get? cursor.position (cursor.position + field.length)
        = some field := by
      rw [Bytes.get?_eq_some_iff, h.rest_eq, Nat.add_sub_cancel_left, List.take_left]
      exact ⟨by omega, by omega, rfl⟩
    rw [readArray, hstop, okOr_some, except_ok_bind, hfield]
    rfl
  . refine ⟨?_, by dsimp only; omega, hlt⟩
    rw [← List.drop_drop, h.rest_eq, List.drop_left]

theorem readU32_append {value : Nat} (h : cursor.StandsAt (Bytes.ofLE 4 value ++ rest))
    (hvalue : value < u32Bound)
    : ∃ next, cursor.readU32 = .ok (value, next) ∧ next.bytes = cursor.bytes
        ∧ next.StandsAt rest := by
  obtain ⟨next, hread, hbytes, hnext⟩ := readArray_append h (Bytes.length_ofLE 4 value)
  refine ⟨next, ?_, hbytes, hnext⟩
  rw [readU32, hread, except_ok_bind]
  dsimp only
  rw [Bytes.toLE_ofLE_of_lt hvalue]
  rfl

theorem readU64_append {value : Nat} (h : cursor.StandsAt (Bytes.ofLE 8 value ++ rest))
    (hvalue : value < u64Bound)
    : ∃ next, cursor.readU64 = .ok (value, next) ∧ next.bytes = cursor.bytes
        ∧ next.StandsAt rest := by
  obtain ⟨next, hread, hbytes, hnext⟩ := readArray_append h (Bytes.length_ofLE 8 value)
  refine ⟨next, ?_, hbytes, hnext⟩
  rw [readU64, hread, except_ok_bind]
  dsimp only
  rw [Bytes.toLE_ofLE_of_lt hvalue]
  rfl

theorem readI128_append {value : BitVec 128}
    (h : cursor.StandsAt (Bytes.ofLE 16 value.toNat ++ rest))
    : ∃ next, cursor.readI128 = .ok (value, next) ∧ next.bytes = cursor.bytes
        ∧ next.StandsAt rest := by
  obtain ⟨next, hread, hbytes, hnext⟩ := readArray_append h (Bytes.length_ofLE 16 value.toNat)
  refine ⟨next, ?_, hbytes, hnext⟩
  rw [readI128, hread, except_ok_bind]
  dsimp only
  rw [Bytes.toLE_ofLE_of_lt (by have := value.isLt; omega), BitVec.ofNat_toNat,
    BitVec.setWidth_eq]
  rfl

end HeaderCursor

/-- All fields of a descriptor fit their eight bytes. -/
structure FieldsFit (descriptor : SectionDescriptor) : Prop where
  offset : descriptor.offset < u64Bound
  len : descriptor.len < u64Bound
  checksumStart : descriptor.checksumStart < u64Bound
  checksumCount : descriptor.checksumCount < u64Bound

/-- The bytes of a descriptor. -/
def descriptorBytes (descriptor : SectionDescriptor) : Bytes :=
  Bytes.ofLE 8 descriptor.offset ++ (Bytes.ofLE 8 descriptor.len
    ++ (Bytes.ofLE 8 descriptor.checksumStart ++ Bytes.ofLE 8 descriptor.checksumCount))

namespace HeaderCursor

variable {cursor : HeaderCursor} {rest : Bytes}

theorem readDescriptor_append {descriptor : SectionDescriptor}
    (h : cursor.StandsAt (descriptorBytes descriptor ++ rest)) (hfit : FieldsFit descriptor)
    : ∃ next, cursor.readDescriptor = .ok (descriptor, next) ∧ next.bytes = cursor.bytes
        ∧ next.StandsAt rest := by
  simp only [descriptorBytes, List.append_assoc] at h
  obtain ⟨c1, h1, hb1, hs1⟩ := readU64_append h hfit.offset
  obtain ⟨c2, h2, hb2, hs2⟩ := readU64_append hs1 hfit.len
  obtain ⟨c3, h3, hb3, hs3⟩ := readU64_append hs2 hfit.checksumStart
  obtain ⟨c4, h4, hb4, hs4⟩ := readU64_append hs3 hfit.checksumCount
  refine ⟨c4, ?_, by rw [hb4, hb3, hb2, hb1], hs4⟩
  simp only [readDescriptor, h1, h2, h3, h4, except_ok_bind]
  rfl

/-- Descriptors in a row, each for one of `kinds`. -/
theorem readDescriptors_append {descriptors : SectionTable} {kinds : List SectionKind}
    (table : SectionTable)
    (h : cursor.StandsAt (kinds.flatMap (fun kind => descriptorBytes (descriptors kind)) ++ rest))
    (hfit : ∀ kind, FieldsFit (descriptors kind))
    : ∃ next table', cursor.readDescriptors table kinds = .ok (table', next)
        ∧ next.bytes = cursor.bytes ∧ next.StandsAt rest
        ∧ (∀ kind ∈ kinds, table' kind = descriptors kind)
        ∧ ∀ kind ∉ kinds, table' kind = table kind := by
  induction kinds generalizing cursor table with
  | nil => exact ⟨cursor, table, rfl, rfl, h, by simp, fun _ _ => rfl⟩
  | cons kind kinds ih =>
    rw [List.flatMap_cons, List.append_assoc] at h
    obtain ⟨c1, h1, hb1, hs1⟩ := readDescriptor_append h (hfit kind)
    obtain ⟨c2, table', h2, hb2, hs2, hmem, hnotMem⟩ := ih (table.set kind (descriptors kind)) hs1
    refine ⟨c2, table', ?_, hb2.trans hb1, hs2, ?_, ?_⟩
    . simp only [readDescriptors, h1, except_ok_bind]
      exact h2
    . intro other hother
      by_cases hkinds : other ∈ kinds
      . exact hmem other hkinds
      . obtain rfl := (List.mem_cons.mp hother).resolve_right hkinds
        rw [hnotMem other hkinds, SectionTable.set, if_pos rfl]
    . intro other hother
      rw [List.mem_cons, not_or] at hother
      rw [hnotMem other hother.2, SectionTable.set, if_neg hother.1]

theorem readMarkers_append
    (h : cursor.StandsAt (magic ++ (Bytes.ofLE 4 keyIndexFormatRevision
      ++ (Bytes.ofLE 4 endianMarker ++ rest))))
    : ∃ next, cursor.readMarkers = .ok next ∧ next.bytes = cursor.bytes
        ∧ next.StandsAt rest := by
  obtain ⟨c1, h1, hb1, hs1⟩ := readArray_append (n := 8) h rfl
  obtain ⟨c2, h2, hb2, hs2⟩ := readU32_append hs1 (by decide)
  obtain ⟨c3, h3, hb3, hs3⟩ := readU32_append hs2 (by decide)
  refine ⟨c3, ?_, by rw [hb3, hb2, hb1], hs3⟩
  simp only [readMarkers, h1, h2, h3, except_ok_bind]
  rfl

theorem readRevisions_append
    (h : cursor.StandsAt (Bytes.ofLE 4 keyIndexParserRevision
      ++ (Bytes.ofLE 4 keyIndexNormalizationRevision ++ rest)))
    : ∃ next, cursor.readRevisions = .ok next ∧ next.bytes = cursor.bytes
        ∧ next.StandsAt rest := by
  obtain ⟨c1, h1, hb1, hs1⟩ := readU32_append h (by decide)
  obtain ⟨c2, h2, hb2, hs2⟩ := readU32_append hs1 (by decide)
  refine ⟨c2, ?_, hb2.trans hb1, hs2⟩
  simp only [readRevisions, h1, h2, except_ok_bind]
  rfl

theorem readChunkBytes_append {options : KeyIndexOptions}
    (h : cursor.StandsAt (Bytes.ofLE 4 options.chunkBytes ++ rest))
    (hoptions : validateOptions options = .ok ())
    : ∃ next, cursor.readChunkBytes options = .ok (options.chunkBytes, next)
        ∧ next.bytes = cursor.bytes ∧ next.StandsAt rest := by
  simp only [validateOptions, except_bind_eq_ok, failIf_eq_ok, not_or, not_not] at hoptions
  obtain ⟨⟨⟩, -, ⟨⟩, ⟨hmin, hmax, hpower⟩, -⟩ := hoptions
  have hbound : u32Max + 1 = u32Bound := by decide
  obtain ⟨c1, h1, hb1, hs1⟩ := readU32_append h (by omega)
  refine ⟨c1, ?_, hb1, hs1⟩
  simp only [readChunkBytes, h1, except_ok_bind]
  rw [failIf_of_not (by rw [not_or, not_not]; exact ⟨hmin, hpower⟩), except_ok_bind,
    failIf_of_not (Nat.lt_irrefl _)]
  rfl

theorem readIdentity_append {identity : KeyIndexSourceIdentity}
    (h : cursor.StandsAt (Bytes.ofLE 8 identity.sourceBytes
      ++ (Bytes.ofLE 16 identity.sourceModifiedUnixNanos.toNat
        ++ (Bytes.ofLE 8 identity.keyCount ++ rest))))
    (hsource : identity.sourceBytes < u64Bound) (hcount : identity.keyCount ≤ u32Max)
    : ∃ next, cursor.readIdentity = .ok (identity, next) ∧ next.bytes = cursor.bytes
        ∧ next.StandsAt rest := by
  have hbound : u32Max < u64Bound := by decide
  obtain ⟨c1, h1, hb1, hs1⟩ := readU64_append h hsource
  obtain ⟨c2, h2, hb2, hs2⟩ := readI128_append hs1
  obtain ⟨c3, h3, hb3, hs3⟩ := readU64_append hs2 (by omega)
  refine ⟨c3, ?_, by rw [hb3, hb2, hb1], hs3⟩
  simp only [readIdentity, h1, h2, h3, except_ok_bind]
  rw [failIf_of_not (by omega)]
  rfl

end HeaderCursor

/-! ## Building and parsing a header -/

/-- The fields of a header, one after the other. -/
theorem headerFields_eq (totalLen chunkBytes : Nat) (identity : KeyIndexSourceIdentity)
    (normalizedTextLen : Nat) (descriptors : SectionTable)
    : headerFields totalLen chunkBytes identity normalizedTextLen descriptors
        = magic ++ (Bytes.ofLE 4 keyIndexFormatRevision ++ (Bytes.ofLE 4 endianMarker
          ++ (Bytes.ofLE 8 headerBytes ++ (Bytes.ofLE 8 totalLen
          ++ (Bytes.ofLE 4 keyIndexParserRevision ++ (Bytes.ofLE 4 keyIndexNormalizationRevision
          ++ (Bytes.ofLE 4 chunkBytes ++ (Bytes.ofLE 4 sectionCount
          ++ (Bytes.ofLE 8 identity.sourceBytes
          ++ (Bytes.ofLE 16 identity.sourceModifiedUnixNanos.toNat
          ++ (Bytes.ofLE 8 identity.keyCount ++ (Bytes.ofLE 8 normalizedTextLen
          ++ SectionKind.all.flatMap fun kind =>
            descriptorBytes (descriptors kind))))))))))))) := by
  simp only [headerFields, pushU32, pushU64, pushI128, pushDescriptor, SectionKind.all,
    List.foldl_cons, List.foldl_nil, List.flatMap_cons, List.flatMap_nil, descriptorBytes,
    List.append_assoc, List.append_nil]

/-- The sections lie one after the other from `offset` on, aligned, and so do their checksums. -/
def LaidOut (descriptors : SectionTable) (offset checksumStart : Nat)
    : (sections : List SectionFile) → (stop : Nat) → Prop
  | [], stop => offset = stop
  | «section» :: sections, stop =>
    let descriptor := descriptors section.kind
    align8 offset = .ok descriptor.offset
      ∧ descriptor.len = section.len
      ∧ descriptor.checksumStart = checksumStart
      ∧ descriptor.checksumCount = section.checksums.length
      ∧ checksumStart + section.checksums.length < u64Bound
      ∧ descriptor.offset + section.len < u64Bound
      ∧ LaidOut descriptors (descriptor.offset + section.len)
          (checksumStart + section.checksums.length) sections stop

theorem layOut_eq_ok {sections : List SectionFile} {offset checksumStart stop : Nat}
    {table descriptors : SectionTable}
    (h : layOut offset checksumStart table sections = .ok (descriptors, stop))
    (hnodup : (sections.map (·.kind)).Nodup)
    : LaidOut descriptors offset checksumStart sections stop
        ∧ ∀ kind ∉ sections.map (·.kind), descriptors kind = table kind := by
  induction sections generalizing offset checksumStart table with
  | nil =>
    rw [layOut, Except.ok.injEq, Prod.mk.injEq] at h
    obtain ⟨rfl, rfl⟩ := h
    exact ⟨rfl, fun _ _ => rfl⟩
  | cons «section» sections ih =>
    rw [List.map_cons, List.nodup_cons] at hnodup
    simp only [layOut, except_bind_eq_ok, okOr_eq_ok, checkedAdd_eq_some] at h
    obtain ⟨aligned, haligned, _, ⟨rfl, hchecksums⟩, _, ⟨rfl, hstop⟩, h⟩ := h
    obtain ⟨hrest, hothers⟩ := ih h hnodup.2
    have hkind := hothers section.kind hnodup.1
    rw [SectionTable.set, if_pos rfl] at hkind
    refine ⟨?_, ?_⟩
    . unfold LaidOut
      rw [hkind]
      exact ⟨haligned, rfl, rfl, rfl, hchecksums, hstop, hrest⟩
    . intro kind hmem
      rw [List.map_cons, List.mem_cons, not_or] at hmem
      rw [hothers kind hmem.2, SectionTable.set, if_neg hmem.1]

namespace LaidOut

variable {descriptors : SectionTable} {offset checksumStart stop : Nat}
variable {sections : List SectionFile}

theorem offset_le_stop (h : LaidOut descriptors offset checksumStart sections stop)
    : offset ≤ stop := by
  induction sections generalizing offset checksumStart with
  | nil => exact Nat.le_of_eq h
  | cons «section» sections ih =>
    obtain ⟨haligned, -, -, -, -, -, hrest⟩ := h
    rw [align8_eq_ok] at haligned
    have := ih hrest
    omega

/-- The descriptor of a section says how long it is, and where it and its checksums lie. -/
theorem of_mem (h : LaidOut descriptors offset checksumStart sections stop)
    {«section» : SectionFile} (hmem : «section» ∈ sections)
    : FieldsFit (descriptors section.kind)
        ∧ (descriptors section.kind).len = section.len
        ∧ (descriptors section.kind).checksumCount = section.checksums.length
        ∧ (descriptors section.kind).offset % 8 = 0
        ∧ (descriptors section.kind).offset + section.len ≤ stop := by
  induction sections generalizing offset checksumStart with
  | nil => contradiction
  | cons first sections ih =>
    obtain ⟨haligned, hlen, hstart, hcount, hchecksums, hend, hrest⟩ := h
    rcases List.mem_cons.mp hmem with rfl | hmem
    . rw [align8_eq_ok] at haligned
      refine ⟨⟨by omega, by omega, by omega, by omega⟩, hlen, hcount, by omega, ?_⟩
      exact offset_le_stop hrest
    . exact ih hrest hmem

/-- Sections that are laid out pass the check of their offsets. -/
theorem checkSectionOffsets (h : LaidOut descriptors offset checksumStart sections stop)
    {sourceLen : Nat} (hstop : stop ≤ sourceLen)
    : Persistent.checkSectionOffsets sourceLen offset
        (sections.map fun «section» => descriptors section.kind) = .ok stop := by
  induction sections generalizing offset checksumStart with
  | nil =>
    cases h
    rfl
  | cons «section» sections ih =>
    have hle := (h.of_mem List.mem_cons_self).2.2.2
    obtain ⟨haligned, hlen, -, -, -, hend, hrest⟩ := h
    have hadd : checkedAdd (descriptors section.kind).offset (descriptors section.kind).len
        = some ((descriptors section.kind).offset + section.len) := by
      rw [checkedAdd_eq_some, hlen]
      exact ⟨rfl, hend⟩
    rw [List.map_cons, Persistent.checkSectionOffsets, haligned, except_ok_bind,
      failIf_of_not (by omega), except_ok_bind, hadd, okOr_some, except_ok_bind,
      failIf_of_not (by omega), except_ok_bind]
    exact ih hrest

/-- Sections with a checksum for every chunk pass the check of their checksum ranges. -/
theorem checkChecksumRanges (h : LaidOut descriptors offset checksumStart sections stop)
    {chunkBytes total : Nat} (htotal : checksumTotal chunkBytes checksumStart sections = .ok total)
    : Persistent.checkChecksumRanges chunkBytes checksumStart
        (sections.map fun «section» => descriptors section.kind) = .ok total := by
  induction sections generalizing offset checksumStart with
  | nil => exact htotal
  | cons «section» sections ih =>
    obtain ⟨-, hlen, hstart, hcount, hchecksums, -, hrest⟩ := h
    simp only [checksumTotal, except_bind_eq_ok, failIf_eq_ok, ne_eq, not_not, okOr_eq_ok,
      checkedAdd_eq_some] at htotal
    obtain ⟨count, hchunks, ⟨⟩, rfl, _, ⟨rfl, -⟩, htotal⟩ := htotal
    have hadd : checkedAdd checksumStart (descriptors section.kind).checksumCount
        = some (checksumStart + section.checksums.length) := by
      rw [checkedAdd_eq_some, hcount]
      exact ⟨rfl, hchecksums⟩
    rw [List.map_cons, Persistent.checkChecksumRanges, failIf_of_not (not_not.mpr hstart),
      except_ok_bind, hlen, hchunks, except_ok_bind, failIf_of_not (not_not.mpr hcount),
      except_ok_bind, hadd, okOr_some, except_ok_bind]
    exact ih hrest htotal

theorem stop_lt (h : LaidOut descriptors offset checksumStart sections stop)
    (hoffset : offset < u64Bound)
    : stop < u64Bound := by
  induction sections generalizing offset checksumStart with
  | nil => exact h ▸ hoffset
  | cons «section» sections ih =>
    obtain ⟨-, -, -, -, -, hend, hrest⟩ := h
    exact ih hrest hend

end LaidOut

/-- The length of a section of an index with `rows` rows. -/
def sectionLen (rows normalizedTextLen : Nat) : SectionKind → Nat
  | .text => normalizedTextLen
  | .bounds => 8 * (rows + 1)
  | .raw => 4 * rows
  | .order => 4 * rows

/-- The sections of an index with `rows` rows. -/
structure SectionsOf (rows normalizedTextLen : Nat) (sections : List SectionFile) : Prop where
  kinds : sections.map (·.kind) = SectionKind.all
  file : ∀ «section» ∈ sections, section.file.length = section.len
  len : ∀ «section» ∈ sections, section.len = sectionLen rows normalizedTextLen section.kind

theorem SectionsOf.exists_mem {rows normalizedTextLen : Nat} {sections : List SectionFile}
    (h : SectionsOf rows normalizedTextLen sections) (kind : SectionKind)
    : ∃ «section» ∈ sections, section.kind = kind := by
  have hmem : kind ∈ sections.map (·.kind) := by
    rw [h.kinds]
    cases kind <;> decide
  exact List.mem_map.mp hmem

/-- What `buildHeader` has checked and computed. -/
structure HeaderBuilt (sections : List SectionFile) (identity : KeyIndexSourceIdentity)
    (normalizedTextLen : Nat) (options : KeyIndexOptions) (header : Bytes)
    (descriptors : SectionTable) (totalLen checksumCount : Nat)
    : Prop where
  total : checksumTotal options.chunkBytes 0 sections = .ok checksumCount
  metadata_le : headerBytes + checksumCount * 4 ≤ options.maxMetadataBytes
  metadata_lt : headerBytes + checksumCount * 4 + 7 < u64Bound
  laidOut : LaidOut descriptors ((headerBytes + checksumCount * 4 + 7) / 8 * 8) 0 sections totalLen
  totalLen_le : totalLen ≤ options.maxIndexBytes
  length_eq : header.length = headerBytes
  header_eq : header
    = headerFields totalLen options.chunkBytes identity normalizedTextLen descriptors
      ++ ([0, 0, 0, 0] ++ Bytes.ofLE 4 (if options.checksumPolicy = .verify then
          adler32 (headerFields totalLen options.chunkBytes identity normalizedTextLen descriptors
            ++ [0, 0, 0, 0])
        else 0))

theorem headerBuilt_of_buildHeader {sections : List SectionFile}
    {identity : KeyIndexSourceIdentity} {normalizedTextLen : Nat} {options : KeyIndexOptions}
    {header : Bytes} {descriptors : SectionTable} {totalLen : Nat}
    (h : buildHeader sections identity normalizedTextLen options
      = .ok (header, descriptors, totalLen))
    (hkinds : sections.map (·.kind) = SectionKind.all)
    : ∃ checksumCount, HeaderBuilt sections identity normalizedTextLen options header descriptors
        totalLen checksumCount := by
  simp only [buildHeader, except_bind_eq_ok, okOr_eq_ok, toU32?_eq_some, ensureLimit_eq_ok,
    checkedMul_eq_some, checkedAdd_eq_some, align8_eq_ok, failIf_eq_ok, ne_eq, not_not,
    except_pure_eq_ok, Prod.mk.injEq] at h
  obtain ⟨_, ⟨rfl, -⟩, ⟨⟩, -, checksumCount, htotal, _, ⟨rfl, -⟩, _, ⟨rfl, -⟩, ⟨⟩, hmetadata, _,
    ⟨rfl, hlt⟩, ⟨descriptors, totalLen⟩, hlayOut, ⟨⟩, hmax, ⟨⟩, hfields, ⟨⟩, hlength, rfl, rfl,
    rfl⟩ := h
  dsimp only at hmax hfields hlength ⊢
  have hzeros : headerBytes - headerChecksumBytes - (headerFields totalLen options.chunkBytes
      identity normalizedTextLen descriptors).length = 4 := by
    rw [hfields]
    rfl
  rw [hzeros] at hlength ⊢
  refine ⟨checksumCount, htotal, hmetadata, hlt, ?_, hmax, hlength, ?_⟩
  . exact (layOut_eq_ok hlayOut (by rw [hkinds]; decide)).1
  . rw [pushU32, List.append_assoc]
    rfl

namespace HeaderBuilt

variable {sections : List SectionFile} {identity : KeyIndexSourceIdentity}
variable {rows normalizedTextLen totalLen checksumCount : Nat} {options : KeyIndexOptions}
variable {header : Bytes} {descriptors : SectionTable}

/-- The header that an index with these sections has. -/
def indexHeader (identity : KeyIndexSourceIdentity) (normalizedTextLen : Nat)
    (options : KeyIndexOptions) (descriptors : SectionTable) (totalLen checksumCount : Nat)
    : IndexHeader where
  headerLen := headerBytes
  totalLen
  chunkBytes := options.chunkBytes
  sourceIdentity := identity
  normalizedTextLen
  sections := descriptors
  checksumCount

theorem totalLen_lt (h : HeaderBuilt sections identity normalizedTextLen options header descriptors
      totalLen checksumCount)
    : totalLen < u64Bound := by
  apply h.laidOut.stop_lt
  have := h.metadata_lt
  omega

/-- The sections lie at the ends of their predecessors, aligned, whatever is aligned first. -/
theorem laidOut_metadata (h : HeaderBuilt sections identity normalizedTextLen options header
      descriptors totalLen checksumCount)
    (hkinds : sections.map (·.kind) = SectionKind.all)
    : LaidOut descriptors (headerBytes + checksumCount * 4) 0 sections totalLen := by
  cases sections with
  | nil => contradiction
  | cons «section» sections =>
    obtain ⟨haligned, hrest⟩ := h.laidOut
    refine ⟨?_, hrest⟩
    have := h.metadata_lt
    rw [align8_eq_ok] at haligned ⊢
    omega

theorem fieldsFit (h : HeaderBuilt sections identity normalizedTextLen options header descriptors
      totalLen checksumCount)
    (hsections : SectionsOf rows normalizedTextLen sections) (kind : SectionKind)
    : FieldsFit (descriptors kind) := by
  obtain ⟨«section», hmem, rfl⟩ := hsections.exists_mem kind
  exact (h.laidOut.of_mem hmem).1

theorem len_eq (h : HeaderBuilt sections identity normalizedTextLen options header descriptors
      totalLen checksumCount)
    (hsections : SectionsOf rows normalizedTextLen sections) (kind : SectionKind)
    : (descriptors kind).len = sectionLen rows normalizedTextLen kind := by
  obtain ⟨«section», hmem, rfl⟩ := hsections.exists_mem kind
  rw [(h.laidOut.of_mem hmem).2.1, hsections.len «section» hmem]

/-- The lengths of the sections are the ones that the counts of the header ask for. -/
theorem checkSectionLengths (h : HeaderBuilt sections identity normalizedTextLen options header
      descriptors totalLen checksumCount)
    (hsections : SectionsOf identity.keyCount normalizedTextLen sections)
    : Persistent.checkSectionLengths identity.keyCount normalizedTextLen descriptors = .ok () := by
  have hbounds := (h.fieldsFit hsections .bounds).len
  have hlen := h.len_eq hsections
  rw [hlen .bounds, sectionLen] at hbounds
  have hboundsLen : (checkedAdd identity.keyCount 1).bind (checkedMul · 8)
      = some (8 * (identity.keyCount + 1)) := by
    have hadd : checkedAdd identity.keyCount 1 = some (identity.keyCount + 1) := by
      rw [checkedAdd_eq_some]
      omega
    rw [hadd, Option.bind_some, checkedMul_eq_some]
    omega
  have hrows : checkedMul identity.keyCount 4 = some (4 * identity.keyCount) := by
    rw [checkedMul_eq_some]
    omega
  rw [Persistent.checkSectionLengths, hboundsLen, okOr_some, except_ok_bind, hrows, okOr_some,
    except_ok_bind, failIf_of_not]
  simp only [hlen, sectionLen, Nat.mul_comm, ne_eq, not_true_eq_false, or_self, not_false_eq_true]

theorem checkPadding {cursor : HeaderCursor} {checksum : Nat}
    (h : cursor.StandsAt ([0, 0, 0, 0] ++ Bytes.ofLE 4 checksum))
    : Persistent.checkPadding cursor = .ok () := by
  have hlen := h.length_eq
  rw [List.length_append, Bytes.length_ofLE] at hlen
  have hcount : headerChecksumBytes = 4 := rfl
  have hsub : checkedSub cursor.bytes.length headerChecksumBytes = some (cursor.position + 4) := by
    rw [checkedSub_eq_some, ← hlen, hcount]
    simp
  rw [Persistent.checkPadding, hsub, okOr_some, except_ok_bind, h.rest_eq, Nat.add_sub_cancel_left,
    failIf_of_not]
  simp

/-- What was built is what the parser reads. -/
theorem parseHeader (h : HeaderBuilt sections identity normalizedTextLen options header descriptors
      totalLen checksumCount)
    (hsections : SectionsOf identity.keyCount normalizedTextLen sections)
    (hoptions : validateOptions options = .ok ()) (hsource : identity.sourceBytes < u64Bound)
    (hcount : identity.keyCount ≤ u32Max)
    : Persistent.parseHeader header totalLen options
        = .ok (indexHeader identity normalizedTextLen options descriptors totalLen
          checksumCount) := by
  have htext := (h.fieldsFit hsections .text).len
  rw [h.len_eq hsections .text, sectionLen] at htext
  have hlength := h.length_eq
  have hchecksums := h.laidOut.checkChecksumRanges h.total
  rw [show (sections.map fun «section» => descriptors section.kind)
      = SectionKind.all.map descriptors by rw [← hsections.kinds, List.map_map]; rfl] at hchecksums
  have hstart := @HeaderCursor.standsAt_start header (by rw [hlength]; decide)
  have hheader := h.header_eq
  rw [headerFields_eq] at hheader
  simp only [List.append_assoc] at hheader
  nth_rewrite 2 [hheader] at hstart
  obtain ⟨c1, h1, hb1, hs1⟩ := HeaderCursor.readMarkers_append hstart
  obtain ⟨c2, h2, hb2, hs2⟩ := HeaderCursor.readU64_append hs1 (by decide)
  obtain ⟨c3, h3, hb3, hs3⟩ := HeaderCursor.readU64_append hs2 h.totalLen_lt
  obtain ⟨c4, h4, hb4, hs4⟩ := HeaderCursor.readRevisions_append hs3
  obtain ⟨c5, h5, hb5, hs5⟩ := HeaderCursor.readChunkBytes_append hs4 hoptions
  obtain ⟨c6, h6, hb6, hs6⟩ := HeaderCursor.readU32_append hs5 (by decide)
  obtain ⟨c7, h7, hb7, hs7⟩ := HeaderCursor.readIdentity_append hs6 hsource hcount
  obtain ⟨c8, h8, hb8, hs8⟩ := HeaderCursor.readU64_append hs7 htext
  obtain ⟨c9, table, h9, hb9, hs9, htable, -⟩ :=
    HeaderCursor.readDescriptors_append (fun _ => .empty) hs8 (h.fieldsFit hsections)
  have heq : table = descriptors := funext fun kind => htable kind (by cases kind <;> decide)
  subst heq
  have hmetadata := h.metadata_lt
  have hmul : checkedMul checksumCount 4 = some (checksumCount * 4) := by
    rw [checkedMul_eq_some]
    omega
  have hadd : checkedAdd headerBytes (checksumCount * 4)
      = some (headerBytes + checksumCount * 4) := by
    rw [checkedAdd_eq_some]
    omega
  have hlimit : ensureLimit "key_index_bytes" totalLen options.maxIndexBytes = .ok () :=
    ensureLimit_eq_ok.mpr h.totalLen_le
  have hlimit' : ensureLimit "key_index_metadata_bytes" (headerBytes + checksumCount * 4)
      options.maxMetadataBytes = .ok () := ensureLimit_eq_ok.mpr h.metadata_le
  have hsame {n : Nat} {e : Error} : failIf (n ≠ n) e = .ok () := failIf_of_not (by simp)
  simp only [Persistent.parseHeader, h1, h2, h3, h4, h5, h6, h7, h8, h9, except_ok_bind, hlength,
    hsame, hlimit, hchecksums, hmul, hadd, okOr_some, hlimit', checkPadding hs9,
    h.checkSectionLengths hsections]
  rfl

/-! ## Reading an index -/

theorem yields_readExact {p : Platform} {source : IndexSource} {offset len : Nat}
    (h : offset + len ≤ source.len) (hlt : source.len < u64Bound)
    : Yields p (source.readExact offset len) (.ok ((source.bytes.drop offset).take len)) := by
  have hstop : checkedAdd offset len = some (offset + len) := by
    rw [checkedAdd_eq_some]
    omega
  unfold IndexSource.readExact
  rw [hstop, okOr_some]
  apply Yields.bind_ok Yields.liftM
  apply Yields.bind_ok (a := ())
  . rw [failIf_of_not (by omega)]
    exact Yields.liftM
  apply Yields.bind_ok Yields.log
  exact Yields.bind_ok Yields.io .pure

/-- The first bytes of every header. -/
theorem take_prefix (h : HeaderBuilt sections identity normalizedTextLen options header descriptors
      totalLen checksumCount)
    : header.take headerPrefixBytes = magic ++ (Bytes.ofLE 4 keyIndexFormatRevision
        ++ (Bytes.ofLE 4 endianMarker ++ Bytes.ofLE 8 headerBytes)) := by
  rw [h.header_eq, headerFields_eq]
  rfl

theorem readHeaderLen {p : Platform} {source : IndexSource} {rest : Bytes}
    (h : HeaderBuilt sections identity normalizedTextLen options header descriptors totalLen
      checksumCount)
    (hbytes : source.bytes = header ++ rest) (hlt : source.len < u64Bound)
    : Yields p (Persistent.readHeaderLen source) (.ok headerBytes) := by
  have hlen : headerBytes ≤ source.len := by
    rw [IndexSource.len, hbytes, List.length_append, h.length_eq]
    omega
  have hbegins : headerPrefixBytes ≤ headerBytes := by decide
  have hstart : (source.bytes.drop 0).take headerPrefixBytes
      = magic ++ (Bytes.ofLE 4 keyIndexFormatRevision
        ++ (Bytes.ofLE 4 endianMarker ++ Bytes.ofLE 8 headerBytes)) := by
    rw [List.drop_zero, hbytes, List.take_append_of_le_length (by rw [h.length_eq]; exact hbegins),
      h.take_prefix]
  unfold Persistent.readHeaderLen
  apply Yields.bind_ok (a := ())
  . rw [failIf_of_not (by omega)]
    exact Yields.liftM
  apply Yields.bind_ok Yields.reserve
  apply Yields.bind_ok (yields_readExact (by omega) hlt)
  rw [hstart]
  exact Yields.bind_ok Yields.liftM (Yields.bind_ok Yields.liftM (Yields.bind_ok Yields.liftM
    (Yields.bind_ok Yields.liftM (Yields.bind_ok Yields.liftM Yields.liftM))))

/-- The checksum of a header is right, as far as the policy asks for one. -/
theorem checksum_ok (h : HeaderBuilt sections identity normalizedTextLen options header descriptors
      totalLen checksumCount)
    : ∃ expected, readU32Slice header (headerBytes - headerChecksumBytes) = .ok expected
        ∧ ¬(options.checksumPolicy = .verify
          ∧ expected ≠ adler32 (header.take (headerBytes - headerChecksumBytes))) := by
  have hheader := h.header_eq
  rw [← List.append_assoc] at hheader
  generalize hfields : headerFields totalLen options.chunkBytes identity normalizedTextLen
    descriptors ++ [0, 0, 0, 0] = fields at hheader
  have hlen : fields.length = headerBytes - headerChecksumBytes := by
    have := h.length_eq
    rw [hheader, List.length_append, Bytes.length_ofLE] at this
    exact Nat.eq_sub_of_add_eq this
  refine ⟨if options.checksumPolicy = .verify then adler32 fields else 0, ?_, ?_⟩
  . have hadd : checkedAdd fields.length 4 = some (fields.length + 4) := by
      rw [hlen]
      rfl
    have hget (checksum : Nat) : (fields ++ Bytes.ofLE 4 checksum).get? fields.length
        (fields.length + 4) = some (Bytes.ofLE 4 checksum) := by
      have := Bytes.get?_append_append fields (Bytes.ofLE 4 checksum) []
      rwa [List.append_nil, Bytes.length_ofLE] at this
    rw [← hlen, readU32Slice, hadd, okOr_some, except_ok_bind, hheader, hget, okOr_some,
      except_ok_bind, Bytes.toLE_ofLE_of_lt]
    . rfl
    . split
      . exact adler32_lt fields
      . decide
  . rintro ⟨hverify, hne⟩
    rw [if_pos hverify, ← hlen, hheader, List.take_left] at hne
    exact hne rfl

theorem readIndexHeader {p : Platform} {source : IndexSource} {rest : Bytes}
    (h : HeaderBuilt sections identity normalizedTextLen options header descriptors totalLen
      checksumCount)
    (hsections : SectionsOf identity.keyCount normalizedTextLen sections)
    (hoptions : validateOptions options = .ok ()) (hsource : identity.sourceBytes < u64Bound)
    (hcount : identity.keyCount ≤ u32Max) (hbytes : source.bytes = header ++ rest)
    (hlen : source.len = totalLen)
    : Yields p (Persistent.readIndexHeader source options options.checksumPolicy)
        (.ok (indexHeader identity normalizedTextLen options descriptors totalLen
          checksumCount)) := by
  have hlt := h.totalLen_lt
  have hle : headerBytes ≤ source.len := by
    rw [IndexSource.len, hbytes, List.length_append, h.length_eq]
    omega
  have hmetadata := h.metadata_le
  have htake : (source.bytes.drop 0).take headerBytes = header := by
    rw [List.drop_zero, hbytes, List.take_append_of_le_length (Nat.le_of_eq h.length_eq.symm),
      List.take_of_length_le (Nat.le_of_eq h.length_eq)]
  obtain ⟨expected, hexpected, hchecksum⟩ := h.checksum_ok
  unfold Persistent.readIndexHeader
  apply Yields.bind_ok (h.readHeaderLen hbytes (by omega))
  apply Yields.bind_ok (a := headerBytes) Yields.liftM
  apply Yields.bind_ok (a := ())
  . rw [ensureLimit_eq_ok.mpr (show headerBytes ≤ options.maxMetadataBytes by omega)]
    exact Yields.liftM
  apply Yields.bind_ok (a := ())
  . rw [failIf_of_not (by omega)]
    exact Yields.liftM
  apply Yields.bind_ok Yields.reserve
  apply Yields.bind_ok (yields_readExact (by omega) (by omega))
  rw [htake]
  dsimp only
  rw [hexpected]
  apply Yields.bind_ok Yields.liftM
  apply Yields.bind_ok (a := ())
  . rw [failIf_of_not hchecksum]
    exact Yields.liftM
  rw [hlen, h.parseHeader hsections hoptions hsource hcount]
  exact Yields.liftM

theorem validateSectionLayout {source : IndexSource}
    (h : HeaderBuilt sections identity normalizedTextLen options header descriptors totalLen
      checksumCount)
    (hsections : SectionsOf identity.keyCount normalizedTextLen sections)
    (hlen : source.len = totalLen)
    : Persistent.validateSectionLayout source (indexHeader identity normalizedTextLen options
        descriptors totalLen checksumCount) = .ok () := by
  have hlt := h.metadata_lt
  have hmul : checkedMul checksumCount 4 = some (checksumCount * 4) := by
    rw [checkedMul_eq_some]
    omega
  have hadd : checkedAdd headerBytes (checksumCount * 4)
      = some (headerBytes + checksumCount * 4) := by
    rw [checkedAdd_eq_some]
    omega
  have hoffsets := h.laidOut.checkSectionOffsets (Nat.le_of_eq hlen.symm)
  rw [show (sections.map fun «section» => descriptors section.kind)
      = SectionKind.all.map descriptors by rw [← hsections.kinds, List.map_map]; rfl] at hoffsets
  simp only [Persistent.validateSectionLayout, indexHeader, hmul, hadd, okOr_some, except_ok_bind]
  split
  . rw [align8_eq_ok.mpr ⟨rfl, hlt⟩, except_ok_bind, hoffsets, except_ok_bind]
    exact failIf_of_not (by simp)
  . next haligned =>
    rw [pure_bind, show headerBytes + checksumCount * 4
      = (headerBytes + checksumCount * 4 + 7) / 8 * 8 by omega, hoffsets, except_ok_bind]
    exact failIf_of_not (by simp)

end HeaderBuilt

end Mdict.Persistent
