import Mdict.Lemmas.Persistent.Agreement
import Mdict.Lemmas.Persistent.Build
import Mdict.Lemmas.Persistent.Open

/-!
This module contains what an artifact is when it is opened with the options it was built with: an
index that represents the dictionary.
-/

namespace Mdict

open Effect Persistent MdictFile

variable {file : MdictFile} {p : Platform} {options : KeyIndexOptions}

/-! ## The checksum table -/

namespace Persistent

variable {descriptors : SectionTable} {sections : List SectionFile}

/-- The checksums of a section come behind those of the sections before it. -/
theorem LaidOut.exists_checksum {offset checksumStart stop : Nat}
    (h : LaidOut descriptors offset checksumStart sections stop) {«section» : SectionFile}
    (hmem : «section» ∈ sections) {chunk checksum : Nat}
    (hchecksum : section.checksums[chunk]? = some checksum)
    : ∃ i, (descriptors section.kind).checksumStart + chunk = checksumStart + i
        ∧ (sections.flatMap (·.checksums))[i]? = some checksum := by
  induction sections generalizing offset checksumStart with
  | nil => contradiction
  | cons first sections ih =>
    obtain ⟨-, -, hstart, -, -, -, hrest⟩ := h
    rw [List.flatMap_cons]
    rcases List.mem_cons.mp hmem with rfl | hmem
    . refine ⟨chunk, by rw [hstart], ?_⟩
      rw [List.getElem?_append_left (List.getElem?_eq_some_iff.mp hchecksum).1]
      exact hchecksum
    . obtain ⟨i, hi, hget⟩ := ih hrest hmem
      refine ⟨first.checksums.length + i, by omega, ?_⟩
      rw [List.getElem?_append_right (Nat.le_add_right _ _), Nat.add_sub_cancel_left]
      exact hget

theorem slice_checksumTable {i checksum : Nat}
    (h : (sections.flatMap (·.checksums))[i]? = some checksum)
    : Search.slice (checksumTable sections) (i * 4) (i * 4 + 4) = Bytes.ofLE 4 checksum := by
  rw [checksumTable, ← List.flatMap_assoc]
  exact Search.slice_flatMap (fun _ => Bytes.length_ofLE _ _) h

end Persistent

/-! ## The parts of an artifact -/

theorem rawDigest_lt (raw : Str) : rawDigest raw < u32Bound := by
  unfold rawDigest
  apply List.foldlRecOn (motive := (· < u32Bound))
  . decide
  . exact fun hash _ byte _ => Nat.mod_lt _ (by decide)

namespace MdictFile.IndexBuilt

variable {blocks : List (List DecodedKeyRow)} {built : BuiltIndex} {index : PersistentKeyIndex}
variable (h : file.IndexBuilt p options blocks built)
variable (ho : index.Opened (builtBytes built) options)
include h ho

/-- The header that is read is the one that was built. -/
theorem header_eq
    : ∃ checksumCount, HeaderBuilt built.sections built.report.sourceIdentity
          (file.locatorOf p (keysOf blocks)).text.length options built.header built.descriptors
          built.report.bytesWritten checksumCount
        ∧ index.header = HeaderBuilt.indexHeader built.report.sourceIdentity
          (file.locatorOf p (keysOf blocks)).text.length options built.descriptors
          built.report.bytesWritten checksumCount := by
  have hsections := h.sectionsOf
  obtain ⟨checksumCount, hheader⟩ := headerBuilt_of_buildHeader h.header hsections.kinds
  have hlength := hheader.length_builtBytes hsections
  refine ⟨checksumCount, hheader, ?_⟩
  have hread := ho.header
  have htake : (builtBytes built).take headerBytes = built.header := by
    rw [builtBytes, List.append_assoc, ← hheader.length_eq, List.take_left]
  change (builtBytes built).length = _ at hlength
  rw [← h.identity.keyCount] at hsections
  rw [htake, hlength, hheader.parseHeader hsections h.valid h.identity.sourceBytes_lt
    (by rw [h.identity.keyCount]; exact h.len_le)] at hread
  exact (Except.ok.inj hread).symm

/-- A section of the index is that of the locator. -/
theorem sectionSlice_eq (kind : SectionKind) {start stop : Nat}
    (hstop : stop ≤ ((file.locatorOf p (keysOf blocks)).sectionBytes kind).length)
    : index.sectionSlice kind start stop
        = Search.slice ((file.locatorOf p (keysOf blocks)).sectionBytes kind) start stop := by
  obtain ⟨checksumCount, hheader, hindex⟩ := h.header_eq ho
  have hsections := h.sectionsOf
  have hlaidOut := hheader.laidOut_metadata hsections.kinds
  rw [← hheader.length_front] at hlaidOut
  have hmem : sectionOf kind options ((file.locatorOf p (keysOf blocks)).sectionBytes kind)
      ∈ built.sections := by
    rw [h.sections]
    exact List.mem_map_of_mem (PersistentKeyIndex.mem_all kind)
  have hslice := (hlaidOut.packed hsections.file).slice_eq hmem
  change Search.slice (builtBytes built) (built.descriptors kind).offset
    ((built.descriptors kind).offset
      + ((file.locatorOf p (keysOf blocks)).sectionBytes kind).length)
    = (file.locatorOf p (keysOf blocks)).sectionBytes kind at hslice
  rw [PersistentKeyIndex.sectionSlice, hindex, ho.source]
  conv_rhs => rw [← hslice]
  exact (Search.slice_slice (Nat.add_le_add_left hstop _) _ _).symm

/-- A number of a section is that of the locator. -/
theorem numberAt_eq {kind : SectionKind} {width i value : Nat} {values : List Nat}
    (hvalues : (file.locatorOf p (keysOf blocks)).sectionBytes kind
      = values.flatMap (Bytes.ofLE width))
    (hi : values[i]? = some value) (hlt : value < 256 ^ width)
    : index.numberAt kind width i = value := by
  have hstop : i * width + width ≤ (values.flatMap (Bytes.ofLE width)).length := by
    rw [length_flatMap_ofLE, ← Nat.succ_mul, Nat.mul_comm]
    exact Nat.mul_le_mul_left _ (List.getElem?_eq_some_iff.mp hi).1
  rw [PersistentKeyIndex.numberAt, h.sectionSlice_eq ho kind (by rw [hvalues]; exact hstop),
    hvalues, Search.slice_flatMap (fun _ => Bytes.length_ofLE _ _) hi,
    Bytes.toLE_ofLE_of_lt hlt]

theorem boundOf_eq {i : Nat} (hi : i ≤ (keysOf blocks).length)
    : index.boundOf i
        = Search.start (((keysOf blocks).map (file.keyText p)).map List.length) i := by
  apply h.numberAt_eq ho rfl
  . apply KeyLocator.bounds_ofTexts
    rw [List.length_map]
    exact hi
  . obtain ⟨checksumCount, hheader, -⟩ := h.header_eq ho
    have hlt := (hheader.fieldsFit h.sectionsOf .text).len
    rw [hheader.len_eq h.sectionsOf .text, sectionLen] at hlt
    have hle := Search.start_le_sum (((keysOf blocks).map (file.keyText p)).map List.length) i
    rw [← List.length_flatten] at hle
    exact Nat.lt_of_le_of_lt hle hlt

theorem digestOf_eq {row : Nat} {key : Str} (hkey : (keysOf blocks)[row]? = some key)
    : index.digestOf row = rawDigest key := by
  apply h.numberAt_eq ho rfl
  . rw [locatorOf, KeyLocator.ofTexts, List.getElem?_map, hkey]
    rfl
  . exact rawDigest_lt key

theorem orderOf_eq {position row : Nat}
    (hrow : (file.locatorOf p (keysOf blocks)).order[position]? = some row)
    : index.orderOf position = row := by
  apply h.numberAt_eq ho rfl hrow
  have hlt := (@sorted_locatorOf file p (keysOf blocks)).lt_of_mem (List.mem_of_getElem? hrow)
  rw [h.decodes.length_keysOf] at hlt
  have hle := h.len_le
  have hmax : u32Max + 1 = 256 ^ 4 := by decide
  omega

/-- The text of a row is the normalized key. -/
theorem textOf_eq {row : Nat} {key : Str} (hkey : (keysOf blocks)[row]? = some key)
    : index.textOf row = file.keyText p key
        ∧ index.boundOf row ≤ index.boundOf (row + 1)
        ∧ index.boundOf (row + 1) ≤ (file.locatorOf p (keysOf blocks)).text.length := by
  have hrow := (List.getElem?_eq_some_iff.mp hkey).1
  have htext : ((keysOf blocks).map (file.keyText p))[row]? = some (file.keyText p key) := by
    rw [List.getElem?_map, hkey]
    rfl
  have hsucc : index.boundOf (row + 1)
      = index.boundOf row + (file.keyText p key).length := by
    rw [h.boundOf_eq ho hrow, h.boundOf_eq ho (Nat.le_of_lt hrow),
      Search.start_succ (by rw [List.length_map, List.length_map]; exact hrow), List.getElem_map,
      (List.getElem?_eq_some_iff.mp htext).2]
  have hstop : index.boundOf (row + 1) ≤ (file.locatorOf p (keysOf blocks)).text.length := by
    have hle := Search.start_le_sum (((keysOf blocks).map (file.keyText p)).map List.length)
      (row + 1)
    rw [← List.length_flatten] at hle
    rw [h.boundOf_eq ho hrow]
    exact hle
  refine ⟨?_, by omega, hstop⟩
  have hslice := Search.slice_flatten (a := 0) htext (Nat.le_refl _)
  rw [Search.slice_zero_length, Nat.add_zero, ← h.boundOf_eq ho (Nat.le_of_lt hrow), ← hsucc]
    at hslice
  rw [PersistentKeyIndex.textOf, h.sectionSlice_eq ho .text hstop]
  exact hslice

/-- The checksums that the builder wrote are those of the chunks. -/
theorem verified (hpolicy : options.checksumPolicy = .verify) (kind : SectionKind) {chunk : Nat}
    (hchunk : chunk * index.header.chunkBytes < (index.header.sections kind).len)
    : index.checksumAt ((index.header.sections kind).checksumStart + chunk)
        = adler32 (index.chunkAt kind chunk) := by
  obtain ⟨checksumCount, hheader, hindex⟩ := h.header_eq ho
  have hpos := chunkBytes_pos h.valid
  generalize hbytes : (file.locatorOf p (keysOf blocks)).sectionBytes kind = bytes
  have hmem : sectionOf kind options bytes ∈ built.sections := by
    rw [h.sections, ← hbytes]
    exact List.mem_map_of_mem (PersistentKeyIndex.mem_all kind)
  have hlaidOut := hheader.laidOut_metadata h.sectionsOf.kinds
  have hlen : (index.header.sections kind).len = bytes.length := by
    rw [hindex]
    exact (hlaidOut.of_mem hmem).2.1
  rw [hlen] at hchunk
  have hchunkBytes : index.header.chunkBytes = options.chunkBytes := by
    rw [hindex]
    rfl
  rw [hchunkBytes] at hchunk
  have hchecksum : (sectionOf kind options bytes).checksums[chunk]?
      = some (adler32 (chunkOf options.chunkBytes bytes chunk)) := by
    rw [sectionOf]
    dsimp only
    rw [chunkSums, List.getElem?_map, List.getElem?_range, Option.map_some, chunkSum,
      if_pos hpolicy]
    rw [Nat.lt_div_iff_mul_lt hpos]
    omega
  obtain ⟨i, hi, hget⟩ := hlaidOut.exists_checksum hmem hchecksum
  have htable := slice_checksumTable hget
  have hi' : (index.header.sections kind).checksumStart + chunk = i := by
    rw [hindex]
    exact hi.trans (Nat.zero_add i)
  have hchunkAt : index.chunkAt kind chunk = chunkOf options.chunkBytes bytes chunk := by
    have hstop : index.chunkStop kind chunk ≤ bytes.length := by
      rw [PersistentKeyIndex.chunkStop, hlen]
      exact Nat.min_le_left _ _
    rw [PersistentKeyIndex.chunkAt, h.sectionSlice_eq ho kind (by rw [hbytes]; exact hstop), hbytes,
      PersistentKeyIndex.chunkStop, hlen, hchunkBytes, Search.slice, chunkOf]
    rw [List.take_eq_take_iff, List.length_drop]
    omega
  have hstop : i * 4 + 4 ≤ (checksumTable built.sections).length := by
    rw [checksumTable, ← List.flatMap_assoc, length_flatMap_ofLE, ← Nat.succ_mul, Nat.mul_comm]
    exact Nat.mul_le_mul_left _ (List.getElem?_eq_some_iff.mp hget).1
  have hlength : index.header.headerLen = built.header.length := by
    rw [hindex, hheader.length_eq]
    rfl
  rw [hi', PersistentKeyIndex.checksumAt, ho.source, hlength, builtBytes,
    Search.slice_append_append hstop, htable, hchunkAt, Bytes.toLE_ofLE_of_lt (adler32_lt _)]

/-- An artifact that is opened again represents the dictionary. -/
theorem represents : index.Represents file p blocks := by
  have hcount := h.decodes.length_keysOf
  obtain ⟨checksumCount, hheader, hindex⟩ := h.header_eq ho
  have hformed := ho.formed
  have hlen : index.len = file.len := by
    rw [PersistentKeyIndex.len, hindex]
    exact h.identity.keyCount
  have hkey {row : Nat} (hrow : row < index.len)
      : ∃ key, (keysOf blocks)[row]? = some key :=
    ⟨_, List.getElem?_eq_getElem (by rw [hcount, ← hlen]; exact hrow)⟩
  have htextLen : index.header.normalizedTextLen
        = (file.locatorOf p (keysOf blocks)).text.length
      ∧ (index.header.sections .text).len
        = (file.locatorOf p (keysOf blocks)).text.length := by
    rw [hindex]
    exact ⟨rfl, hheader.len_eq h.sectionsOf .text⟩
  refine ⟨?_, ho.complete, h.decodes, hlen, ?_, fun row key hkey => (h.textOf_eq ho hkey).1,
    fun row key hkey => h.digestOf_eq ho hkey, ?_⟩
  . refine ⟨hformed.chunkBytes_pos, hformed.len_lt, hformed.table, hformed.sections,
      hformed.checksums, hformed.chunks, ?_⟩
    rw [ho.checksumPolicy]
    exact fun hpolicy kind chunk hchunk => h.verified ho hpolicy kind hchunk
  . intro row hrow
    obtain ⟨key, hkey⟩ := hkey hrow
    obtain ⟨htext, hle, hstop⟩ := h.textOf_eq ho hkey
    refine ⟨hrow, hle, ?_, ?_⟩
    . rw [htextLen.1, htextLen.2, Nat.min_self]
      exact hstop
    . rw [htext, keyText, Unicode.utf8Decode?_utf8]
      exact Option.some_ne_none _
  . have hsorted := @sorted_locatorOf file p (keysOf blocks)
    apply List.ext_getElem?
    intro position
    by_cases hposition : position < index.len
    . have hget := List.getElem?_eq_getElem
        (show position < (file.locatorOf p (keysOf blocks)).order.length by
          rw [hsorted.length_eq, hcount, ← hlen]; exact hposition)
      rw [PersistentKeyIndex.getElem?_rows hposition, h.orderOf_eq ho hget, hget]
    . rw [List.getElem?_eq_none (by rw [PersistentKeyIndex.length_rows]; omega),
        List.getElem?_eq_none (by rw [hsorted.length_eq, hcount]; omega)]

end MdictFile.IndexBuilt

end Mdict
