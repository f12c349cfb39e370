import Mdict.Lemmas.Persistent.Format

/-!
This module contains what the writer of an index file produces: the header, the checksum table and
the sections at their offsets, with nothing but zeros between them.
-/

namespace Mdict.Persistent

open Effect

variable {w : World} {I : Session → Prop}

/-- A failure of the outside world: an operation went wrong or the caller has cancelled. -/
def WriteFails (w : World) (e : Error) : Prop :=
  (e = .io ∧ ∃ events, w.ioFault events = true)
    ∨ ∃ operation, e = .cancelled operation ∧ ∃ events, w.cancelled events = true

theorem io_ensures : Ensures w I Exec.io (fun _ => True) (WriteFails w) :=
  io_ensures_of fun events hfault => .inl ⟨rfl, events, hfault⟩

theorem checkCancelled_ensures (hI : LogInvariant I) (operation : String)
    : Ensures w I (checkCancelled operation) (fun _ => True) (WriteFails w) := by
  unfold checkCancelled
  apply Ensures.bind (log_ensures hI)
  intro _ _
  apply Ensures.bind (Ensures.ask (Q := (· = w)) rfl)
  rintro _ rfl
  apply Ensures.get_bind
  intro s _
  split
  . next hcancelled => exact .fail (.inr ⟨operation, rfl, _, hcancelled⟩)
  . exact .pure trivial

/-! ## A destination -/

namespace Destination

variable {destination : Destination} {initial : Nat} {data : Bytes}

/--
A destination of `initial` bytes, of which the first ones were overwritten with `data`.
-/
structure Holds (destination : Destination) (initial : Nat) (data : Bytes) : Prop where
  position : destination.position = data.length
  isPrefix : data <+: destination.bytes
  length : destination.bytes.length = max initial data.length

theorem holds_start : Holds { destination with position := 0 } destination.bytes.length [] where
  position := rfl
  isPrefix := List.nil_prefix
  length := (Nat.max_eq_left (Nat.zero_le _)).symm

/-- What a destination holds that had not more bytes before. -/
theorem Holds.bytes_eq (h : destination.Holds initial data)
    (hlen : destination.bytes.length = data.length)
    : destination.bytes = data :=
  (h.isPrefix.eq_of_length hlen.symm).symm

theorem writeAll_ensures (hI : LogInvariant I) (h : destination.Holds initial data) (more : Bytes)
    : Ensures w I (destination.writeAll more) (·.Holds initial (data ++ more)) (WriteFails w) := by
  unfold writeAll
  apply Ensures.bind (log_ensures hI)
  intro _ _
  apply Ensures.bind io_ensures
  intro _ _
  apply Ensures.pure
  have hlength := h.length
  have htake : destination.bytes.take destination.position = data := by
    rw [h.position]
    exact (List.prefix_iff_eq_take.mp h.isPrefix).symm
  have hzeros : destination.position - destination.bytes.length = 0 := by
    rw [h.position, hlength]
    omega
  rw [htake, hzeros, List.replicate_zero, List.append_nil]
  refine ⟨?_, List.prefix_append _ _, ?_⟩
  . rw [h.position, List.length_append]
  . dsimp only
    rw [List.length_append, List.length_append, List.length_drop, h.position, hlength]
    omega

theorem seek_ensures (hI : LogInvariant I) (position : Nat)
    : Ensures w I (destination.seek position) (· = { destination with position })
        (WriteFails w) := by
  unfold seek
  apply Ensures.bind (log_ensures hI)
  intro _ _
  apply Ensures.bind io_ensures
  intro _ _
  exact .pure rfl

theorem padTo_ensures (hI : LogInvariant I) (h : destination.Holds initial data) {target : Nat}
    (hle : data.length ≤ target) (hlt : target ≤ data.length + 7)
    : Ensures w I (destination.padTo target)
        (·.Holds initial (data ++ List.replicate (target - data.length) 0)) (WriteFails w) := by
  unfold padTo
  rw [h.position]
  apply ensures_failIf_bind
  . intro h
    omega
  intro _
  apply ensures_checkedUsize_bind
  . intro h
    have : 7 < u64Bound := by decide
    omega
  intro _
  apply ensures_failIf_bind
  . intro h
    omega
  intro _
  exact writeAll_ensures hI h _

theorem copyExact_ensures (hI : LogInvariant I) {source : Bytes} {bufferBytes : Nat}
    (hbuffer : 0 < bufferBytes) (hsource : source.length < u64Bound)
    (h : destination.Holds initial data) {position remaining : Nat}
    (hle : position + remaining ≤ source.length)
    : Ensures w I (destination.copyExact source position remaining bufferBytes)
        (·.Holds initial (data ++ (source.drop position).take remaining)) (WriteFails w) := by
  induction hn : remaining using Nat.strongRecOn
      generalizing destination data position remaining with
  | ind n ih =>
    subst hn
    unfold copyExact
    split
    . next hpos =>
      apply Ensures.bind (checkCancelled_ensures hI _)
      intro _ _
      apply ensures_checkedUsize_bind
      . intro h
        omega
      intro _
      apply Ensures.bind (log_ensures hI)
      intro _ _
      apply Ensures.bind io_ensures
      intro _ _
      apply ensures_failIf_bind
      . intro h
        omega
      intro _
      apply Ensures.bind (writeAll_ensures hI h _)
      intro written hwritten
      apply (ih _ (by omega) hwritten (by omega) rfl).mono _ (fun _ h => h)
      intro written hwritten
      rw [List.append_assoc, ← List.drop_drop, ← List.take_add] at hwritten
      rwa [show min remaining bufferBytes + (remaining - min remaining bufferBytes) = remaining by
        omega] at hwritten
    . next hzero =>
      apply Ensures.pure
      rw [show remaining = 0 by omega, List.take_zero, List.append_nil]
      exact h

end Destination

/-! ## An index file -/

/-- The checksums of all sections, four bytes each. -/
def checksumTable (sections : List SectionFile) : Bytes :=
  sections.flatMap fun «section» => section.checksums.flatMap (Bytes.ofLE 4)

/-- The sections at their offsets, from `position` on, with zeros before each. -/
def sectionBytes (descriptors : SectionTable) (position : Nat)
    : (sections : List SectionFile) → Bytes
  | [] => []
  | «section» :: sections =>
    List.replicate ((descriptors section.kind).offset - position) 0 ++ section.file
      ++ sectionBytes descriptors ((descriptors section.kind).offset + section.len) sections

/-- The bytes of an index file. -/
def builtBytes (built : BuiltIndex) : Bytes :=
  built.header ++ checksumTable built.sections
    ++ sectionBytes built.descriptors (built.header ++ checksumTable built.sections).length
      built.sections

variable {destination : Destination} {initial : Nat} {data : Bytes}

theorem writeChecksums_ensures (hI : LogInvariant I) (h : destination.Holds initial data)
    (checksums : List Nat)
    : Ensures w I (writeChecksums destination checksums)
        (·.Holds initial (data ++ checksums.flatMap (Bytes.ofLE 4))) (WriteFails w) := by
  unfold writeChecksums
  apply Ensures.foldlM (J := fun seen (written : Destination) =>
    written.Holds initial (data ++ seen.flatMap (Bytes.ofLE 4)))
  . intro seen checksum rest written _ hwritten
    rw [List.flatMap_append, List.flatMap_singleton, ← List.append_assoc]
    exact Destination.writeAll_ensures hI hwritten _
  . rw [List.flatMap_nil, List.append_nil]
    exact h

theorem writeTable_ensures (hI : LogInvariant I) (h : destination.Holds initial data)
    (sections : List SectionFile)
    : Ensures w I
        (sections.foldlM (fun destination «section» =>
          writeChecksums destination section.checksums) destination)
        (·.Holds initial (data ++ checksumTable sections)) (WriteFails w) := by
  apply Ensures.foldlM (J := fun seen (written : Destination) =>
    written.Holds initial (data ++ checksumTable seen))
  . intro seen «section» rest written _ hwritten
    rw [checksumTable, List.flatMap_append, List.flatMap_singleton, ← List.append_assoc]
    exact writeChecksums_ensures hI hwritten _
  . rw [checksumTable, List.flatMap_nil, List.append_nil]
    exact h

theorem writeSections_ensures (hI : LogInvariant I) {bufferBytes : Nat} (hbuffer : 0 < bufferBytes)
    {descriptors : SectionTable} {sections : List SectionFile} {checksumStart stop : Nat}
    (hfile : ∀ «section» ∈ sections, section.file.length = section.len)
    (h : destination.Holds initial data)
    (hlaidOut : LaidOut descriptors data.length checksumStart sections stop)
    : Ensures w I
        (writeSections destination bufferBytes
          (sections.map fun «section» => («section», descriptors section.kind)))
        (·.Holds initial (data ++ sectionBytes descriptors data.length sections))
        (WriteFails w) := by
  induction sections generalizing destination data checksumStart with
  | nil =>
    apply Ensures.pure
    rw [sectionBytes, List.append_nil]
    exact h
  | cons «section» sections ih =>
    have hfit := (hlaidOut.of_mem List.mem_cons_self).1
    obtain ⟨haligned, hlen, -, -, -, -, hrest⟩ := hlaidOut
    have hlenFile := hfile «section» List.mem_cons_self
    rw [align8_eq_ok] at haligned
    have hlt := hfit.len
    rw [writeSections, List.map_cons, List.foldlM_cons]
    apply Ensures.bind (R := (·.Holds initial
      (data ++ List.replicate ((descriptors section.kind).offset - data.length) 0
        ++ section.file)))
    . apply Ensures.bind (checkCancelled_ensures hI _)
      intro _ _
      apply Ensures.bind (Destination.padTo_ensures hI h (by omega) (by omega))
      intro padded hpadded
      apply (@Destination.copyExact_ensures _ _ _ _ _ hI _ _ hbuffer (by omega) hpadded
        0 _ (by omega)).mono _ (fun _ h => h)
      intro written hwritten
      rwa [List.drop_zero, List.take_of_length_le (by omega)] at hwritten
    intro written hwritten
    have hposition : (data ++ List.replicate ((descriptors section.kind).offset - data.length) 0
        ++ section.file).length = (descriptors section.kind).offset + section.len := by
      rw [List.length_append, List.length_append, List.length_replicate, hlenFile]
      omega
    rw [← hposition] at hrest
    apply (ih (fun other hother => hfile other (List.mem_cons_of_mem _ hother)) hwritten
      hrest).mono _ (fun _ h => h)
    intro written hwritten
    rw [hposition, List.append_assoc, List.append_assoc] at hwritten
    rw [sectionBytes, List.append_assoc]
    exact hwritten

/-- Sections that are laid out from `position` on take the bytes up to the last one's end. -/
theorem length_sectionBytes {descriptors : SectionTable} {sections : List SectionFile}
    {position checksumStart stop : Nat}
    (hfile : ∀ «section» ∈ sections, section.file.length = section.len)
    (h : LaidOut descriptors position checksumStart sections stop)
    : position + (sectionBytes descriptors position sections).length = stop := by
  induction sections generalizing position checksumStart with
  | nil => exact h
  | cons «section» sections ih =>
    obtain ⟨haligned, -, -, -, -, -, hrest⟩ := h
    have hlenFile := hfile «section» List.mem_cons_self
    rw [align8_eq_ok] at haligned
    have := ih (fun other hother => hfile other (List.mem_cons_of_mem _ hother)) hrest
    rw [sectionBytes, List.length_append, List.length_append, List.length_replicate, hlenFile]
    omega

/-- The last section comes last. -/
theorem suffix_sectionBytes (descriptors : SectionTable) (position : Nat)
    (sections : List SectionFile) (last : SectionFile)
    : last.file <:+ sectionBytes descriptors position (sections ++ [last]) := by
  induction sections generalizing position with
  | nil =>
    rw [List.nil_append, sectionBytes, sectionBytes, List.append_nil]
    exact List.suffix_append _ _
  | cons «section» sections ih =>
    rw [List.cons_append, sectionBytes]
    exact (ih _).trans (List.suffix_append _ _)

/--
The sections make up the bytes from `position` on: each lies at its offset, which is a multiple of
eight, behind at most seven zeros.
-/
def Packed (bytes : Bytes) (descriptors : SectionTable) (position : Nat)
    : (sections : List SectionFile) → Prop
  | [] => position = bytes.length
  | «section» :: sections =>
    let offset := (descriptors section.kind).offset
    offset % 8 = 0
      ∧ position ≤ offset
      ∧ offset ≤ position + 7
      ∧ Search.slice bytes position offset = List.replicate (offset - position) 0
      ∧ Search.slice bytes offset (offset + section.len) = section.file
      ∧ Packed bytes descriptors (offset + section.len) sections

theorem slice_middle (front middle back : Bytes)
    : Search.slice (front ++ middle ++ back) front.length (front.length + middle.length)
        = middle := by
  rw [Search.slice, Nat.add_sub_cancel_left, List.append_assoc, List.drop_left, List.take_left]

theorem LaidOut.packed {descriptors : SectionTable} {sections : List SectionFile}
    {front : Bytes} {checksumStart stop : Nat}
    (h : LaidOut descriptors front.length checksumStart sections stop)
    (hfile : ∀ «section» ∈ sections, section.file.length = section.len)
    : Packed (front ++ sectionBytes descriptors front.length sections) descriptors front.length
        sections := by
  induction sections generalizing front checksumStart with
  | nil => rw [Packed, sectionBytes, List.append_nil]
  | cons «section» sections ih =>
    have haligned := (h.of_mem List.mem_cons_self).2.2.2.1
    obtain ⟨hoffset, -, -, -, -, -, hrest⟩ := h
    have hlenFile := hfile «section» List.mem_cons_self
    rw [align8_eq_ok] at hoffset
    generalize hzeros : (List.replicate ((descriptors section.kind).offset - front.length)
      0 : Bytes) = zeros
    have hlenZeros : front.length + zeros.length = (descriptors section.kind).offset := by
      rw [← hzeros, List.length_replicate]
      omega
    have hlength : (front ++ zeros ++ section.file).length
        = (descriptors section.kind).offset + section.len := by
      rw [List.length_append, List.length_append, hlenZeros, hlenFile]
    rw [← hlength] at hrest
    have hpacked := ih hrest fun other hother => hfile other (List.mem_cons_of_mem _ hother)
    rw [hlength] at hpacked
    rw [sectionBytes, hzeros]
    refine ⟨haligned, by omega, by omega, ?_, ?_, ?_⟩
    . rw [hzeros, ← hlenZeros, List.append_assoc, ← List.append_assoc]
      exact slice_middle front zeros _
    . have hmiddle := slice_middle (front ++ zeros) section.file
        (sectionBytes descriptors ((descriptors section.kind).offset + section.len) sections)
      rw [List.length_append, hlenZeros, hlenFile] at hmiddle
      rw [← List.append_assoc, ← List.append_assoc]
      exact hmiddle
    . rw [← List.append_assoc, ← List.append_assoc]
      exact hpacked

/-- A section of a packed file lies at its offset. -/
theorem Packed.slice_eq {bytes : Bytes} {descriptors : SectionTable} {position : Nat}
    {sections : List SectionFile} (h : Packed bytes descriptors position sections)
    {«section» : SectionFile} (hmem : «section» ∈ sections)
    : Search.slice bytes (descriptors section.kind).offset
        ((descriptors section.kind).offset + section.len) = section.file := by
  induction sections generalizing position with
  | nil => contradiction
  | cons first sections ih =>
    obtain ⟨-, -, -, -, hslice, hrest⟩ := h
    rcases List.mem_cons.mp hmem with rfl | hmem
    . exact hslice
    . exact ih hrest hmem

theorem length_flatMap_ofLE {width : Nat} (values : List Nat)
    : (values.flatMap (Bytes.ofLE width)).length = width * values.length := by
  induction values with
  | nil => rfl
  | cons value values ih =>
    rw [List.flatMap_cons, List.length_append, Bytes.length_ofLE, ih, List.length_cons,
      Nat.mul_add_one, Nat.add_comm]

/-- The checksum table takes four bytes for every checksum. -/
theorem length_checksumTable {sections : List SectionFile} {chunkBytes checksumStart total : Nat}
    (h : checksumTotal chunkBytes checksumStart sections = .ok total)
    : checksumStart * 4 + (checksumTable sections).length = total * 4 := by
  induction sections generalizing checksumStart with
  | nil =>
    cases h
    rfl
  | cons «section» sections ih =>
    simp only [checksumTotal, except_bind_eq_ok, failIf_eq_ok, okOr_eq_ok,
      checkedAdd_eq_some] at h
    obtain ⟨_, -, ⟨⟩, -, _, ⟨rfl, -⟩, h⟩ := h
    have := ih h
    rw [checksumTable, List.flatMap_cons, List.length_append, length_flatMap_ofLE]
    rw [checksumTable] at this
    omega

/-- The total is the number of checksums. -/
theorem checksumTotal_eq {sections : List SectionFile} {chunkBytes checksumStart total : Nat}
    (h : checksumTotal chunkBytes checksumStart sections = .ok total)
    : total = checksumStart + (sections.map (·.checksums.length)).sum := by
  induction sections generalizing checksumStart with
  | nil =>
    cases h
    rfl
  | cons «section» sections ih =>
    simp only [checksumTotal, except_bind_eq_ok, failIf_eq_ok, okOr_eq_ok,
      checkedAdd_eq_some] at h
    obtain ⟨_, -, ⟨⟩, -, _, ⟨rfl, -⟩, h⟩ := h
    rw [ih h, List.map_cons, List.sum_cons, Nat.add_assoc]

/-- The index that was built from these sections. -/
def builtIndex (header : Bytes) (sections : List SectionFile) (descriptors : SectionTable)
    (identity : KeyIndexSourceIdentity) (totalLen : Nat)
    : BuiltIndex where
  header
  sections
  descriptors
  report := { sourceIdentity := identity, bytesWritten := totalLen }

namespace HeaderBuilt

variable {sections : List SectionFile} {identity : KeyIndexSourceIdentity}
variable {rows normalizedTextLen totalLen checksumCount : Nat} {options : KeyIndexOptions}
variable {header : Bytes} {descriptors : SectionTable}

/-- The sections start where the checksum table ends. -/
theorem length_front (h : HeaderBuilt sections identity normalizedTextLen options header
      descriptors totalLen checksumCount)
    : (header ++ checksumTable sections).length = headerBytes + checksumCount * 4 := by
  have := length_checksumTable h.total
  rw [List.length_append, h.length_eq]
  omega

theorem length_builtBytes (h : HeaderBuilt sections identity normalizedTextLen options header
      descriptors totalLen checksumCount)
    (hsections : SectionsOf rows normalizedTextLen sections)
    : (builtBytes (builtIndex header sections descriptors identity totalLen)).length
        = totalLen := by
  have hlaidOut := h.laidOut_metadata hsections.kinds
  rw [← h.length_front] at hlaidOut
  rw [builtBytes, List.length_append]
  exact length_sectionBytes hsections.file hlaidOut

/--
A build is written as a whole into a destination. When the destination was longer, the rest of it is
noticed.
-/
theorem writeBuiltIndex_ensures (hI : LogInvariant I)
    (h : HeaderBuilt sections identity normalizedTextLen options header descriptors totalLen
      checksumCount)
    (hsections : SectionsOf rows normalizedTextLen sections) {bufferBytes : Nat}
    (hbuffer : 0 < bufferBytes) (destination : Destination)
    : Ensures w I
        (writeBuiltIndex (builtIndex header sections descriptors identity totalLen) destination
          bufferBytes)
        (fun written =>
          written.bytes = builtBytes (builtIndex header sections descriptors identity totalLen)
            ∧ written.position = totalLen)
        (fun e => WriteFails w e ∨ totalLen < destination.bytes.length) := by
  have hlaidOut := h.laidOut_metadata hsections.kinds
  have hlength := h.length_builtBytes hsections
  rw [← h.length_front] at hlaidOut
  have hzip : sections.zip (SectionKind.all.map descriptors)
      = sections.map fun «section» => («section», descriptors section.kind) := by
    rw [← hsections.kinds, List.map_map]
    exact List.map_prod_left_eq_zip.symm
  unfold writeBuiltIndex
  apply Ensures.bind ((Destination.seek_ensures hI 0).mono (fun _ h => h) fun _ h => .inl h)
  rintro _ rfl
  apply Ensures.bind ((Destination.writeAll_ensures hI Destination.holds_start header).mono
    (fun _ h => h) fun _ h => .inl h)
  intro written hwritten
  apply Ensures.bind ((writeTable_ensures hI hwritten sections).mono
    (fun _ h => h) fun _ h => .inl h)
  intro written hwritten
  dsimp only [builtIndex]
  rw [hzip]
  rw [List.nil_append] at hwritten
  apply Ensures.bind ((writeSections_ensures hI hbuffer hsections.file hwritten hlaidOut).mono
    (fun _ h => h) fun _ h => .inl h)
  intro written hwritten
  change written.Holds _ (builtBytes (builtIndex header sections descriptors identity totalLen))
    at hwritten
  have hend : written.position = totalLen := by
    rw [hwritten.position, hlength]
  have hlen := hwritten.length
  rw [hlength] at hlen
  apply ensures_failIf_bind
  . intro hne
    exact absurd hend hne
  intro _
  apply Ensures.bind ((Destination.seek_ensures hI _).mono (fun _ h => h) fun _ h => .inl h)
  rintro _ rfl
  apply ensures_failIf_bind
  . intro hne
    dsimp only at hne
    exact .inr (by omega)
  intro hsame
  apply (Destination.seek_ensures hI _).mono _ fun _ h => .inl h
  rintro _ rfl
  refine ⟨hwritten.bytes_eq ?_, hend⟩
  rw [hlength]
  exact Decidable.not_not.mp hsame

end HeaderBuilt

end Mdict.Persistent
