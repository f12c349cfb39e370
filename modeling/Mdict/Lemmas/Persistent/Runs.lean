import Mdict.Lib.KWayMerge
import Mdict.Lib.SortedIndex
import Mdict.Lemmas.Persistent.Scratch
import Mathlib.Data.Prod.Lex

/-!
This module contains the sorted runs of a build: how the records of a run stand in the scratch file,
and that the buffered cursor of a run reads them back one by one.
-/

namespace Mdict.Persistent

open Effect

variable {w : World} {I : Session → Prop}

/-! ## The order of records -/

namespace RunRecord

/-- Records are ordered by normalized text and then by ordinal. -/
instance : LinearOrder RunRecord :=
  LinearOrder.lift' (fun record => toLex (record.normalized, record.ordinal)) (by
    rintro ⟨normalized, ordinal⟩ ⟨normalized', ordinal'⟩ h
    simpa using h)

theorem le_iff {left right : RunRecord}
    : left ≤ right ↔ left.normalized < right.normalized
        ∨ left.normalized = right.normalized ∧ left.ordinal ≤ right.ordinal :=
  Prod.Lex.toLex_le_toLex

/-! ## The bytes of a run -/

/-- A record as it stands in a run. -/
def bytes (record : RunRecord) : Bytes :=
  Bytes.ofLE 8 record.normalized.length ++ record.normalized ++ Bytes.ofLE 4 record.ordinal

theorem length_bytes (record : RunRecord) : record.bytes.length = record.normalized.length + 12 := by
  rw [bytes, List.length_append, List.length_append, Bytes.length_ofLE, Bytes.length_ofLE]
  omega

end RunRecord

/-- The records of a run one after the other. -/
def bodyBytes (records : List RunRecord) : Bytes := records.flatMap RunRecord.bytes

/-- A run: the length of its body, the number of its records and the body. -/
def runBytes (records : List RunRecord) : Bytes :=
  Bytes.ofLE 8 (bodyBytes records).length ++ Bytes.ofLE 8 records.length ++ bodyBytes records

/-- The ordinals of records, as they stand in the order section. -/
def orderBytes (records : List RunRecord) : Bytes :=
  records.flatMap fun record => Bytes.ofLE 4 record.ordinal

/-- Runs one after the other. -/
def runsBytes (runs : List (List RunRecord)) : Bytes := runs.flatMap runBytes

theorem length_bodyBytes (records : List RunRecord)
    : (bodyBytes records).length = (records.map fun record => record.normalized.length + 12).sum := by
  rw [bodyBytes, List.length_flatMap]
  congr 1
  exact List.map_congr_left fun record _ => record.length_bytes

theorem length_bodyBytes_of_perm {records records' : List RunRecord} (h : records.Perm records')
    : (bodyBytes records).length = (bodyBytes records').length := by
  rw [length_bodyBytes, length_bodyBytes]
  exact (h.map _).sum_nat

theorem length_le_length_bodyBytes (records : List RunRecord)
    : records.length ≤ (bodyBytes records).length := by
  induction records with
  | nil => exact Nat.le_refl 0
  | cons record records ih =>
    have := record.length_bytes
    rw [bodyBytes, List.flatMap_cons, List.length_append, List.length_cons]
    rw [bodyBytes] at ih
    omega

theorem length_runBytes (records : List RunRecord)
    : (runBytes records).length = 16 + (bodyBytes records).length := by
  rw [runBytes, List.length_append, List.length_append, Bytes.length_ofLE, Bytes.length_ofLE]

/-- The numbers of a run fit in its fields. -/
structure RunFits (records : List RunRecord) : Prop where
  body : (bodyBytes records).length < u64Bound
  ordinals : ∀ record ∈ records, record.ordinal < u32Bound

namespace RunFits

variable {record : RunRecord} {records : List RunRecord}

theorem of_perm {records' : List RunRecord} (h : RunFits records) (hperm : records'.Perm records)
    : RunFits records' where
  body := by
    rw [length_bodyBytes_of_perm hperm]
    exact h.body
  ordinals := fun record hrecord => h.ordinals record (hperm.mem_iff.mp hrecord)

theorem tail (h : RunFits (record :: records)) : RunFits records where
  body := by
    have := h.body
    rw [bodyBytes, List.flatMap_cons, List.length_append] at this
    rw [bodyBytes]
    omega
  ordinals := fun other hother => h.ordinals other (List.mem_cons_of_mem _ hother)

theorem length_lt (h : RunFits records) : records.length < u64Bound :=
  Nat.lt_of_le_of_lt (length_le_length_bodyBytes records) h.body

theorem normalized_lt (h : RunFits (record :: records)) : record.normalized.length < u64Bound := by
  have hbody := h.body
  have := record.length_bytes
  rw [bodyBytes, List.flatMap_cons, List.length_append] at hbody
  omega

end RunFits

/-! ## The sort buffer -/

namespace SortBuffer

variable {buffer : SortBuffer}

/-- The records of the buffer with their texts. -/
def rows (buffer : SortBuffer) : List RunRecord :=
  buffer.records.map fun record => ⟨buffer.key record, record.ordinal⟩

/-- The buffer gives out its records in order. -/
theorem map_sortedRecords (buffer : SortBuffer)
    : buffer.sortedRecords.map (fun record => RunRecord.mk (buffer.key record) record.ordinal)
        = KWayMerge.sorted buffer.rows := by
  have hle (left right : ArenaRecord)
      : ((compareOfLessAndEq (buffer.key left) (buffer.key right)).then
          (compareOfLessAndEq left.ordinal right.ordinal)).isLE
          ↔ RunRecord.mk (buffer.key left) left.ordinal ≤ RunRecord.mk (buffer.key right) right.ordinal := by
    rw [SortedIndex.isLE_then, SortedIndex.isLE_compare_nat, RunRecord.le_iff]
  apply KWayMerge.eq_sorted
  . exact (List.mergeSort_perm _ _).map _
  . rw [List.pairwise_map]
    have hsorted : buffer.sortedRecords.Pairwise fun left right =>
        ((compareOfLessAndEq (buffer.key left) (buffer.key right)).then
          (compareOfLessAndEq left.ordinal right.ordinal)).isLE = true := by
      apply List.pairwise_mergeSort
      . intro a b c hab hbc
        rw [hle] at *
        exact hab.trans hbc
      . intro a b
        rw [Bool.or_eq_true, hle, hle]
        exact le_total _ _
    exact hsorted.imp fun h => (hle _ _).mp h

end SortBuffer

theorem runBodyLen_eq_ok {bodyLen total : Nat} {records : List ArenaRecord}
    (h : runBodyLen bodyLen records = .ok total)
    : total = bodyLen + (records.map fun record => record.len + 12).sum
        ∧ (bodyLen < u64Bound → total < u64Bound) := by
  induction records generalizing bodyLen with
  | nil =>
    cases h
    exact ⟨rfl, fun h => h⟩
  | cons record records ih =>
    simp only [runBodyLen, except_bind_eq_ok, okOr_eq_ok, Option.bind_eq_some_iff,
      checkedAdd_eq_some] at h
    obtain ⟨_, ⟨_, ⟨rfl, -⟩, rfl, hlt⟩, h⟩ := h
    obtain ⟨rfl, hbound⟩ := ih h
    refine ⟨?_, fun _ => hbound hlt⟩
    rw [List.map_cons, List.sum_cons]
    omega

/-- The arena has the text of every record. -/
def SortBuffer.Filled (buffer : SortBuffer) : Prop :=
  ∀ record ∈ buffer.records, (buffer.key record).length = record.len

theorem writeSortedRun_gives (hI : LogInvariant I) {buffer : SortBuffer} (hbuffer : buffer.Filled)
    (hordinals : ∀ record ∈ buffer.records, record.ordinal < u32Bound)
    (writer : BufferedScratchWriter)
    : Gives w I (writeSortedRun writer buffer)
        (fun next =>
          next.contents = writer.contents ++ runBytes (KWayMerge.sorted buffer.rows)
            ∧ RunFits (KWayMerge.sorted buffer.rows)) := by
  have hsorted := buffer.map_sortedRecords
  have hmem (record : ArenaRecord) (h : record ∈ buffer.sortedRecords) : record ∈ buffer.records :=
    List.mem_mergeSort.mp h
  have hbody : (bodyBytes (KWayMerge.sorted buffer.rows)).length
      = (buffer.sortedRecords.map fun record => record.len + 12).sum := by
    rw [← hsorted, length_bodyBytes, List.map_map]
    congr 1
    apply List.map_congr_left
    intro record hrecord
    rw [Function.comp_apply, hbuffer record (hmem record hrecord)]
  unfold writeSortedRun
  apply Gives.liftM_bind
  intro bodyLen hbodyLen
  obtain ⟨rfl, hlt⟩ := runBodyLen_eq_ok hbodyLen
  rw [Nat.zero_add, ← hbody] at hlt ⊢
  apply Gives.bind (BufferedScratchWriter.writeAll_gives hI writer _)
  intro writer₁ h₁
  apply Gives.bind (BufferedScratchWriter.writeAll_gives hI writer₁ _)
  intro writer₂ h₂
  have hfits : RunFits (KWayMerge.sorted buffer.rows) := by
    refine ⟨hlt (by decide), ?_⟩
    rw [← hsorted]
    intro row hrow
    obtain ⟨record, hrecord, rfl⟩ := List.mem_map.mp hrow
    exact hordinals record (hmem record hrecord)
  have hcount : buffer.sortedRecords.length = (KWayMerge.sorted buffer.rows).length := by
    rw [← hsorted, List.length_map]
  apply Gives.mono (Q := fun next => next.contents = writer₂.contents
    ++ bodyBytes (buffer.sortedRecords.map fun record => ⟨buffer.key record, record.ordinal⟩))
  . apply Gives.foldlM (J := fun seen (next : BufferedScratchWriter) => next.contents = writer₂.contents
      ++ bodyBytes (seen.map fun record => ⟨buffer.key record, record.ordinal⟩))
    . intro seen record rest next hrest hnext
      have hlen := hbuffer record (hmem record (hrest ▸ by simp))
      apply Gives.bind (BufferedScratchWriter.writeAll_gives hI next _)
      intro next₁ hnext₁
      apply Gives.bind (BufferedScratchWriter.writeAll_gives hI next₁ _)
      intro next₂ hnext₂
      apply (BufferedScratchWriter.writeAll_gives hI next₂ _).mono
      intro next₃ hnext₃
      rw [hnext₃, hnext₂, hnext₁, hnext, bodyBytes, bodyBytes, List.map_append, List.flatMap_append,
        List.map_singleton, List.flatMap_singleton, RunRecord.bytes, ← hlen]
      simp only [List.append_assoc]
    . rw [List.map_nil, bodyBytes, List.flatMap_nil, List.append_nil]
  . intro next hnext
    rw [hsorted] at hnext
    refine ⟨?_, hfits⟩
    rw [hnext, h₂, h₁, runBytes, hcount]
    simp only [List.append_assoc]

theorem writeSortedOrder_gives (hI : LogInvariant I) {options : KeyIndexOptions}
    {writer : SectionScratchWriter} {bytes : Bytes} (h : writer.Holds options bytes)
    (buffer : SortBuffer)
    : Gives w I (writeSortedOrder writer buffer)
        (fun next => next.Holds options
          (bytes ++ orderBytes (KWayMerge.sorted buffer.rows))) := by
  rw [← buffer.map_sortedRecords, orderBytes, List.flatMap_map]
  unfold writeSortedOrder
  apply Gives.foldlM (J := fun seen (next : SectionScratchWriter) => next.Holds options
    (bytes ++ seen.flatMap fun (record : ArenaRecord) => Bytes.ofLE 4 record.ordinal))
  . intro seen record rest next _ hnext
    rw [List.flatMap_append, List.flatMap_singleton, ← List.append_assoc]
    exact SectionScratchWriter.writeU32_gives hI hnext _
  . rwa [List.flatMap_nil, List.append_nil]

/-! ## Reading -/

theorem readScratch_gives (hI : LogInvariant I) (file : Bytes) (offset len : Nat)
    : Gives w I (readScratch file offset len)
        (fun bytes => bytes = Search.slice file offset (offset + len)
          ∧ offset + len ≤ file.length) := by
  unfold readScratch
  apply Gives.bind (scratchIo_gives hI len)
  intro _ _
  apply Gives.liftM_bind
  intro _ h
  rw [failIf_eq_ok] at h
  apply Gives.pure
  refine ⟨?_, by omega⟩
  rw [Search.slice, Nat.add_sub_cancel_left]

namespace RunCursor

/-- The bytes of a run that have not been read yet. -/
def left (run : RunCursor) (file : Bytes) : Bytes := Search.slice file run.cursor run.stop

/-- The bytes in the buffer that have not been read yet. -/
def ahead (run : RunCursor) : Bytes := run.buffer.drop run.bufferPosition

/-- The buffer holds what comes next in the file. -/
structure Stands (run : RunCursor) (file : Bytes) : Prop where
  stop_le : run.stop ≤ file.length
  cursor_le : run.cursor ≤ run.stop
  capacity_pos : 0 < run.bufferCapacity
  position_le : run.bufferPosition ≤ run.buffer.length
  ahead_isPrefix : run.ahead <+: run.left file

variable {run : RunCursor} {file : Bytes}

theorem length_left (h : run.Stands file) : (run.left file).length = run.stop - run.cursor :=
  Search.length_slice h.stop_le

theorem length_ahead : run.ahead.length = run.buffer.length - run.bufferPosition :=
  List.length_drop

theorem refill_gives (hI : LogInvariant I) (h : run.Stands file)
    : Gives w I (run.refill file)
        (fun next => next.Stands file ∧ next.stop = run.stop ∧ next.cursor = run.cursor
          ∧ next.ahead ≠ []) := by
  unfold refill
  split
  . next hempty =>
    apply Gives.liftM_bind
    intro _ hlt
    rw [failIf_eq_ok] at hlt
    apply Gives.liftM_bind
    intro readLen hreadLen
    obtain ⟨rfl, -⟩ := checkedUsize_eq_ok.mp hreadLen
    apply Gives.bind (readScratch_gives hI file run.cursor _)
    rintro buffer ⟨hbuffer, hle⟩
    apply Gives.pure
    have hcapacity := h.capacity_pos
    have hstop := h.stop_le
    have hlen : buffer.length = min (run.stop - run.cursor) run.bufferCapacity := by
      rw [hbuffer, Search.length_slice hle]
      omega
    refine ⟨⟨hstop, h.cursor_le, hcapacity, Nat.zero_le _, ?_⟩, rfl, rfl, ?_⟩
    . have hslice : run.cursor + min (run.stop - run.cursor) run.bufferCapacity ≤ run.stop := by
        omega
      rw [ahead, left, List.drop_zero, hbuffer]
      dsimp only
      rw [← Search.slice_append_slice (Nat.le_add_right _ _) hslice]
      exact List.prefix_append _ _
    . rw [ahead, List.drop_zero, ← List.length_pos_iff, hlen]
      omega
  . next hne =>
    apply Gives.pure
    refine ⟨h, rfl, rfl, ?_⟩
    have := h.position_le
    rw [← List.length_pos_iff, length_ahead]
    omega

/-- Reading from the buffer. -/
theorem Stands.advance (h : run.Stands file) {copied : Nat} (hcopied : copied ≤ run.ahead.length)
    : ({ run with
          bufferPosition := run.bufferPosition + copied
          cursor := run.cursor + copied } : RunCursor).Stands file
      ∧ run.ahead.take copied ++ ({ run with
          bufferPosition := run.bufferPosition + copied
          cursor := run.cursor + copied } : RunCursor).left file = run.left file := by
  have hle : run.ahead.length ≤ (run.left file).length := h.ahead_isPrefix.length_le
  rw [length_left h] at hle
  have hcursor := h.cursor_le
  have hposition := h.position_le
  rw [length_ahead] at hcopied hle
  have hdrop : ({ run with
      bufferPosition := run.bufferPosition + copied
      cursor := run.cursor + copied } : RunCursor).left file = (run.left file).drop copied := by
    rw [left, left, Search.slice, Search.slice, List.drop_take, List.drop_drop]
    dsimp only
    congr 1
    omega
  obtain ⟨rest, hrest⟩ := h.ahead_isPrefix
  have hlen : copied ≤ run.ahead.length := by
    rw [length_ahead]
    exact hcopied
  refine ⟨⟨h.stop_le, ?_, h.capacity_pos, ?_, ?_⟩, ?_⟩
  . dsimp only
    omega
  . dsimp only
    omega
  . rw [hdrop, ← hrest, List.drop_append_of_le_length hlen, ahead, ahead, List.drop_drop]
    exact List.prefix_append _ _
  . rw [hdrop, ← hrest, List.drop_append_of_le_length hlen, ← List.append_assoc,
      List.take_append_drop]

theorem readExact_gives (hI : LogInvariant I) (h : run.Stands file) (len : Nat)
    : Gives w I (run.readExact file len)
        (fun result => result.1.length = len ∧ result.1 ++ result.2.left file = run.left file
          ∧ result.2.Stands file ∧ result.2.stop = run.stop) := by
  induction hn : len using Nat.strongRecOn generalizing run len with
  | ind n ih =>
    subst hn
    unfold readExact
    split
    . next hzero =>
      apply Gives.pure
      exact ⟨hzero.symm, rfl, h, rfl⟩
    . next hpos =>
      apply Gives.bind (refill_gives hI h)
      rintro filled ⟨hfilled, hstop, hcursor, hahead⟩
      rw [← List.length_pos_iff, length_ahead] at hahead
      dsimp only
      apply Gives.liftM_bind
      intro cursor hadd
      rw [okOr_eq_ok, checkedAdd_eq_some] at hadd
      obtain ⟨rfl, -⟩ := hadd
      split
      . next hnone => omega
      . next hsome =>
        obtain ⟨hstands, htake⟩ := @Stands.advance _ _ hfilled
          (min (filled.buffer.length - filled.bufferPosition) len) (by rw [length_ahead]; omega)
        apply Gives.bind (ih _ (by omega) hstands _ rfl)
        rintro ⟨rest, last⟩ ⟨hlen, hleft, hlast, hlastStop⟩
        apply Gives.pure
        dsimp only at hlen hleft hlast hlastStop ⊢
        have hfilledLeft : filled.left file = run.left file := by
          rw [left, left, hcursor, hstop]
        refine ⟨?_, ?_, hlast, hlastStop.trans hstop⟩
        . rw [List.length_append, hlen, List.length_take, List.length_drop]
          omega
        . rw [List.append_assoc, hleft, ← hfilledLeft, ← htake]
          rfl

/-- The cursor is at the first of these records. -/
structure Reads (run : RunCursor) (file : Bytes) (records : List RunRecord) : Prop where
  stands : run.Stands file
  left_eq : run.left file = bodyBytes records
  fits : RunFits records

end RunCursor

theorem readRecord_gives (hI : LogInvariant I) {run : RunCursor} {file : Bytes}
    {record : RunRecord} {records : List RunRecord} (h : run.Reads file (record :: records))
    (maximum : Nat)
    : Gives w I (readRecord file run maximum)
        (fun result => result.1 = record ∧ result.2.Reads file records) := by
  have hleft := h.left_eq
  rw [bodyBytes, List.flatMap_cons, RunRecord.bytes, ← bodyBytes] at hleft
  have hlen : Bytes.toLE (Bytes.ofLE 8 record.normalized.length) = record.normalized.length :=
    Bytes.toLE_ofLE_of_lt h.fits.normalized_lt
  have hordinal : Bytes.toLE (Bytes.ofLE 4 record.ordinal) = record.ordinal :=
    Bytes.toLE_ofLE_of_lt (h.fits.ordinals record List.mem_cons_self)
  unfold readRecord
  dsimp only
  apply Gives.bind (RunCursor.readExact_gives hI h.stands 8)
  rintro ⟨lenBytes, run₁⟩ ⟨hlen₁, hleft₁, hstands₁, -⟩
  dsimp only at hlen₁ hleft₁ ⊢
  rw [hleft, List.append_assoc, List.append_assoc] at hleft₁
  obtain ⟨hlenBytes, hleft₁⟩ := List.append_inj hleft₁ (by rw [hlen₁, Bytes.length_ofLE])
  rw [hlenBytes, hlen]
  apply Gives.liftM_bind
  intro len hcheckedLen
  obtain ⟨rfl, -⟩ := checkedUsize_eq_ok.mp hcheckedLen
  apply Gives.liftM_bind
  intro _ _
  apply Gives.liftM_bind
  intro recordEnd _
  apply Gives.liftM_bind
  intro _ _
  apply Gives.bind (RunCursor.readExact_gives hI hstands₁ _)
  rintro ⟨normalized, run₂⟩ ⟨hlen₂, hleft₂, hstands₂, -⟩
  dsimp only at hlen₂ hleft₂ ⊢
  rw [hleft₁] at hleft₂
  obtain ⟨rfl, hrest⟩ := List.append_inj hleft₂ hlen₂
  apply Gives.bind (RunCursor.readExact_gives hI hstands₂ 4)
  rintro ⟨ordinalBytes, run₃⟩ ⟨hlen₃, hleft₃, hstands₃, -⟩
  dsimp only at hlen₃ hleft₃ ⊢
  rw [hrest] at hleft₃
  obtain ⟨hordinalBytes, hleft₃⟩ := List.append_inj hleft₃ (by rw [hlen₃, Bytes.length_ofLE])
  rw [hordinalBytes, hordinal]
  apply Gives.liftM_bind
  intro _ _
  apply Gives.liftM_bind
  intro _ _
  apply Gives.pure
  exact ⟨rfl, hstands₃, hleft₃, h.fits.tail⟩

/-- The header of a run leads to its records. -/
theorem readRunHeader_gives (hI : LogInvariant I) {file front back : Bytes}
    {records : List RunRecord} (hfile : file = front ++ runBytes records ++ back)
    (hfits : RunFits records) {bufferCapacity : Nat} (hcapacity : 0 < bufferCapacity)
    : Gives w I (readRunHeader file front.length bufferCapacity)
        (fun result => result.1.Reads file records ∧ result.1.remaining = records.length
          ∧ result.1.bodyLen = (bodyBytes records).length
          ∧ result.2 = (front ++ runBytes records).length) := by
  have hslice (before field after : Bytes) (h : file = before ++ field ++ after)
      : Search.slice file before.length (before.length + field.length) = field := by
    rw [h]
    exact slice_middle before field after
  have hbody := hslice front (Bytes.ofLE 8 (bodyBytes records).length)
    (Bytes.ofLE 8 records.length ++ bodyBytes records ++ back) (by
      rw [hfile, runBytes]
      simp only [List.append_assoc])
  have hcount := hslice (front ++ Bytes.ofLE 8 (bodyBytes records).length)
    (Bytes.ofLE 8 records.length) (bodyBytes records ++ back) (by
      rw [hfile, runBytes]
      simp only [List.append_assoc])
  have hrecords := hslice
    (front ++ Bytes.ofLE 8 (bodyBytes records).length ++ Bytes.ofLE 8 records.length)
    (bodyBytes records) back (by
      rw [hfile, runBytes]
      simp only [List.append_assoc])
  rw [Bytes.length_ofLE] at hbody
  rw [Bytes.length_ofLE, List.length_append, Bytes.length_ofLE] at hcount
  rw [List.length_append, List.length_append, Bytes.length_ofLE, Bytes.length_ofLE] at hrecords
  unfold readRunHeader
  apply Gives.bind (readScratch_gives hI file _ 8)
  rintro _ ⟨rfl, -⟩
  apply Gives.bind (readScratch_gives hI file _ 8)
  rintro _ ⟨rfl, -⟩
  rw [hbody, hcount, Bytes.toLE_ofLE_of_lt hfits.body, Bytes.toLE_ofLE_of_lt hfits.length_lt]
  dsimp only
  apply Gives.liftM_bind
  intro bodyStart hbodyStart
  rw [okOr_eq_ok, checkedAdd_eq_some] at hbodyStart
  obtain ⟨rfl, -⟩ := hbodyStart
  apply Gives.liftM_bind
  intro stop hstop
  rw [okOr_eq_ok, checkedAdd_eq_some] at hstop
  obtain ⟨rfl, -⟩ := hstop
  apply Gives.liftM_bind
  intro _ hle
  rw [failIf_eq_ok] at hle
  apply Gives.pure
  refine ⟨⟨⟨by dsimp only; omega, by dsimp only; omega, hcapacity, Nat.le_refl _, ?_⟩, ?_, hfits⟩,
    rfl, rfl, ?_⟩
  . exact List.nil_prefix
  . exact hrecords
  . rw [List.length_append, length_runBytes]
    omega

end Mdict.Persistent
