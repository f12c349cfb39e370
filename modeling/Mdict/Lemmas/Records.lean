import Mdict.Core.Records
import Mdict.Lemmas.Access

/-!
This module contains what access to records answers in a dictionary that decodes: each record ends
where the next one starts, and the last one at the end of the record stream.
-/

namespace Mdict.MdictFile

open Effect

variable {file : MdictFile} {w : World} {I : Session → Prop}
variable {blocks : List (List DecodedKeyRow)}

/-- Where the record of row `ordinal` ends when the record stream has length `total`. -/
def stopOf (total : Nat) (rows : List DecodedKeyRow) (ordinal : Nat) : Nat :=
  (rows[ordinal + 1]?.map (·.recordStart)).getD total

/-- The descriptors of the records of these rows. -/
def descriptorsOf (total : Nat) (rows : List DecodedKeyRow) : List RecordDescriptor :=
  rows.mapIdx fun ordinal row =>
    { key := ⟨ordinal, row.key⟩, start := row.recordStart, stop := stopOf total rows ordinal }

theorem le_stopOf {total previous : Nat} {rows : List DecodedKeyRow}
    (h : StartsFrom total previous rows) {ordinal : Nat} {row : DecodedKeyRow}
    (hrow : rows[ordinal]? = some row)
    : row.recordStart ≤ stopOf total rows ordinal ∧ stopOf total rows ordinal ≤ total := by
  obtain ⟨hlt, rfl⟩ := List.getElem?_eq_some_iff.mp hrow
  unfold stopOf
  cases hnext : rows[ordinal + 1]? with
  | none => exact ⟨(h.1 _ (List.getElem_mem hlt)).2, Nat.le_refl _⟩
  | some next =>
    obtain ⟨hlt', rfl⟩ := List.getElem?_eq_some_iff.mp hnext
    exact ⟨List.pairwise_iff_getElem.mp h.2 _ _ hlt hlt' (Nat.lt_succ_self _),
      (h.1 _ (List.getElem_mem hlt')).2⟩

section Descriptors

variable {total previous : Nat} {rows : List DecodedKeyRow} {stream : Bytes}

theorem length_descriptorsOf : (descriptorsOf total rows).length = rows.length := by
  rw [descriptorsOf, List.length_mapIdx]

theorem descriptorsOf_eq_some {ordinal : Nat} {d : RecordDescriptor}
    (hd : (descriptorsOf total rows)[ordinal]? = some d)
    : ∃ row, rows[ordinal]? = some row
        ∧ d = ⟨⟨ordinal, row.key⟩, row.recordStart, stopOf total rows ordinal⟩ := by
  rw [descriptorsOf, List.getElem?_mapIdx, Option.map_eq_some_iff] at hd
  obtain ⟨row, hrow, rfl⟩ := hd
  exact ⟨row, hrow, rfl⟩

/-- A record ends where the next one starts. -/
theorem stop_eq_start {ordinal : Nat} {d next : RecordDescriptor}
    (hd : (descriptorsOf total rows)[ordinal]? = some d)
    (hnext : (descriptorsOf total rows)[ordinal + 1]? = some next)
    : d.stop = next.start := by
  obtain ⟨row, -, rfl⟩ := descriptorsOf_eq_some hd
  obtain ⟨row', hrow', rfl⟩ := descriptorsOf_eq_some hnext
  dsimp only
  rw [stopOf, hrow']
  rfl

/-- The last record ends at the end of the stream. -/
theorem stop_eq_total {last : RecordDescriptor}
    (hlast : (descriptorsOf total rows).getLast? = some last)
    : last.stop = total := by
  rw [List.getLast?_eq_getElem?, length_descriptorsOf] at hlast
  obtain ⟨row, hrow, rfl⟩ := descriptorsOf_eq_some hlast
  have hlt := (List.getElem?_eq_some_iff.mp hrow).1
  dsimp only
  rw [stopOf, List.getElem?_eq_none (by omega)]
  rfl

/-- Together the records are the stream from the first start on. -/
theorem flatten_descriptorsOf (h : StartsFrom total previous rows) (hstream : stream.length = total)
    {first : RecordDescriptor} (hfirst : (descriptorsOf total rows).head? = some first)
    : ((descriptorsOf total rows).map fun d => Search.slice stream d.start d.stop).flatten
        = stream.drop first.start := by
  have hne : descriptorsOf total rows ≠ [] := by
    intro hnil
    rw [hnil] at hfirst
    contradiction
  have hlast := List.getLast?_eq_some_getLast hne
  have hflatten := (@Search.flatten_slices _ stream
    ((descriptorsOf total rows).map fun d => (d.start, d.stop)) ?_ ?_ _ _
    (by rw [List.head?_map, hfirst, Option.map_some])
    (by rw [List.getLast?_map, hlast, Option.map_some])).2
  . rw [List.map_map] at hflatten
    refine Eq.trans hflatten ?_
    dsimp only
    rw [stop_eq_total hlast, Search.slice, List.take_of_length_le]
    rw [List.length_drop, hstream]
  . intro span hspan
    obtain ⟨d, hd, rfl⟩ := List.mem_map.mp hspan
    obtain ⟨i, hi⟩ := List.mem_iff_getElem?.mp hd
    obtain ⟨row, hrow, rfl⟩ := descriptorsOf_eq_some hi
    exact (le_stopOf h hrow).1
  . intro i s t hs ht
    rw [List.getElem?_map, Option.map_eq_some_iff] at hs ht
    obtain ⟨d, hd, rfl⟩ := hs
    obtain ⟨next, hnext, rfl⟩ := ht
    exact stop_eq_start hd hnext

end Descriptors

/-- The row after a hit is in its block, or it is the first one of the next block. -/
theorem recordStop_answers (hI : file.Invariant w.platform I)
    (h : file.DecodesTo w.platform blocks) {ordinal : Nat} {hit : KeyBlockHit}
    (hhit : file.IsHit w.platform ordinal hit)
    : Answers w I (file.recordStop hit)
        (.ok (stopOf file.layout.totalDecodedRecordLen blocks.flatten ordinal)) := by
  obtain ⟨block, hblock, hordinal, hlt, hlen⟩ := hhit.exists_block
  have hrows := hhit.block_eq h
  have hstart : block.entryStartIndex = Search.start (blocks.map List.length) hit.blockIndex := by
    rw [h.lengths_eq, file.layoutVerified.entryStart _ _ hblock]
  unfold recordStop stopOf
  cases hnext : hit.entries[hit.entryIndex + 1]? with
  | some next =>
    have hlt' := (List.getElem?_eq_some_iff.mp hnext).1
    have hrow := Search.getElem?_flatten hrows hlt'
    rw [← hstart, ← Nat.add_assoc, hordinal, hnext] at hrow
    rw [hrow]
    exact .pure
  | none =>
    rw [List.getElem?_eq_none_iff] at hnext
    have hend : ordinal + 1 = Search.start (blocks.map List.length) (hit.blockIndex + 1) := by
      rw [h.lengths_eq, ← file.layoutVerified.entryEnd hblock]
      omega
    dsimp only
    split
    . next hmore =>
      rw [← h.length_eq] at hmore
      have hrows' := List.getElem?_eq_getElem hmore
      obtain ⟨block', -, -, hne⟩ := h.entryCount hrows'
      have hfirst := List.head?_eq_some_head hne
      have hrow := Search.getElem?_flatten hrows' (List.length_pos_iff.mpr hne)
      rw [← hend, Nat.add_zero, ← List.head?_eq_getElem?, hfirst] at hrow
      rw [hrow]
      apply (decodeKeyBlock_answers hI h hrows').bind_ok
      rw [hfirst, okOr_some]
      exact Answers.liftM.bind_ok .pure
    . next hlast =>
      have hsum : Search.start (blocks.map List.length) (hit.blockIndex + 1)
          = blocks.flatten.length := by
        rw [List.length_flatten, Search.start, List.take_of_length_le]
        rw [List.length_map, h.length_eq]
        omega
      rw [List.getElem?_eq_none (by omega)]
      exact .pure

theorem recordDescriptorFromHit_answers (hI : file.Invariant w.platform I)
    (h : file.DecodesTo w.platform blocks) {ordinal : Nat} {hit : KeyBlockHit}
    {row : DecodedKeyRow} (hhit : file.IsHit w.platform ordinal hit)
    (hrow : blocks.flatten[ordinal]? = some row)
    : Answers w I (file.recordDescriptorFromHit hit)
        (.ok { key := ⟨ordinal, row.key⟩
               start := row.recordStart
               stop := stopOf file.layout.totalDecodedRecordLen blocks.flatten ordinal }) := by
  obtain ⟨block, hblock, hordinal, -⟩ := hhit.exists_block
  have hbound := file.layoutVerified.totalEntries_lt
  have hlt := hhit.lt
  have hadd : checkedAdd block.entryStartIndex hit.entryIndex = some ordinal := by
    rw [checkedAdd_eq_some]
    rw [len] at hlt
    omega
  have hle := (le_stopOf h.startsFrom hrow).1
  unfold recordDescriptorFromHit
  rw [hblock, okOr_some]
  apply Answers.liftM.bind_ok
  rw [hadd, okOr_some]
  apply Answers.liftM.bind_ok
  rw [hhit.row_eq h, hrow, okOr_some]
  apply Answers.liftM.bind_ok
  apply (recordStop_answers hI h hhit).bind_ok
  rw [failIf_of_not (by omega)]
  exact Answers.liftM.bind_ok .pure

/-- In a dictionary that decodes, every ordinal has its record. -/
theorem recordAtOrdinal_answers (hI : file.Invariant w.platform I)
    (h : file.DecodesTo w.platform blocks) (ordinal : Nat)
    : Answers w I (file.recordAtOrdinal ordinal)
        (.ok (descriptorsOf file.layout.totalDecodedRecordLen blocks.flatten)[ordinal]?) := by
  rw [descriptorsOf, List.getElem?_mapIdx]
  unfold recordAtOrdinal
  by_cases hlt : ordinal < file.len
  . obtain ⟨hit, hhit, hanswer⟩ := keyEntryAtOrdinal_answers hI h hlt
    have hflat : ordinal < blocks.flatten.length := by
      rw [h.length_flatten]
      exact hlt
    have hrow := List.getElem?_eq_getElem hflat
    apply hanswer.bind_ok
    rw [hrow]
    exact (recordDescriptorFromHit_answers hI h hhit hrow).bind_ok .pure
  . rw [List.getElem?_eq_none (by rw [h.length_flatten]; omega)]
    unfold keyEntryAtOrdinal
    rw [if_pos (by omega)]
    exact .pure

end Mdict.MdictFile
