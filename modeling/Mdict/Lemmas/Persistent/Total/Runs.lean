import Mdict.Lemmas.Persistent.Merge

/-!
This module contains that the scratch files of a build are written and read back without a failure
of their own: nothing but the outside world stops it.
-/

namespace Mdict.Persistent

open Effect

variable {w : World} {I : Session → Prop}

/-- A failure of the outside world: an operation went wrong or the caller has cancelled. -/
def Stopped (w : World) (e : Error) : Prop := Interrupted w e ∨ WriteFails w e

theorem checkCancelled_total (hI : LogInvariant I) (operation : String)
    : Ensures w I (checkCancelled operation) (fun _ => True) (Stopped w) :=
  (checkCancelled_ensures hI operation).mono (fun _ h => h) fun _ he => .inr he

theorem scratchIo_total (hI : LogInvariant I) (len : Nat)
    : Ensures w I (scratchIo len) (fun _ => True) (Stopped w) :=
  (BufferedScratchWriter.scratchIo_interrupted hI len).mono (fun _ h => h) fun _ he => .inl he

theorem scratchFile_total (hI : LogInvariant I)
    : Ensures w I scratchFile (· = []) (Stopped w) := by
  unfold scratchFile
  apply Ensures.bind (scratchIo_total hI 0)
  intro _ _
  exact .pure rfl

/-! ## Writing -/

namespace BufferedScratchWriter

variable {writer : BufferedScratchWriter}

theorem ready_new (file : Bytes) (options : KeyIndexOptions)
    : (new file (scratchWriteBufferBytes options)).Ready where
  capacity_pos := Nat.lt_of_lt_of_le Nat.zero_lt_one (Nat.le_max_right _ _)
  length_le := Nat.zero_le _

theorem writeAll_total (hI : LogInvariant I) (h : writer.Ready) (input : Bytes)
    : Ensures w I (writer.writeAll input)
        (fun next => next.contents = writer.contents ++ input ∧ next.Ready) (Stopped w) := by
  apply Ensures.mono ((writeAll_gives hI writer input).and_ensures (writeAll_ready hI h input))
  . exact fun _ hnext => hnext
  . exact fun _ he => .inl he

theorem intoFile_total (hI : LogInvariant I) (h : writer.Ready)
    : Ensures w I writer.intoFile (· = writer.contents) (Stopped w) := by
  apply Ensures.mono ((intoFile_gives hI writer).and_ensures (intoFile_ready hI h))
  . exact fun _ hfile => hfile.1
  . exact fun _ he => .inl he

end BufferedScratchWriter

namespace SectionScratchWriter

variable {writer : SectionScratchWriter} {options : KeyIndexOptions} {bytes : Bytes}

/-- The writer has been given these bytes and can take more. -/
structure Takes (writer : SectionScratchWriter) (options : KeyIndexOptions) (bytes : Bytes)
    : Prop where
  holds : writer.Holds options bytes
  ready : writer.inner.Ready

theorem takes_new (h : 0 < options.chunkBytes)
    : (new [] (scratchWriteBufferBytes options) options.chunkBytes options.checksumPolicy).Takes
        options [] :=
  ⟨holds_new h _, BufferedScratchWriter.ready_new [] options⟩

theorem writeAll_total (hI : LogInvariant I) (h : writer.Takes options bytes) {input : Bytes}
    (hlen : (bytes ++ input).length < u64Bound)
    : Ensures w I (writer.writeAll input) (fun next => next.Takes options (bytes ++ input))
        (Stopped w) := by
  apply Ensures.mono ((writeAll_gives hI h.holds input).and_ensures
    (writeAll_ready hI h.ready input))
  . exact fun _ hnext => ⟨hnext.1, hnext.2⟩
  . intro e he
    rcases he with he | ⟨-, hover⟩
    . exact .inl he
    . rw [h.holds.len, ← List.length_append] at hover
      omega

theorem intoSection_total (hI : LogInvariant I) (h : writer.Takes options bytes)
    (kind : SectionKind)
    : Ensures w I (writer.intoSection kind) (· = sectionOf kind options bytes) (Stopped w) := by
  have hlen : writer.inner.contents.length = writer.len := by
    rw [h.holds.contents, h.holds.len]
  apply Ensures.mono ((intoSection_gives hI h.holds kind).and_ensures
    (intoSection_ready hI h.ready hlen kind))
  . exact fun _ hsection => hsection.1
  . exact fun _ he => .inl he

end SectionScratchWriter

theorem runBodyLen_of_lt {bodyLen : Nat} {records : List ArenaRecord}
    (h : bodyLen + (records.map fun record => record.len + 12).sum < u64Bound)
    : runBodyLen bodyLen records
        = .ok (bodyLen + (records.map fun record => record.len + 12).sum) := by
  induction records generalizing bodyLen with
  | nil => rfl
  | cons record records ih =>
    rw [List.map_cons, List.sum_cons] at h ⊢
    rw [runBodyLen, checkedAdd_of_lt (by omega), Option.bind_some, checkedAdd_of_lt (by omega),
      okOr_some, except_ok_bind, ih (by omega)]
    congr 1
    omega

theorem writeSortedRun_total (hI : LogInvariant I) {buffer : SortBuffer} (hbuffer : buffer.Filled)
    (hfits : RunFits (KWayMerge.sorted buffer.rows)) {writer : BufferedScratchWriter}
    (hwriter : writer.Ready)
    : Ensures w I (writeSortedRun writer buffer)
        (fun next => next.contents = writer.contents ++ runBytes (KWayMerge.sorted buffer.rows)
          ∧ next.Ready)
        (Stopped w) := by
  have hsorted := buffer.map_sortedRecords
  have hmem (record : ArenaRecord) (h : record ∈ buffer.sortedRecords) : record ∈ buffer.records :=
    List.mem_mergeSort.mp h
  have hordinals (record : ArenaRecord) (h : record ∈ buffer.records)
      : record.ordinal < u32Bound := by
    apply hfits.ordinals ⟨buffer.key record, record.ordinal⟩
    rw [(KWayMerge.sorted_perm _).mem_iff]
    exact List.mem_map_of_mem (f := fun record => RunRecord.mk (buffer.key record) record.ordinal) h
  have hbody : (bodyBytes (KWayMerge.sorted buffer.rows)).length
      = (buffer.sortedRecords.map fun record => record.len + 12).sum := by
    rw [← hsorted, length_bodyBytes, List.map_map]
    congr 1
    apply List.map_congr_left
    intro record hrecord
    rw [Function.comp_apply, hbuffer record (hmem record hrecord)]
  have hready : Ensures w I (writeSortedRun writer buffer) BufferedScratchWriter.Ready
      (Stopped w) := by
    unfold writeSortedRun
    have hlt := hfits.body
    rw [hbody] at hlt
    dsimp only
    rw [runBodyLen_of_lt (by omega), Prog.ok_bind]
    apply Ensures.bind (BufferedScratchWriter.writeAll_total hI hwriter _)
    intro writer₁ h₁
    apply Ensures.bind (BufferedScratchWriter.writeAll_total hI h₁.2 _)
    intro writer₂ h₂
    apply Ensures.foldlM (J := fun _ next => BufferedScratchWriter.Ready next) _ h₂.2
    intro seen record rest next _ hnext
    apply Ensures.bind (BufferedScratchWriter.writeAll_total hI hnext _)
    intro next₁ hnext₁
    apply Ensures.bind (BufferedScratchWriter.writeAll_total hI hnext₁.2 _)
    intro next₂ hnext₂
    exact (BufferedScratchWriter.writeAll_total hI hnext₂.2 _).mono (fun _ h => h.2) fun _ he => he
  apply Ensures.mono ((writeSortedRun_gives hI hbuffer hordinals writer).and_ensures hready)
  . exact fun _ hnext => ⟨hnext.1.1, hnext.2⟩
  . exact fun _ he => he

theorem length_orderBytes (records : List RunRecord)
    : (orderBytes records).length = 4 * records.length := by
  induction records with
  | nil => rfl
  | cons record records ih =>
    rw [orderBytes, List.flatMap_cons, List.length_append, Bytes.length_ofLE, List.length_cons]
    rw [orderBytes] at ih
    omega

theorem writeSortedOrder_total (hI : LogInvariant I) {options : KeyIndexOptions}
    {writer : SectionScratchWriter} {bytes : Bytes} (h : writer.Takes options bytes)
    {buffer : SortBuffer} (hlen : bytes.length + 4 * buffer.records.length < u64Bound)
    : Ensures w I (writeSortedOrder writer buffer)
        (fun next => next.Takes options (bytes ++ orderBytes (KWayMerge.sorted buffer.rows)))
        (Stopped w) := by
  rw [← buffer.map_sortedRecords, orderBytes, List.flatMap_map]
  unfold writeSortedOrder
  have hcount : buffer.sortedRecords.length = buffer.records.length := List.length_mergeSort _
  apply Ensures.foldlM (J := fun seen (next : SectionScratchWriter) => next.Takes options
    (bytes ++ seen.flatMap fun (record : ArenaRecord) => Bytes.ofLE 4 record.ordinal))
  . intro seen record rest next hrest hnext
    rw [List.flatMap_append, List.flatMap_singleton, ← List.append_assoc]
    apply SectionScratchWriter.writeAll_total hI hnext
    have hseen := length_orderBytes (seen.map fun record => ⟨[], record.ordinal⟩)
    rw [orderBytes, List.flatMap_map, List.length_map] at hseen
    have hsplit := congrArg List.length hrest
    rw [List.length_append, List.length_cons] at hsplit
    rw [List.length_append, List.length_append, Bytes.length_ofLE, hseen]
    omega
  . rw [List.flatMap_nil, List.append_nil]
    exact h

/-! ## Reading -/

theorem readScratch_total (hI : LogInvariant I) {file : Bytes} {offset len : Nat}
    (h : offset + len ≤ file.length)
    : Ensures w I (readScratch file offset len)
        (· = Search.slice file offset (offset + len)) (Stopped w) := by
  unfold readScratch
  apply Ensures.bind (scratchIo_total hI len)
  intro _ _
  rw [failIf_of_not (by omega), Prog.ok_bind]
  apply Ensures.pure
  rw [Search.slice, Nat.add_sub_cancel_left]

namespace RunCursor

variable {run : RunCursor} {file : Bytes}

theorem refill_total (hI : LogInvariant I) (h : run.Stands file) (hfile : file.length < u64Bound)
    (hlt : run.cursor < run.stop)
    : Ensures w I (run.refill file)
        (fun next => next.Stands file ∧ next.stop = run.stop ∧ next.cursor = run.cursor
          ∧ next.ahead ≠ [])
        (Stopped w) := by
  have hstop := h.stop_le
  have htotal : Ensures w I (run.refill file) (fun _ => True) (Stopped w) := by
    unfold refill
    split
    . rw [failIf_of_not (by omega), Prog.ok_bind, checkedUsize_of_lt (by omega), Prog.ok_bind]
      apply Ensures.bind (readScratch_total hI (by omega))
      intro _ _
      exact .pure trivial
    . exact .pure trivial
  apply Ensures.mono ((refill_gives hI h).and_ensures htotal)
  . exact fun _ hnext => hnext.1
  . exact fun _ he => he

theorem readExact_total (hI : LogInvariant I) (h : run.Stands file)
    (hfile : file.length < u64Bound) {len : Nat} (hlen : len ≤ (run.left file).length)
    : Ensures w I (run.readExact file len)
        (fun result => result.1.length = len ∧ result.1 ++ result.2.left file = run.left file
          ∧ result.2.Stands file ∧ result.2.stop = run.stop)
        (Stopped w) := by
  have htotal : Ensures w I (run.readExact file len) (fun _ => True) (Stopped w) := by
    rw [length_left h] at hlen
    induction hn : len using Nat.strongRecOn generalizing run len with
    | ind n ih =>
      subst hn
      unfold readExact
      split
      . exact .pure trivial
      . next hpos =>
        have hle := h.stop_le
        have hcursorLe := h.cursor_le
        apply Ensures.bind (refill_total hI h hfile (by omega))
        rintro filled ⟨hfilled, hstop, hcursor, hahead⟩
        rw [← List.length_pos_iff, length_ahead] at hahead
        dsimp only
        rw [checkedAdd_of_lt (by omega), okOr_some, Prog.ok_bind]
        split
        . next hnone => omega
        . next hsome =>
          obtain ⟨hstands, -⟩ := @Stands.advance _ _ hfilled
            (min (filled.buffer.length - filled.bufferPosition) len) (by rw [length_ahead]; omega)
          apply Ensures.bind (ih _ (by omega) hstands (by dsimp only; omega) rfl)
          intro _ _
          exact .pure trivial
  apply Ensures.mono ((readExact_gives hI h len).and_ensures htotal)
  . exact fun _ hresult => hresult.1
  . exact fun _ he => he

end RunCursor

/-- A record that a merge can hold in its memory. -/
structure RunRecord.Loads (record : RunRecord) (maximum : Nat) : Prop where
  length : record.normalized.length ≤ maximum
  decodes : Unicode.utf8Decode? record.normalized ≠ none

theorem readRecord_total (hI : LogInvariant I) {run : RunCursor} {file : Bytes}
    (hfile : file.length < u64Bound) {record : RunRecord} {records : List RunRecord}
    (h : run.Reads file (record :: records)) {maximum : Nat} (hrecord : record.Loads maximum)
    : Ensures w I (readRecord file run maximum)
        (fun result => result.1 = record ∧ result.2.Reads file records) (Stopped w) := by
  have htotal : Ensures w I (readRecord file run maximum) (fun _ => True) (Stopped w) := by
    have hleft := h.left_eq
    rw [bodyBytes, List.flatMap_cons, RunRecord.bytes, ← bodyBytes] at hleft
    have hlt := h.fits.normalized_lt
    have hlen : Bytes.toLE (Bytes.ofLE 8 record.normalized.length) = record.normalized.length :=
      Bytes.toLE_ofLE_of_lt hlt
    have hordinal : (Bytes.ofLE 4 record.ordinal).length = 4 := Bytes.length_ofLE _ _
    have hsize := congrArg List.length hleft
    rw [RunCursor.length_left h.stands] at hsize
    simp only [List.length_append, Bytes.length_ofLE] at hsize
    have hstop := h.stands.stop_le
    have hcursor := h.stands.cursor_le
    unfold readRecord
    dsimp only
    apply Ensures.bind (@RunCursor.readExact_total _ _ _ _ hI h.stands hfile 8
      (by rw [RunCursor.length_left h.stands]; omega))
    rintro ⟨lenBytes, run₁⟩ ⟨hlen₁, hleft₁, hstands₁, hstop₁⟩
    dsimp only at hlen₁ hleft₁ hstands₁ hstop₁ ⊢
    rw [hleft, List.append_assoc, List.append_assoc] at hleft₁
    obtain ⟨hlenBytes, hleft₁⟩ := List.append_inj hleft₁ (by rw [hlen₁, Bytes.length_ofLE])
    rw [hlenBytes, hlen, checkedUsize_of_lt hlt, Prog.ok_bind, ensureLimit_of_le hrecord.length,
      Prog.ok_bind, checkedAdd_of_lt (by omega), Option.bind_some, checkedAdd_of_lt (by omega),
      okOr_some, Prog.ok_bind, failIf_of_not (by omega), Prog.ok_bind]
    apply Ensures.bind (@RunCursor.readExact_total _ _ _ _ hI hstands₁ hfile
      record.normalized.length (by rw [hleft₁, List.length_append]; omega))
    rintro ⟨normalized, run₂⟩ ⟨hlen₂, hleft₂, hstands₂, hstop₂⟩
    dsimp only at hlen₂ hleft₂ hstands₂ hstop₂ ⊢
    rw [hleft₁] at hleft₂
    obtain ⟨rfl, hrest₂⟩ := List.append_inj hleft₂ hlen₂
    apply Ensures.bind (@RunCursor.readExact_total _ _ _ _ hI hstands₂ hfile 4
      (by rw [hrest₂, List.length_append]; omega))
    rintro ⟨ordinalBytes, run₃⟩ ⟨hlen₃, hleft₃, hstands₃, hstop₃⟩
    dsimp only at hlen₃ hleft₃ hstands₃ hstop₃ ⊢
    rw [hrest₂] at hleft₃
    obtain ⟨-, hrest₃⟩ := List.append_inj hleft₃ (by rw [hlen₃, hordinal])
    -- The cursor is where the rest of the run begins.
    have hrest := congrArg List.length hrest₃
    rw [RunCursor.length_left hstands₃, hstop₃, hstop₂, hstop₁] at hrest
    have hcursor₃ := hstands₃.cursor_le
    rw [failIf_of_not (by omega), Prog.ok_bind, failIf_of_not hrecord.decodes, Prog.ok_bind]
    exact .pure trivial
  apply Ensures.mono ((readRecord_gives hI h maximum).and_ensures htotal)
  . exact fun _ hresult => hresult.1
  . exact fun _ he => he

/-- The header of a run leads to its records. -/
theorem readRunHeader_total (hI : LogInvariant I) {file front back : Bytes}
    (hlen : file.length < u64Bound) {records : List RunRecord}
    (hfile : file = front ++ runBytes records ++ back) (hfits : RunFits records)
    {bufferCapacity : Nat} (hcapacity : 0 < bufferCapacity)
    : Ensures w I (readRunHeader file front.length bufferCapacity)
        (fun result => result.1.Reads file records ∧ result.1.remaining = records.length
          ∧ result.1.bodyLen = (bodyBytes records).length
          ∧ result.2 = (front ++ runBytes records).length)
        (Stopped w) := by
  have htotal : Ensures w I (readRunHeader file front.length bufferCapacity) (fun _ => True)
      (Stopped w) := by
    have hsize := congrArg List.length hfile
    rw [List.length_append, List.length_append, length_runBytes] at hsize
    have hbody : Search.slice file front.length (front.length + 8)
        = Bytes.ofLE 8 (bodyBytes records).length := by
      have hsplit : file = front ++ Bytes.ofLE 8 (bodyBytes records).length
          ++ (Bytes.ofLE 8 records.length ++ bodyBytes records ++ back) := by
        rw [hfile, runBytes]
        simp only [List.append_assoc]
      have hslice := slice_middle front (Bytes.ofLE 8 (bodyBytes records).length)
        (Bytes.ofLE 8 records.length ++ bodyBytes records ++ back)
      rwa [← hsplit, Bytes.length_ofLE] at hslice
    unfold readRunHeader
    apply Ensures.bind (readScratch_total hI (by omega))
    rintro _ rfl
    apply Ensures.bind (readScratch_total hI (by omega))
    rintro _ rfl
    rw [hbody, Bytes.toLE_ofLE_of_lt hfits.body]
    dsimp only
    rw [checkedAdd_of_lt (by omega), okOr_some, Prog.ok_bind, checkedAdd_of_lt (by omega),
      okOr_some, Prog.ok_bind, failIf_of_not (by omega), Prog.ok_bind]
    exact .pure trivial
  apply Ensures.mono ((readRunHeader_gives hI hfile hfits hcapacity).and_ensures htotal)
  . exact fun _ hresult => hresult.1
  . exact fun _ he => he

end Mdict.Persistent
