import Mdict.Lemmas.Persistent.Build
import Mdict.Lemmas.Persistent.Total.Merge

/-!
This module contains that a build gets through all rows: unless the outside world stops it, only a
lack of build memory does, and that only after its records have taken more than half of it.
-/

namespace Mdict

open Effect Persistent MdictFile

variable {file : MdictFile} {w : World} {I : Session → Prop} {p : Platform}
variable {options : KeyIndexOptions}

/-- A vector that grows doubles, or takes what is needed or a least capacity. -/
def Platform.GrowsAmortized (p : Platform) : Prop :=
  ∀ elementSize capacity needed,
    p.growCapacity elementSize capacity needed
      ≤ max (max (2 * capacity) needed) (if elementSize = 1 then 8 else 4)

namespace Persistent

/-- The most build memory that is planned for a row. -/
def plannedBytes (file : MdictFile) (p : Platform) (key : Str) : Nat :=
  max (Unicode.utf8 key).length (file.keyText p key).length + sizeOfArenaRecord

/-- A row that may take its part of the build memory. -/
def RowFits (file : MdictFile) (p : Platform) (options : KeyIndexOptions) (key : Str) : Prop :=
  (file.keyText p key).length + (sizeOfRunRecord + 12) ≤ singleLimit options

/-- What is planned for a row covers it and is no more than its part of the memory. -/
structure RecordPlan.Covers (plan : RecordPlan) (file : MdictFile) (p : Platform)
    (options : KeyIndexOptions) (key : Str)
    : Prop where
  bytes : plan.plannedRecordBytes = plan.reserveLen + 24
  single : plan.plannedRecordBytes ≤ singleLimit options
  planned : plan.plannedRecordBytes ≤ plannedBytes file p key
  reserve : (file.keyText p key).length ≤ plan.reserveLen
  expected : ∀ expected, plan.expectedNormalizedLen = some expected →
    expected = (file.keyText p key).length

theorem planRecord_total {key : Str} (h : RowFits file p options key)
    (hmemory : options.buildMemoryBytes < u64Bound)
    : ∃ plan, planRecord file p options key = .ok plan ∧ plan.Covers file p options key := by
  have hfits : (file.keyText p key).length + 44 ≤ options.buildMemoryBytes / 4 := h
  unfold planRecord
  dsimp only
  split
  . next hascii =>
    obtain ⟨hascii, hsmall⟩ := hascii
    have hadd : checkedAdd (Unicode.utf8 key).length sizeOfArenaRecord
        = some ((Unicode.utf8 key).length + 24) := by
      cases hsum : checkedAdd (Unicode.utf8 key).length sizeOfArenaRecord with
      | none =>
        rw [hsum] at hsmall
        contradiction
      | some sum => rw [(checkedAdd_eq_some.mp hsum).1.symm, sizeOfArenaRecord]
    rw [hadd, Option.any_some, decide_eq_true_eq] at hsmall
    refine ⟨_, rfl, ?_, ?_, ?_, file.normalizer.length_normalizeText_le p hascii, ?_⟩
    . dsimp only
      rw [hadd, Option.getD_some]
    . dsimp only
      rw [hadd, Option.getD_some]
      exact hsmall
    . dsimp only
      rw [hadd, Option.getD_some, plannedBytes, sizeOfArenaRecord]
      omega
    . intro _ hexpected
      contradiction
  . have hlen : file.normalizer.normalizedLen p key = .ok (file.keyText p key).length :=
      file.normalizer.normalizedLen_of_lt p (by change (file.keyText p key).length < _; omega)
    have hadd : checkedAdd (file.keyText p key).length sizeOfArenaRecord
        = some ((file.keyText p key).length + 24) := by
      apply checkedAdd_of_lt
      rw [sizeOfArenaRecord]
      omega
    have hsingle : (file.keyText p key).length + 24 ≤ singleLimit options := by
      rw [singleLimit]
      omega
    rw [hlen, except_ok_bind, hadd, okOr_some, except_ok_bind, ensureRecord,
      ensureLimit_of_le hsingle, except_ok_bind]
    refine ⟨_, rfl, rfl, hsingle, ?_, Nat.le_refl _, ?_⟩
    . dsimp only
      rw [plannedBytes, sizeOfArenaRecord]
      omega
    . rintro _ ⟨⟩
      rfl

/-- What a build holds in memory while it goes through the rows, of which `total` was planned. -/
structure BuildState.Going (options : KeyIndexOptions) (rows total : Nat) (state : BuildState)
    : Prop where
  text : state.text.inner.Ready
  bounds : state.bounds.inner.Ready
  raw : state.raw.inner.Ready
  runs : state.runs.Ready
  buffered : state.buffer.normalized.length + 24 * state.buffer.records.length ≤ state.bufferBytes
  bufferBytes_le : state.bufferBytes ≤ options.buildMemoryBytes / 2
  bufferBytes_le_total : state.bufferBytes ≤ total
  empty : state.buffer.records = [] → state.bufferBytes = 0
  allocated : 24 * state.buffer.recordsCapacity + state.buffer.normalizedCapacity
    ≤ options.buildMemoryBytes
  maximum : state.maximumRecordBytes ≤ singleLimit options
  runCount : state.runCount + state.buffer.records.length ≤ rows
  recordsCapacity : state.runCount = 0 →
    state.buffer.recordsCapacity ≤ max 4 (2 * (state.buffer.records.length - 1))
  normalizedCapacity : state.runCount = 0 → state.buffer.normalizedCapacity
    ≤ max 8 (2 * (state.bufferBytes - 24 * state.buffer.records.length))
  spilled : state.runCount ≠ 0 → options.buildMemoryBytes / 2 < total

/-- The outside world stops a build, or it lacks memory after more than half of it was planned. -/
def Falters (w : World) (options : KeyIndexOptions) (total : Nat) (e : Error) : Prop :=
  Stopped w e ∨ options.buildMemoryBytes / 2 < total ∧ MemoryExceeded options e

theorem Falters.mono {total more : Nat} {e : Error} (h : Falters w options total e)
    (hle : total ≤ more)
    : Falters w options more e := by
  rcases h with h | ⟨hlt, h⟩
  . exact .inl h
  . exact .inr ⟨by omega, h⟩

theorem spillBuffer_total (hI : LogInvariant I) {rows total planned : Nat} {state : BuildState}
    (hwithin : state.buffer.Within) (hfits : RunFits (KWayMerge.sorted state.buffer.rows))
    (hrows : rows < u64Bound) (h : state.Going options rows total)
    : Ensures w I (spillBuffer state options (state.bufferBytes + planned))
        (fun next => next.Going options rows (total + planned) ∧ next.bufferBytes ≤ total
          ∧ (next.buffer.records = [] ∨ next.bufferBytes + planned ≤ options.buildMemoryBytes / 2))
        (Stopped w) := by
  have hcount := h.runCount
  have htotal := h.bufferBytes_le_total
  unfold spillBuffer
  split
  . next hspill =>
    have hrecords := List.length_pos_iff.mpr hspill.1
    apply Ensures.bind (writeSortedRun_total hI hwithin.filled hfits h.runs)
    rintro writer ⟨-, hwriter⟩
    rw [checkedAdd_of_lt (by omega), okOr_some, Prog.ok_bind]
    refine .pure ⟨?_, Nat.zero_le _, .inl rfl⟩
    exact {
      text := h.text
      bounds := h.bounds
      raw := h.raw
      runs := hwriter
      buffered := Nat.le_refl 0
      bufferBytes_le := Nat.zero_le _
      bufferBytes_le_total := Nat.zero_le _
      empty := fun _ => rfl
      allocated := h.allocated
      maximum := h.maximum
      runCount := by
        change state.runCount + 1 + 0 ≤ rows
        omega
      recordsCapacity := fun hzero => absurd hzero (Nat.succ_ne_zero _)
      normalizedCapacity := fun hzero => absurd hzero (Nat.succ_ne_zero _)
      spilled := fun _ => by omega
    }
  . next hkeep =>
    refine .pure ⟨{ h with bufferBytes_le_total := by omega, spilled := ?_ }, htotal, ?_⟩
    . intro hruns
      have := h.spilled hruns
      omega
    . by_cases hempty : state.buffer.records = []
      . exact .inl hempty
      . rw [not_and] at hkeep
        exact .inr (by have := hkeep hempty; omega)

/-- The capacity of a vector after it has been asked for room. -/
theorem reserved_le (hgrow : p.GrowsAmortized) (elementSize capacity len additional : Nat)
    : SortBuffer.reserved p elementSize capacity len additional
        ≤ max capacity (max (max (2 * (len + additional - 1)) (len + additional))
          (if elementSize = 1 then 8 else 4)) := by
  have hgrown := hgrow elementSize capacity (len + additional)
  generalize (if elementSize = 1 then 8 else 4) = least at hgrown ⊢
  unfold SortBuffer.reserved
  split <;> omega

theorem reserveRecord_total {buffer : SortBuffer} {normalizedUpper maximum : Nat}
    (hlt : SortBuffer.reserved w.platform sizeOfArenaRecord buffer.recordsCapacity
        buffer.records.length 1 * 24
      + SortBuffer.reserved w.platform 1 buffer.normalizedCapacity buffer.normalized.length
        normalizedUpper < u64Bound)
    : Ensures w I (buffer.reserveRecord normalizedUpper maximum)
        (fun next => next.normalized = buffer.normalized ∧ next.records = buffer.records
          ∧ next.recordsCapacity = SortBuffer.reserved w.platform sizeOfArenaRecord
            buffer.recordsCapacity buffer.records.length 1
          ∧ next.normalizedCapacity = SortBuffer.reserved w.platform 1 buffer.normalizedCapacity
            buffer.normalized.length normalizedUpper
          ∧ 24 * next.recordsCapacity + next.normalizedCapacity ≤ maximum)
        (fun e => maximum < SortBuffer.reserved w.platform sizeOfArenaRecord buffer.recordsCapacity
            buffer.records.length 1 * 24
          + SortBuffer.reserved w.platform 1 buffer.normalizedCapacity buffer.normalized.length
            normalizedUpper
          ∧ ∃ needed, e = .limitExceeded "key_index_build_memory_bytes" needed maximum) := by
  unfold SortBuffer.reserveRecord
  apply ensures_platform_bind
  generalize SortBuffer.reserved w.platform sizeOfArenaRecord buffer.recordsCapacity
    buffer.records.length 1 = recordsCapacity at *
  generalize SortBuffer.reserved w.platform 1 buffer.normalizedCapacity buffer.normalized.length
    normalizedUpper = normalizedCapacity at *
  dsimp only
  have hallocated : SortBuffer.allocatedBytes
      { buffer with recordsCapacity, normalizedCapacity }
      = .ok (recordsCapacity * 24 + normalizedCapacity) := by
    have hmul : recordsCapacity * sizeOfArenaRecord < u64Bound := by
      rw [sizeOfArenaRecord]
      omega
    rw [SortBuffer.allocatedBytes, checkedMul_of_lt hmul, Option.bind_some, sizeOfArenaRecord,
      checkedAdd_of_lt hlt, okOr_some]
  rw [hallocated, Prog.ok_bind]
  apply ensures_failIf_bind
  . exact fun hover => ⟨hover, _, rfl⟩
  . intro hle
    exact .pure ⟨rfl, rfl, rfl, rfl, by dsimp only; omega⟩

/-- A row finds room in the buffer, unless a run has been spilled before. -/
theorem appendNormalized_total (hgrow : w.platform.GrowsAmortized)
    (hmin : minBuildMemoryBytes ≤ options.buildMemoryBytes)
    (hmemory : 4 * options.buildMemoryBytes < u64Bound) {rows total : Nat} {state : BuildState}
    (h : state.Going options rows total) {key : Str} {plan : RecordPlan}
    (hplan : plan.Covers file w.platform options key)
    (hroom : state.buffer.records = []
      ∨ state.bufferBytes + plan.plannedRecordBytes ≤ options.buildMemoryBytes / 2)
    : Ensures w I (appendNormalized file options plan state.buffer key)
        (fun result => 24 * result.1.recordsCapacity + result.1.normalizedCapacity
            ≤ options.buildMemoryBytes
          ∧ (state.runCount = 0 →
            result.1.recordsCapacity ≤ max 4 (2 * state.buffer.records.length)
              ∧ result.1.normalizedCapacity ≤ max 8
                (2 * (state.bufferBytes + plan.reserveLen - 24 * state.buffer.records.length))))
        (Falters w options total) := by
  have hmin' : 256 ≤ options.buildMemoryBytes := hmin
  have hrecords := reserved_le hgrow sizeOfArenaRecord state.buffer.recordsCapacity
    state.buffer.records.length 1
  have hnormalized := reserved_le hgrow 1 state.buffer.normalizedCapacity
    state.buffer.normalized.length plan.reserveLen
  rw [if_neg (by decide)] at hrecords
  rw [if_pos rfl] at hnormalized
  have hbytes := hplan.bytes
  have hsingle := hplan.single
  rw [singleLimit] at hsingle
  have hbuffered := h.buffered
  have hhalf := h.bufferBytes_le
  have hallocated := h.allocated
  have hempty : state.buffer.records.length = 0 → state.bufferBytes = 0 :=
    fun hzero => h.empty (List.length_eq_zero_iff.mp hzero)
  have hroom' : state.buffer.records.length = 0
      ∨ state.bufferBytes + plan.plannedRecordBytes ≤ options.buildMemoryBytes / 2 :=
    hroom.imp_left (congrArg List.length)
  unfold appendNormalized
  apply Ensures.bind (R := fun (next : SortBuffer) => next.normalized = state.buffer.normalized
    ∧ 24 * next.recordsCapacity + next.normalizedCapacity ≤ options.buildMemoryBytes
    ∧ (state.runCount = 0 → next.recordsCapacity ≤ max 4 (2 * state.buffer.records.length)
      ∧ next.normalizedCapacity ≤ max 8
        (2 * (state.bufferBytes + plan.reserveLen - 24 * state.buffer.records.length))))
  . apply (reserveRecord_total (by omega)).mono
    . rintro next ⟨hsame, -, hnextRecords, hnextNormalized, hle⟩
      refine ⟨hsame, hle, fun hzero => ?_⟩
      have hold := h.recordsCapacity hzero
      have hold' := h.normalizedCapacity hzero
      rw [hnextRecords, hnextNormalized]
      omega
    . rintro e ⟨hover, hlimit⟩
      refine .inr ⟨?_, hlimit⟩
      apply h.spilled
      intro hzero
      have hold := h.recordsCapacity hzero
      have hold' := h.normalizedCapacity hzero
      omega
  rintro next ⟨hsame, hle, hcapacity⟩
  apply ensures_platform_bind
  dsimp only
  have hchanged : ¬(plan.expectedNormalizedLen.any
      ((file.normalizer.normalizeBytes w.platform key).length ≠ ·)) = true := by
    rw [KeyNormalizer.normalizeBytes_eq]
    cases hlen : plan.expectedNormalizedLen with
    | none => exact Bool.false_ne_true
    | some expected =>
      rw [Option.any_some, hplan.expected expected hlen, decide_eq_true_eq]
      exact fun h => h rfl
  have hexceeded : ¬(file.normalizer.normalizeBytes w.platform key).length > plan.reserveLen := by
    rw [KeyNormalizer.normalizeBytes_eq]
    exact Nat.not_lt.mpr hplan.reserve
  rw [failIf_of_not hchanged, Prog.ok_bind, failIf_of_not hexceeded, Prog.ok_bind]
  exact .pure ⟨hle, hcapacity⟩

/-! ## Rows -/

theorem text_locatorOf_append (keys more : List Str)
    : (file.locatorOf p (keys ++ more)).text
        = (file.locatorOf p keys).text ++ (file.locatorOf p more).text := by
  simp [locatorOf, KeyLocator.ofTexts]

theorem length_bodyBytes_rowRecords (keys : List Str)
    : (bodyBytes (rowRecords file p keys)).length
        = (file.locatorOf p keys).text.length + 12 * keys.length := by
  induction keys using List.reverseRecOn with
  | nil => rfl
  | append_singleton keys key ih =>
    have hlen : (RunRecord.mk (file.keyText p key) keys.length).bytes.length
        = (file.keyText p key).length + 12 := RunRecord.length_bytes _
    rw [bodyBytes] at ih
    rw [rowRecords_concat, (locatorOf_concat keys key).1, bodyBytes, List.flatMap_append,
      List.flatMap_singleton, List.length_append, List.length_append, List.length_append,
      List.length_singleton, ih, hlen]
    omega

/-- What is buffered makes a run whose numbers fit in its fields. -/
theorem BuildState.Holds.runFits {keys : List Str} {state : BuildState}
    (h : state.Holds file p options keys)
    (hlt : (file.locatorOf p keys).text.length + 12 * keys.length < u64Bound)
    : RunFits (KWayMerge.sorted state.buffer.rows) := by
  obtain ⟨runs, -, -, -, -, hperm⟩ := h.runs
  have hbody := length_bodyBytes_of_perm hperm
  rw [length_bodyBytes_rowRecords, bodyBytes, List.flatMap_append, List.length_append] at hbody
  apply RunFits.of_perm _ (KWayMerge.sorted_perm _)
  refine ⟨by rw [bodyBytes]; omega, ?_⟩
  intro record hrecord
  obtain ⟨row, hrow, rfl⟩ := List.mem_map.mp hrecord
  exact (h.within row hrow).2

theorem checkTextLen_of_le {plan : BuildMetadataPlan} {textLen : Nat}
    (h : textLen ≤ plan.maximumTextBytes)
    : checkTextLen plan options textLen = .ok () :=
  if_neg (by omega)

/-- The build memory planned for some rows. -/
def plannedTotal (file : MdictFile) (p : Platform) (keys : List Str) : Nat :=
  (keys.map (plannedBytes file p)).sum

theorem plannedTotal_concat (keys : List Str) (key : Str)
    : plannedTotal file p (keys ++ [key]) = plannedTotal file p keys + plannedBytes file p key := by
  simp [plannedTotal]

theorem buildRow_total (hI : LogInvariant I) (hgrow : w.platform.GrowsAmortized)
    (hmin : minBuildMemoryBytes ≤ options.buildMemoryBytes)
    (hmemory : 4 * options.buildMemoryBytes < u64Bound) {keys : List Str} {state : BuildState}
    (h : state.Holds file w.platform options keys)
    (hgoing : state.Going options keys.length (plannedTotal file w.platform keys))
    {metadataPlan : BuildMetadataPlan} {entry : DecodedKeyRow}
    (hfits : RowFits file w.platform options entry.key) (hrows : keys.length < u32Bound)
    (htext : (file.locatorOf w.platform (keys ++ [entry.key])).text.length
      ≤ metadataPlan.maximumTextBytes)
    (hlt : (file.locatorOf w.platform (keys ++ [entry.key])).text.length + 12 * keys.length
      < u64Bound)
    : Ensures w I (buildRow file options metadataPlan state keys.length entry)
        (fun next => next.Going options (keys ++ [entry.key]).length
          (plannedTotal file w.platform (keys ++ [entry.key])))
        (Falters w options (plannedTotal file w.platform (keys ++ [entry.key]))) := by
  have hbound : u32Bound < u64Bound := by decide
  have hfits' : (file.keyText w.platform entry.key).length + 44 ≤ options.buildMemoryBytes / 4 :=
    hfits
  obtain ⟨plan, hplan, hcovers⟩ := planRecord_total hfits (by omega)
  have hsingle := hcovers.single
  rw [singleLimit] at hsingle
  have hplanned := hcovers.planned
  have hbytes := hcovers.bytes
  have hreserve := hcovers.reserve
  obtain ⟨hnextText, hnextBounds, hnextRaw⟩ := @locatorOf_concat file w.platform keys entry.key
  have htextLen := congrArg List.length hnextText
  rw [List.length_append] at htextLen
  rw [plannedTotal_concat]
  unfold buildRow
  apply ensures_platform_bind
  rw [hplan, Prog.ok_bind]
  have hhalf := hgoing.bufferBytes_le
  rw [checkedAdd_of_lt (by omega), okOr_some, Prog.ok_bind]
  apply Ensures.bind (R := fun (next : BuildState) => next.Holds file w.platform options keys
    ∧ next.Going options keys.length (plannedTotal file w.platform keys + plan.plannedRecordBytes)
    ∧ next.bufferBytes ≤ plannedTotal file w.platform keys
    ∧ (next.buffer.records = []
      ∨ next.bufferBytes + plan.plannedRecordBytes ≤ options.buildMemoryBytes / 2))
  . apply ((spillBuffer_gives hI h _).and_ensures (spillBuffer_total hI h.within
      (h.runFits (by omega)) (by omega) hgoing)).mono (fun _ hnext => hnext)
    exact fun _ he => .inl he
  rintro spilled ⟨hspilled, hspilledGoing, hspilledTotal, hroom⟩
  have htextBytes : (KeyLocator.sectionBytes (file.locatorOf w.platform keys) .text).length
      = (file.locatorOf w.platform keys).text.length := rfl
  have hboundsBytes : (KeyLocator.sectionBytes (file.locatorOf w.platform keys) .bounds).length
      = 8 * (keys.length + 1) := by
    rw [KeyLocator.sectionBytes, length_flatMap_ofLE, locatorOf, KeyLocator.ofTexts,
      List.length_map, List.length_map, List.length_range, Nat.mul_comm]
  have hrawBytes : (KeyLocator.sectionBytes (file.locatorOf w.platform keys) .raw).length
      = 4 * keys.length := by
    rw [KeyLocator.sectionBytes, length_flatMap_ofLE, locatorOf, KeyLocator.ofTexts,
      List.length_map, Nat.mul_comm]
  dsimp only
  apply Ensures.bind ((((appendNormalized_gives plan spilled.buffer entry.key).and_ensures
    (appendNormalized_total hgrow hmin hmemory hspilledGoing hcovers hroom))).mono (fun _ h => h)
    fun _ he => he.mono (by omega))
  rintro ⟨⟨_, _, normalizedCapacity, recordsCapacity⟩, _⟩ ⟨⟨rfl, rfl, rfl⟩, hallocated, hcapacity⟩
  dsimp only at hallocated hcapacity ⊢
  have hrecordBytes : (file.keyText w.platform entry.key).length + (sizeOfRunRecord + 12)
      < u64Bound := by
    change (file.keyText w.platform entry.key).length + 44 < u64Bound
    omega
  have hspilledLen := hspilled.textLen
  rw [checkedAdd_of_lt hrecordBytes, okOr_some, Prog.ok_bind, ensureRecord, ensureLimit_of_le hfits,
    Prog.ok_bind, checkedAdd_of_lt (by omega), okOr_some, Prog.ok_bind,
    checkTextLen_of_le (by omega), Prog.ok_bind, List.drop_left]
  apply Ensures.bind ((SectionScratchWriter.writeAll_total hI
    ⟨hspilled.text, hspilledGoing.text⟩ (by rw [List.length_append, htextBytes]; omega)).mono
    (fun _ h => h) fun _ he => .inl he)
  intro text htext
  apply Ensures.bind ((SectionScratchWriter.writeAll_total hI
    ⟨hspilled.bounds, hspilledGoing.bounds⟩
    (by rw [List.length_append, hboundsBytes, Bytes.length_ofLE]; omega)).mono
    (fun _ h => h) fun _ he => .inl he)
  intro bounds hbounds
  apply Ensures.bind ((SectionScratchWriter.writeAll_total hI
    ⟨hspilled.raw, hspilledGoing.raw⟩
    (by rw [List.length_append, hrawBytes, Bytes.length_ofLE]; omega)).mono
    (fun _ h => h) fun _ he => .inl he)
  intro raw hraw
  have hspilledHalf := hspilledGoing.bufferBytes_le
  have hbuilt := hspilled.builtRows
  rw [checkedAdd_of_lt (by omega), okOr_some, Prog.ok_bind, checkedAdd_of_lt (by omega), okOr_some,
    Prog.ok_bind]
  apply Ensures.pure
  have hbuffered := hspilledGoing.buffered
  have hempty : spilled.buffer.records.length = 0 → spilled.bufferBytes = 0 :=
    fun hzero => hspilledGoing.empty (List.length_eq_zero_iff.mp hzero)
  have hroom' : spilled.buffer.records.length = 0
      ∨ spilled.bufferBytes + plan.plannedRecordBytes ≤ options.buildMemoryBytes / 2 :=
    hroom.imp_left (congrArg List.length)
  have hone (record : ArenaRecord)
      : (spilled.buffer.records ++ [record]).length = spilled.buffer.records.length + 1 := by
    rw [List.length_append, List.length_singleton]
  exact {
    text := htext.ready
    bounds := hbounds.ready
    raw := hraw.ready
    runs := hspilledGoing.runs
    buffered := by
      dsimp only
      rw [hone, List.length_append]
      omega
    bufferBytes_le := by
      dsimp only
      omega
    bufferBytes_le_total := by
      dsimp only
      omega
    empty := fun hnil => by
      have hlen := congrArg List.length hnil
      rw [hone] at hlen
      contradiction
    allocated := hallocated
    maximum := Nat.max_le.mpr ⟨hspilledGoing.maximum, hfits⟩
    runCount := by
      have := hspilledGoing.runCount
      dsimp only
      rw [hone, List.length_append, List.length_singleton]
      omega
    recordsCapacity := fun hzero => by
      dsimp only
      rw [hone]
      exact (hcapacity hzero).1
    normalizedCapacity := fun hzero => by
      have := (hcapacity hzero).2
      dsimp only
      rw [hone]
      omega
    spilled := fun hruns => by
      have := hspilledGoing.spilled hruns
      omega
  }

/-- A build can go through these rows. -/
structure BuildFits (file : MdictFile) (p : Platform) (options : KeyIndexOptions)
    (plan : BuildMetadataPlan) (keys : List Str)
    : Prop where
  length_le : keys.length ≤ u32Max
  rows : ∀ key ∈ keys, RowFits file p options key
  text_lt : (file.locatorOf p keys).text.length < 2 ^ 63
  text_le : (file.locatorOf p keys).text.length ≤ plan.maximumTextBytes

theorem BuildFits.of_isPrefix {plan : BuildMetadataPlan} {keys first : List Str}
    (h : BuildFits file p options plan keys) (hinitial : first <+: keys)
    : BuildFits file p options plan first := by
  obtain ⟨more, rfl⟩ := hinitial
  have hlen := h.length_le
  have hlt := h.text_lt
  have hle := h.text_le
  rw [List.length_append] at hlen
  rw [text_locatorOf_append, List.length_append] at hlt hle
  exact ⟨by omega, fun key hkey => h.rows key (List.mem_append_left _ hkey), by omega, by omega⟩

theorem plannedTotal_le_of_isPrefix {keys first : List Str} (hinitial : first <+: keys)
    : plannedTotal file p first ≤ plannedTotal file p keys := by
  obtain ⟨more, rfl⟩ := hinitial
  simp [plannedTotal]

end Persistent

namespace MdictFile

/-- The state of a build that has gone through these rows. -/
structure Underway (file : MdictFile) (p : Platform) (options : KeyIndexOptions) (keys : List Str)
    (state : BuildState)
    : Prop where
  holds : state.Holds file p options keys
  going : state.Going options keys.length (plannedTotal file p keys)

/-! ## Blocks -/

theorem keysOf_take_isPrefix (blocks : List (List DecodedKeyRow)) (count : Nat)
    : keysOf (blocks.take count) <+: keysOf blocks := by
  refine ⟨keysOf (blocks.drop count), ?_⟩
  rw [keysOf, keysOf, ← List.map_append, ← List.flatten_append, List.take_append_drop, keysOf]

theorem sourceIdentity_total (hI : LogInvariant I) {identity : KeyIndexSourceIdentity}
    (h : file.Unchanged w identity)
    : Ensures w I file.sourceIdentity (· = identity) (Stopped w) := by
  unfold sourceIdentity
  apply Ensures.bind ((currentIdentity_ensures hI).mono (fun _ h => h) fun _ he => .inl he)
  rintro _ ⟨events, rfl⟩
  rw [h.len, h.modified, h.sourceLen, h.keyCount, failIf_of_not (fun hne => hne rfl), Prog.ok_bind]
  exact .pure rfl

theorem ensureSourceUnchanged_total (hI : LogInvariant I) {identity : KeyIndexSourceIdentity}
    (h : file.Unchanged w identity) (operation : String)
    : Ensures w I (file.ensureSourceUnchanged identity operation) (fun _ => True) (Stopped w) := by
  unfold ensureSourceUnchanged
  apply Ensures.bind (sourceIdentity_total hI h)
  rintro _ rfl
  rw [failIf_of_not (fun hne => hne rfl)]
  exact .pure trivial

theorem decodeBuildBlock_total (hI : file.Invariant w.platform I)
    {blocks : List (List DecodedKeyRow)} (hblocks : file.DecodesTo w.platform blocks)
    {before : KeyIndexSourceIdentity} (hunchanged : file.Unchanged w before) {index : Nat}
    {rows : List DecodedKeyRow} (hrows : blocks[index]? = some rows)
    : Ensures w I (file.decodeBuildBlock before index) (· = rows) (Stopped w) := by
  unfold decodeBuildBlock
  have hdecoded : Ensures w I (file.decodeKeyBlock index) (· = rows) (Interrupted w) :=
    Answers.ensures (decodeKeyBlock_answers hI hblocks hrows) rfl fun _ he => he
  apply Ensures.bind (Ensures.attempt_of hdecoded)
  rintro result ⟨hok, herror⟩
  cases result with
  | ok entries => exact .pure (hok entries rfl)
  | error e =>
    apply Ensures.bind (ensureSourceUnchanged_total hI.events hunchanged _)
    intro _ _
    exact .fail (.inl (herror e rfl))

section Rows

variable {all : List Str} {metadataPlan : BuildMetadataPlan}
variable (hgrow : w.platform.GrowsAmortized)
variable (hmin : minBuildMemoryBytes ≤ options.buildMemoryBytes)
variable (hmemory : options.buildMemoryBytes < 2 ^ 62)
variable (hfit : BuildFits file w.platform options metadataPlan all)
include hgrow hmin hmemory hfit

theorem buildRow_underway (hI : LogInvariant I) {keys : List Str} {state : BuildState}
    (h : file.Underway w.platform options keys state) {entry : DecodedKeyRow}
    (hinitial : keys ++ [entry.key] <+: all)
    : Ensures w I (buildRow file options metadataPlan state keys.length entry)
        (file.Underway w.platform options (keys ++ [entry.key]))
        (Falters w options (plannedTotal file w.platform all)) := by
  have hbound : u64Bound = 2 ^ 64 := rfl
  have hmax : u32Max + 1 = 2 ^ 32 := rfl
  have hu32 : u32Bound = 2 ^ 32 := rfl
  have hnext := hfit.of_isPrefix hinitial
  have hlen := hnext.length_le
  have hlt := hnext.text_lt
  rw [List.length_append, List.length_singleton] at hlen
  have hordinal : keys.length < u32Bound := by omega
  apply ((buildRow_gives hI h.holds metadataPlan hordinal entry).and_ensures
    (buildRow_total hI hgrow hmin (by omega) h.holds h.going
      (hfit.rows _ (hinitial.subset (List.mem_append_right _ List.mem_cons_self))) hordinal
      hnext.text_le (by omega))).mono
  . exact fun _ hstate => ⟨hstate.1, hstate.2⟩
  . exact fun _ he => he.mono (plannedTotal_le_of_isPrefix hinitial)

theorem buildBlock_underway (hI : file.Invariant w.platform I)
    {blocks : List (List DecodedKeyRow)} (hblocks : file.DecodesTo w.platform blocks)
    (hall : all = keysOf blocks) {before : KeyIndexSourceIdentity}
    (hunchanged : file.Unchanged w before) {index : Nat} (hindex : index < blocks.length)
    {state : BuildState} (h : file.Underway w.platform options (keysOf (blocks.take index)) state)
    : Ensures w I (file.buildBlock options metadataPlan before state index)
        (file.Underway w.platform options (keysOf (blocks.take (index + 1))))
        (Falters w options (plannedTotal file w.platform all)) := by
  have hbound : u64Bound = 2 ^ 64 := rfl
  have hmax : u32Max + 1 = 2 ^ 32 := rfl
  have hu32 : u32Bound = 2 ^ 32 := rfl
  have hrows := List.getElem?_eq_getElem hindex
  have hnext : keysOf (blocks.take (index + 1))
      = keysOf (blocks.take index) ++ blocks[index].map (·.key) := by
    rw [List.take_succ_eq_append_getElem hindex, keysOf, keysOf, List.flatten_append,
      List.flatten_singleton, List.map_append]
  have hinitial : keysOf (blocks.take index) ++ blocks[index].map (·.key) <+: all := by
    rw [← hnext, hall]
    exact keysOf_take_isPrefix blocks _
  have hlengths := file.lengths_of_freshRows w.platform (fun i rows hi =>
    hblocks.freshRows i rows (show (blocks[i]? = some rows) by
      rw [List.getElem?_take] at hi
      split at hi
      . exact hi
      . contradiction) : ∀ i rows, (blocks.take index)[i]? = some rows → _)
  generalize blocks[index] = rows at hrows hnext hinitial
  unfold buildBlock
  apply Ensures.bind ((checkCancelled_total hI.events _).mono (fun _ h => h) fun _ he => .inl he)
  intro _ _
  apply Ensures.bind ((decodeBuildBlock_total hI hblocks hunchanged hrows).mono (fun _ h => h)
    fun _ he => .inl he)
  intro entries hentries
  subst hentries
  have hlt : index < file.layout.keyBlocks.length := by
    rw [← keyBlockCount, ← hblocks.length_eq]
    exact hindex
  have hblock := List.getElem?_eq_getElem hlt
  -- The first row of the block comes right after the rows of the blocks before.
  have hstart : file.layout.keyBlocks[index].entryStartIndex
      = (keysOf (blocks.take index)).length := by
    rw [file.layoutVerified.entryStart _ _ hblock, Search.start, keysOf, List.length_map,
      List.length_flatten, hlengths, List.length_take, Nat.min_eq_left (Nat.le_of_lt hindex)]
  rw [hblock, okOr_some, Prog.ok_bind]
  generalize file.layout.keyBlocks[index] = block at hstart
  have hkeys : entries.zipIdx.map (·.1.key) = entries.map (·.key) := by
    conv =>
      right
      rw [← List.zipIdx_map_fst 0 entries, List.map_map]
    rfl
  rw [hnext, ← hkeys]
  rw [← hkeys] at hinitial
  apply Ensures.foldlM (J := fun (seen : List (DecodedKeyRow × Nat)) (state : BuildState) =>
    file.Underway w.platform options (keysOf (blocks.take index) ++ seen.map (·.1.key)) state)
  . rintro seen ⟨entry, entryIndex⟩ rest state hsplit hstate
    have hat : entries.zipIdx[seen.length]? = some (entry, entryIndex) := by
      rw [hsplit, List.getElem?_append_right (Nat.le_refl _), Nat.sub_self]
      rfl
    rw [List.getElem?_zipIdx, Option.map_eq_some_iff] at hat
    obtain ⟨row, -, hrow⟩ := hat
    rw [Prod.mk.injEq, Nat.zero_add] at hrow
    obtain ⟨-, rfl⟩ := hrow
    have hseen : keysOf (blocks.take index) ++ seen.map (·.1.key) ++ [entry.key] <+: all := by
      apply List.IsPrefix.trans _ hinitial
      rw [hsplit, List.map_append, List.map_cons, List.append_assoc]
      exact ⟨rest.map (·.1.key), by simp⟩
    have hordinal : block.entryStartIndex + seen.length
        = (keysOf (blocks.take index) ++ seen.map (·.1.key)).length := by
      rw [List.length_append, List.length_map, hstart]
    have hlen := (hfit.of_isPrefix hseen).length_le
    rw [List.length_append, List.length_singleton] at hlen
    have hrow : Ensures w I (show Exec BuildState from do
        let ordinal ← okOr (checkedAdd block.entryStartIndex seen.length)
          (.invalidFormat "key ordinal overflow")
        let ordinal ← okOr (toU32? ordinal) (.limitExceeded "key_index_entries" ordinal u32Max)
        buildRow file options metadataPlan state ordinal entry)
        (file.Underway w.platform options
          (keysOf (blocks.take index) ++ (seen ++ [(entry, seen.length)]).map (·.1.key)))
        (Falters w options (plannedTotal file w.platform all)) := by
      have hu32' : toU32? (block.entryStartIndex + seen.length)
          = some (block.entryStartIndex + seen.length) := toU32?_eq_some.mpr ⟨rfl, by omega⟩
      rw [checkedAdd_of_lt (by omega), okOr_some, Prog.ok_bind, hu32', okOr_some, Prog.ok_bind,
        hordinal, List.map_append, List.map_singleton, ← List.append_assoc]
      exact buildRow_underway hgrow hmin hmemory hfit hI.events hstate hseen
    dsimp only
    split
    . apply Ensures.bind ((checkCancelled_total hI.events _).mono (fun _ h => h)
        fun _ he => .inl he)
      intro _ _
      exact hrow
    . exact hrow
  . rwa [List.map_nil, List.append_nil]

end Rows

end MdictFile

end Mdict
