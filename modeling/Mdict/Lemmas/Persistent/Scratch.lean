import Mdict.Core.Persistent.Sort
import Mdict.Lemmas.Checksum
import Mdict.Lemmas.Persistent.Write

/-!
This module contains what the writers of scratch files produce: the bytes they were given, and for a
section also the checksum of every chunk, however the bytes were split over the calls.
-/

namespace Mdict.Persistent

open Effect

variable {w : World} {I : Session → Prop}

theorem gives_log_bind {β : Type} {event : Event} {f : Unit → Exec β} {Q : β → Prop}
    (hI : LogInvariant I) (hf : Gives w I (f ()) Q)
    : Gives w I (Exec.log event >>= f) Q :=
  .bind (Gives.of_ensures (log_ensures hI (E := fun _ => True))) fun _ _ => hf

theorem scratchIo_gives (hI : LogInvariant I) (len : Nat)
    : Gives w I (scratchIo len) (fun _ => True) := by
  unfold scratchIo
  exact gives_log_bind hI (.of_ensures io_ensures)

theorem checkCancelled_gives (hI : LogInvariant I) (operation : String)
    : Gives w I (checkCancelled operation) (fun _ => True) :=
  .of_ensures (checkCancelled_ensures hI operation)

theorem scratchFile_gives (hI : LogInvariant I) : Gives w I scratchFile (· = []) := by
  unfold scratchFile
  apply Gives.bind (scratchIo_gives hI 0)
  intro _ _
  exact .pure rfl

theorem gives_platform_bind {β : Type} {f : Platform → Exec β} {Q : β → Prop}
    (hf : Gives w I (f w.platform) Q)
    : Gives w I (Exec.platform >>= f) Q :=
  ensures_platform_bind hf

theorem ensures_accepted_bind {β : Type} {len : Nat} {f : Nat → Exec β} {Q : β → Prop}
    {E : Error → Prop}
    (hf : ∀ written, written ≤ len → (w.Quiet → 0 < len → 0 < written) →
      Ensures w I (f written) Q E)
    : Ensures w I (Exec.accepted len >>= f) Q E := by
  refine .bind (R := fun written => written ≤ len ∧ (w.Quiet → 0 < len → 0 < written)) ?_
    fun written hwritten => hf written hwritten.1 hwritten.2
  intro s hs
  refine ⟨hs, Nat.min_le_right _ _, fun hquiet hlen => ?_⟩
  exact Nat.lt_min.mpr ⟨hquiet.accepted s.events, hlen⟩

theorem gives_accepted_bind {β : Type} {len : Nat} {f : Nat → Exec β} {Q : β → Prop}
    (hf : ∀ written, written ≤ len → Gives w I (f written) Q)
    : Gives w I (Exec.accepted len >>= f) Q :=
  ensures_accepted_bind fun written hle _ => hf written hle

/-! ## Files -/

namespace BufferedScratchWriter

variable {writer : BufferedScratchWriter}

/-- What has been written, be it in the file or in the buffer. -/
def contents (writer : BufferedScratchWriter) : Bytes := writer.file ++ writer.buffer

theorem contents_new (file : Bytes) (capacity : Nat) : (new file capacity).contents = file :=
  List.append_nil file

theorem flushBuffer_gives (hI : LogInvariant I) (writer : BufferedScratchWriter)
    : Gives w I writer.flushBuffer
        (fun next => next.contents = writer.contents ∧ next.file = writer.contents) := by
  unfold flushBuffer
  split
  . next hempty =>
    apply Gives.pure
    rw [contents, hempty, List.append_nil]
    exact ⟨rfl, rfl⟩
  . apply Gives.bind (scratchIo_gives hI _)
    intro _ _
    apply Gives.pure
    rw [contents, contents, List.append_nil]
    exact ⟨rfl, rfl⟩

theorem write_gives (hI : LogInvariant I) (writer : BufferedScratchWriter) (input : Bytes)
    : Gives w I (writer.write input)
        (fun result => result.2.contents = writer.contents ++ input.take result.1) := by
  unfold write
  split
  . apply Gives.pure
    rw [List.take_zero, List.append_nil]
  . split
    . next hdirect =>
      apply Gives.bind (scratchIo_gives hI _)
      intro _ _
      apply gives_accepted_bind
      intro written _
      apply Gives.pure
      rw [contents, contents, hdirect.1, List.append_nil, List.append_nil]
    . have happend (next : BufferedScratchWriter) (count : Nat)
          : ({ next with buffer := next.buffer ++ input.take count } : BufferedScratchWriter).contents
              = next.contents ++ input.take count := by
        rw [contents, contents, List.append_assoc]
      dsimp only
      split
      . apply Gives.bind (flushBuffer_gives hI writer)
        intro next hnext
        apply Gives.pure
        rw [happend, hnext.1]
      . exact .pure (happend writer _)

theorem writeAll_gives (hI : LogInvariant I) (writer : BufferedScratchWriter) (input : Bytes)
    : Gives w I (writer.writeAll input) (fun next => next.contents = writer.contents ++ input) := by
  induction hn : input.length using Nat.strongRecOn generalizing writer input with
  | ind n ih =>
    unfold writeAll
    split
    . next hempty =>
      apply Gives.pure
      rw [hempty, List.append_nil]
    . next hne =>
      apply Gives.bind (write_gives hI writer input)
      rintro ⟨written, next⟩ hnext
      dsimp only at hnext ⊢
      split
      . exact .fail
      . next hwritten =>
        have hpos : input.length ≠ 0 := by simpa using hne
        have hlt : (input.drop written).length < n := by
          rw [List.length_drop]
          omega
        apply (ih _ hlt next _ rfl).mono
        intro last hlast
        rw [hlast, hnext, List.append_assoc, List.take_append_drop]

theorem intoFile_gives (hI : LogInvariant I) (writer : BufferedScratchWriter)
    : Gives w I writer.intoFile (· = writer.contents) := by
  unfold intoFile
  apply Gives.bind (flushBuffer_gives hI writer)
  intro next hnext
  exact .pure hnext.2

/-- A buffer that can take something, at the latest when it has been flushed. -/
structure Ready (writer : BufferedScratchWriter) : Prop where
  capacity_pos : 0 < writer.capacity
  length_le : writer.buffer.length ≤ writer.capacity

theorem scratchIo_interrupted (hI : LogInvariant I) (len : Nat)
    : Ensures w I (scratchIo len) (fun _ => True) (Interrupted w) := by
  unfold scratchIo
  exact .bind (log_ensures hI) fun _ _ => io_interrupted

theorem flushBuffer_ready (hI : LogInvariant I) (h : writer.Ready)
    : Ensures w I writer.flushBuffer
        (fun next => next.Ready ∧ next.capacity = writer.capacity ∧ next.buffer = [])
        (Interrupted w) := by
  unfold flushBuffer
  split
  . next hempty => exact .pure ⟨h, rfl, hempty⟩
  . apply Ensures.bind (scratchIo_interrupted hI _)
    intro _ _
    exact .pure ⟨⟨h.capacity_pos, Nat.zero_le _⟩, rfl, rfl⟩

theorem write_ready (hI : LogInvariant I) (h : writer.Ready) {input : Bytes} (hne : input ≠ [])
    : Ensures w I (writer.write input)
        (fun result => result.2.Ready ∧ (w.Quiet → 0 < result.1)) (Interrupted w) := by
  have hpos : 0 < input.length := List.length_pos_iff.mpr hne
  unfold write
  rw [if_neg hne]
  split
  . apply Ensures.bind (scratchIo_interrupted hI _)
    intro _ _
    apply ensures_accepted_bind
    intro written _ hwritten
    exact .pure ⟨⟨h.capacity_pos, h.length_le⟩, fun hquiet => hwritten hquiet hpos⟩
  . have hspace {next : BufferedScratchWriter} (hnext : next.Ready)
        (hroom : next.buffer.length < next.capacity)
        : Ensures w I
            (Pure.pure (min (next.capacity - next.buffer.length) input.length,
              { next with
                buffer := next.buffer
                  ++ input.take (min (next.capacity - next.buffer.length) input.length) })
              : Exec (Nat × BufferedScratchWriter))
            (fun result => result.2.Ready ∧ (w.Quiet → 0 < result.1)) (Interrupted w) := by
      refine .pure ⟨⟨hnext.capacity_pos, ?_⟩, fun _ => by omega⟩
      dsimp only
      rw [List.length_append, List.length_take]
      omega
    dsimp only
    split
    . apply Ensures.bind (flushBuffer_ready hI h)
      intro next hnext
      apply hspace hnext.1
      rw [hnext.2.2]
      exact hnext.1.capacity_pos
    . next hroom =>
      have hle := h.length_le
      exact hspace h (by omega)

theorem writeAll_ready (hI : LogInvariant I) (h : writer.Ready) (input : Bytes)
    : Ensures w I (writer.writeAll input) Ready (Interrupted w) := by
  induction hn : input.length using Nat.strongRecOn generalizing writer input with
  | ind n ih =>
    unfold writeAll
    split
    . exact .pure h
    . next hne =>
      apply Ensures.bind (write_ready hI h hne)
      rintro ⟨written, next⟩ hnext
      dsimp only at hnext ⊢
      split
      . next hzero =>
        refine .fail ⟨rfl, fun hquiet => ?_⟩
        exact Nat.ne_of_gt (hnext.2 hquiet) hzero
      . next hwritten =>
        have hpos : input.length ≠ 0 := by simpa using hne
        have hlt : (input.drop written).length < n := by
          rw [List.length_drop]
          omega
        exact ih _ hlt hnext.1 _ rfl

theorem intoFile_ready (hI : LogInvariant I) (h : writer.Ready)
    : Ensures w I writer.intoFile (fun _ => True) (Interrupted w) := by
  unfold intoFile
  exact .bind (flushBuffer_ready hI h) fun _ _ => .pure trivial

/-- A round that does not fail takes something, so there are not more rounds than bytes. -/
theorem writeRounds_eq {rounds : Nat} {input : Bytes} (h : input.length ≤ rounds)
    : writer.writeRounds rounds input = writer.writeAll input := by
  induction rounds generalizing writer input with
  | zero =>
    have hnil : input = [] := List.length_eq_zero_iff.mp (Nat.le_zero.mp h)
    rw [writeRounds, writeAll, if_pos hnil, dif_pos hnil]
  | succ rounds ih =>
    rw [writeRounds, writeAll]
    split
    . rfl
    . next hne =>
      congr 1
      funext result
      obtain ⟨written, next⟩ := result
      dsimp only
      split
      . rfl
      . next hwritten =>
        apply ih
        have hpos : input.length ≠ 0 := by simpa using hne
        rw [List.length_drop]
        omega

end BufferedScratchWriter

/-! ## Sections -/

/-- The checksum that is kept of a chunk. -/
def chunkSum (policy : ChecksumPolicy) (chunk : Bytes) : Nat :=
  if policy = .verify then adler32 chunk else 0

/-- The chunk of some bytes with this number. -/
def chunkOf (chunkBytes : Nat) (bytes : Bytes) (chunk : Nat) : Bytes :=
  (bytes.drop (chunk * chunkBytes)).take chunkBytes

/-- `chunks`: pieces of this length, the last one possibly shorter. -/
def chunks (chunkBytes : Nat) (bytes : Bytes) : List Bytes :=
  if _ : bytes ≠ [] ∧ 0 < chunkBytes then
    bytes.take chunkBytes :: chunks chunkBytes (bytes.drop chunkBytes)
  else
    []
termination_by bytes.length
decreasing_by
  rename_i h
  have : bytes.length ≠ 0 := by simpa using h.1
  rw [List.length_drop]
  omega

/-- The checksums of the first chunks of some bytes. -/
def chunkSums (policy : ChecksumPolicy) (chunkBytes : Nat) (bytes : Bytes) (count : Nat) : List Nat :=
  (List.range count).map fun chunk => chunkSum policy (chunkOf chunkBytes bytes chunk)

theorem length_chunkSums {policy : ChecksumPolicy} {chunkBytes count : Nat} {bytes : Bytes}
    : (chunkSums policy chunkBytes bytes count).length = count := by
  rw [chunkSums, List.length_map, List.length_range]

theorem chunkSums_succ {policy : ChecksumPolicy} {chunkBytes count : Nat} {bytes : Bytes}
    : chunkSums policy chunkBytes bytes (count + 1)
        = chunkSums policy chunkBytes bytes count
          ++ [chunkSum policy (chunkOf chunkBytes bytes count)] := by
  rw [chunkSums, List.range_succ, List.map_append]
  rfl

/-- Full chunks stay what they are when something is appended. -/
theorem chunkSums_append {policy : ChecksumPolicy} {chunkBytes count : Nat} {bytes : Bytes}
    (h : count * chunkBytes ≤ bytes.length) (more : Bytes)
    : chunkSums policy chunkBytes (bytes ++ more) count = chunkSums policy chunkBytes bytes count := by
  apply List.map_congr_left
  intro chunk hchunk
  have hlt := List.mem_range.mp hchunk
  have hle : chunk * chunkBytes + chunkBytes ≤ bytes.length := by
    rw [← Nat.succ_mul]
    exact (Nat.mul_le_mul_right chunkBytes hlt).trans h
  rw [chunkOf, chunkOf, List.drop_append_of_le_length (by omega),
    List.take_append_of_le_length (by rw [List.length_drop]; omega)]

theorem chunkSums_succ_eq_cons {policy : ChecksumPolicy} {chunkBytes count : Nat} {bytes : Bytes}
    : chunkSums policy chunkBytes bytes (count + 1)
        = chunkSum policy (bytes.take chunkBytes)
          :: chunkSums policy chunkBytes (bytes.drop chunkBytes) count := by
  rw [chunkSums, List.range_succ_eq_map, List.map_cons, List.map_map, chunkSums, chunkOf,
    Nat.zero_mul, List.drop_zero]
  refine congrArg (List.cons _) (List.map_congr_left ?_)
  intro chunk _
  rw [Function.comp_apply, chunkOf, chunkOf, List.drop_drop, Nat.succ_mul, Nat.add_comm]

/-- The checksums of all chunks. -/
theorem chunkSums_eq {policy : ChecksumPolicy} {chunkBytes : Nat} (hpos : 0 < chunkBytes)
    (bytes : Bytes)
    : chunkSums policy chunkBytes bytes ((bytes.length + (chunkBytes - 1)) / chunkBytes)
        = (chunks chunkBytes bytes).map (chunkSum policy) := by
  induction hn : bytes.length using Nat.strongRecOn generalizing bytes with
  | ind n ih =>
    unfold chunks
    split
    . next hne =>
      have hlen : bytes.length ≠ 0 := by simpa using hne.1
      have hdrop : (bytes.drop chunkBytes).length = n - chunkBytes := by
        rw [List.length_drop, hn]
      have hcount : (n + (chunkBytes - 1)) / chunkBytes
          = (n - chunkBytes + (chunkBytes - 1)) / chunkBytes + 1 := by
        rw [← Nat.add_div_right _ hpos]
        by_cases hle : chunkBytes ≤ n
        . congr 1
          omega
        . rw [Nat.div_eq_of_lt_le (k := 1) (by omega) (by omega),
            Nat.div_eq_of_lt_le (k := 1) (by omega) (by omega)]
      rw [hcount, chunkSums_succ_eq_cons, List.map_cons, ← hdrop,
        ih _ (by omega) _ rfl]
    . next hempty =>
      have hnil : bytes = [] := by
        by_contra hne
        exact hempty ⟨hne, hpos⟩
      rw [← hn, hnil, List.length_nil, Nat.zero_add, Nat.div_eq_of_lt (by omega)]
      rfl

/-- The section with these bytes. -/
def sectionOf (kind : SectionKind) (options : KeyIndexOptions) (bytes : Bytes) : SectionFile where
  kind
  file := bytes
  len := bytes.length
  checksums := chunkSums options.checksumPolicy options.chunkBytes bytes
    ((bytes.length + (options.chunkBytes - 1)) / options.chunkBytes)

namespace SectionScratchWriter

variable {writer : SectionScratchWriter} {options : KeyIndexOptions} {bytes : Bytes}

/-- The bytes after the full chunks. -/
def openChunk (writer : SectionScratchWriter) (bytes : Bytes) : Bytes :=
  bytes.drop (bytes.length - writer.chunkLen)

/--
The writer has been given these bytes: the checksums of all full chunks are complete, and the one of
the last chunk is under way.
-/
structure Holds (writer : SectionScratchWriter) (options : KeyIndexOptions) (bytes : Bytes)
    : Prop where
  contents : writer.inner.contents = bytes
  chunkBytes_eq : writer.chunkBytes = options.chunkBytes
  len : writer.len = bytes.length
  chunkLen_lt : writer.chunkLen < options.chunkBytes
  checksum : writer.checksum =
    if options.checksumPolicy = .verify then
      some (adlerBlocks newAdler32 (writer.openChunk bytes))
    else
      none
  full : ∃ count, bytes.length = count * options.chunkBytes + writer.chunkLen
    ∧ writer.checksums = chunkSums options.checksumPolicy options.chunkBytes bytes count

theorem holds_new (h : 0 < options.chunkBytes) (bufferBytes : Nat)
    : (new [] bufferBytes options.chunkBytes options.checksumPolicy).Holds options [] where
  contents := BufferedScratchWriter.contents_new [] bufferBytes
  chunkBytes_eq := rfl
  len := rfl
  chunkLen_lt := h
  checksum := by
    rw [new, openChunk, List.drop_nil, adlerBlocks]
    rfl
  full := ⟨0, by rw [Nat.zero_mul]; rfl, rfl⟩

/-- The checksum of a chunk that is closed. -/
theorem Holds.getD_checksum (h : writer.Holds options bytes)
    : (writer.checksum.map finishAdler32).getD 0
        = chunkSum options.checksumPolicy (writer.openChunk bytes) := by
  rw [h.checksum, chunkSum]
  split
  . rfl
  . rfl

/-- The chunk under way, when all before it are full. -/
theorem openChunk_eq {count : Nat} (hlen : bytes.length = count * options.chunkBytes + writer.chunkLen)
    (hle : writer.chunkLen ≤ options.chunkBytes)
    : writer.openChunk bytes = chunkOf options.chunkBytes bytes count := by
  rw [openChunk, chunkOf, List.take_of_length_le (by rw [List.length_drop]; omega)]
  congr 1
  omega

/-- Appending bytes that do not go beyond the chunk under way. -/
theorem Holds.append (h : writer.Holds options bytes) {inner : BufferedScratchWriter} {more : Bytes}
    (hinner : inner.contents = writer.inner.contents ++ more)
    (hle : writer.chunkLen + more.length ≤ options.chunkBytes)
    {next : SectionScratchWriter}
    (hnext : next = { writer with
      inner
      checksum := writer.checksum.map (adlerBlocks · more)
      chunkLen := writer.chunkLen + more.length
      len := writer.len + more.length })
    : (if next.chunkLen = next.chunkBytes then next.finishChunk else next).Holds options
        (bytes ++ more) := by
  obtain ⟨count, hlen, hchecksums⟩ := h.full
  have hlen' : (bytes ++ more).length = count * options.chunkBytes + next.chunkLen := by
    rw [List.length_append, hlen, hnext, Nat.add_assoc]
  have hopen : next.openChunk (bytes ++ more) = writer.openChunk bytes ++ more := by
    have hnextLen : next.chunkLen = writer.chunkLen + more.length := by rw [hnext]
    rw [openChunk, openChunk, hnextLen, List.length_append, Nat.add_sub_add_right,
      List.drop_append_of_le_length (Nat.sub_le _ _)]
  have hchecksum : next.checksum =
      if options.checksumPolicy = .verify then
        some (adlerBlocks newAdler32 (next.openChunk (bytes ++ more)))
      else
        none := by
    rw [hnext] at hopen ⊢
    dsimp only
    rw [hopen, h.checksum]
    split
    . rw [Option.map_some, adlerBlocks_append rfl]
    . rfl
  have hsums : next.checksums
      = chunkSums options.checksumPolicy options.chunkBytes (bytes ++ more) count := by
    rw [hnext, chunkSums_append (by omega)]
    exact hchecksums
  have hcontents : next.inner.contents = bytes ++ more := by
    rw [hnext, ← h.contents]
    exact hinner
  have hnextLen : next.len = (bytes ++ more).length := by
    rw [hnext, List.length_append, ← h.len]
  have hchunk : next.chunkBytes = options.chunkBytes := by
    rw [hnext]
    exact h.chunkBytes_eq
  have hnextChunkLen : next.chunkLen ≤ options.chunkBytes := by
    rw [hnext]
    exact hle
  have hpos : 0 < options.chunkBytes := Nat.zero_lt_of_lt h.chunkLen_lt
  split
  . next hclosed =>
    rw [hchunk] at hclosed
    refine ⟨hcontents, hchunk, hnextLen, hpos, ?_, count + 1, ?_, ?_⟩
    . have hnil : next.finishChunk.openChunk (bytes ++ more) = [] := List.drop_length
      rw [hnil, adlerBlocks, finishChunk, hchecksum]
      split
      . rfl
      . rfl
    . rw [hlen', hclosed, Nat.succ_mul]
      rfl
    . rw [chunkSums_succ, ← @openChunk_eq next _ _ _ hlen' hnextChunkLen, ← hsums]
      change next.checksums ++ [_] = _
      congr 2
      rw [hchecksum, chunkSum]
      split
      . rfl
      . rfl
  . next hopenChunk =>
    rw [hchunk] at hopenChunk
    exact ⟨hcontents, hchunk, hnextLen, by omega, hchecksum, count, hlen', hsums⟩

theorem writeAll_gives (hI : LogInvariant I) (h : writer.Holds options bytes) (input : Bytes)
    : Gives w I (writer.writeAll input) (fun next => next.Holds options (bytes ++ input)) := by
  induction hn : input.length using Nat.strongRecOn generalizing writer bytes input with
  | ind n ih =>
    unfold writeAll
    split
    . next hne =>
      have hpos : input.length ≠ 0 := by simpa using hne.1
      have hlt := h.chunkLen_lt
      rw [← h.chunkBytes_eq] at hlt
      have hcount : (input.take (min (writer.chunkBytes - writer.chunkLen) input.length)).length
          = min (writer.chunkBytes - writer.chunkLen) input.length := by
        rw [List.length_take]
        omega
      generalize hcount' : min (writer.chunkBytes - writer.chunkLen) input.length = count
        at hcount ⊢
      dsimp only
      apply Gives.bind (BufferedScratchWriter.writeAll_gives hI writer.inner (input.take count))
      intro inner hinner
      apply Gives.liftM_bind
      intro len hlen
      rw [okOr_eq_ok, checkedAdd_eq_some] at hlen
      obtain ⟨rfl, -⟩ := hlen
      have hnext := h.append hinner (by rw [← h.chunkBytes_eq]; omega) rfl
      rw [hcount] at hnext
      apply (ih _ (by rw [List.length_drop]; omega) hnext _ rfl).mono
      intro last hlast
      rwa [List.append_assoc, List.take_append_drop] at hlast
    . next hempty =>
      have hlt := h.chunkLen_lt
      rw [← h.chunkBytes_eq] at hlt
      have hnil : input = [] := by
        by_contra hne
        exact hempty ⟨hne, hlt⟩
      apply Gives.pure
      rw [hnil, List.append_nil]
      exact h

theorem intoSection_gives (hI : LogInvariant I) (h : writer.Holds options bytes)
    (kind : SectionKind)
    : Gives w I (writer.intoSection kind) (· = sectionOf kind options bytes) := by
  obtain ⟨count, hlen, hchecksums⟩ := h.full
  have hlt := h.chunkLen_lt
  have hinner : (if writer.chunkLen ≠ 0 then writer.finishChunk else writer).inner = writer.inner := by
    split <;> rfl
  have hwriterLen : (if writer.chunkLen ≠ 0 then writer.finishChunk else writer).len
      = bytes.length := by
    rw [← h.len]
    split <;> rfl
  have hsums : (if writer.chunkLen ≠ 0 then writer.finishChunk else writer).checksums
      = chunkSums options.checksumPolicy options.chunkBytes bytes
        ((bytes.length + (options.chunkBytes - 1)) / options.chunkBytes) := by
    rw [hlen, Nat.add_assoc, Nat.mul_comm, Nat.mul_add_div (by omega)]
    split
    . next hopen =>
      have hone : (writer.chunkLen + (options.chunkBytes - 1)) / options.chunkBytes = 1 :=
        Nat.div_eq_of_lt_le (by omega) (by omega)
      rw [hone, chunkSums_succ, ← hchecksums, ← openChunk_eq hlen (Nat.le_of_lt hlt),
        ← h.getD_checksum]
      rfl
    . next hclosed =>
      have hzero : (writer.chunkLen + (options.chunkBytes - 1)) / options.chunkBytes = 0 :=
        Nat.div_eq_of_lt (by omega)
      rw [hzero]
      exact hchecksums
  unfold intoSection
  dsimp only
  generalize (if writer.chunkLen ≠ 0 then writer.finishChunk else writer) = closed
    at hinner hwriterLen hsums ⊢
  rw [hinner]
  apply Gives.bind (BufferedScratchWriter.intoFile_gives hI writer.inner)
  rintro _ rfl
  apply Gives.liftM_bind
  intro _ _
  apply Gives.pure
  rw [sectionOf, hsums, hwriterLen, h.contents]

/-- Chunks are never over-full, so no round subtracts too much or takes nothing. -/
theorem writeRounds_eq {rounds : Nat} {input : Bytes} (hlt : writer.chunkLen < writer.chunkBytes)
    (hle : input.length ≤ rounds)
    : writer.writeRounds rounds input = writer.writeAll input := by
  induction rounds generalizing writer input with
  | zero =>
    have hnil : input = [] := List.length_eq_zero_iff.mp (Nat.le_zero.mp hle)
    have hempty : ¬(input ≠ [] ∧ writer.chunkLen < writer.chunkBytes) := fun h => h.1 hnil
    rw [writeRounds, writeAll, if_pos hnil, dif_neg hempty]
  | succ rounds ih =>
    rw [writeRounds, writeAll]
    by_cases hnil : input = []
    . have hempty : ¬(input ≠ [] ∧ writer.chunkLen < writer.chunkBytes) := fun h => h.1 hnil
      rw [if_pos hnil, dif_neg hempty]
    . have hpos : input.length ≠ 0 := by simpa using hnil
      have hsub : checkedSub writer.chunkBytes writer.chunkLen
          = some (writer.chunkBytes - writer.chunkLen) := if_pos (Nat.le_of_lt hlt)
      rw [if_neg hnil, dif_pos ⟨hnil, hlt⟩, hsub, okOr_some, Prog.ok_bind]
      dsimp only
      rw [BufferedScratchWriter.writeRounds_eq (Nat.le_refl _)]
      congr 1
      funext inner
      congr 1
      funext len
      apply ih
      . split
        . exact Nat.zero_lt_of_lt hlt
        . next hopen =>
          dsimp only at hopen ⊢
          omega
      . rw [List.length_drop]
        omega

theorem writeAll_ready (hI : LogInvariant I) (h : writer.inner.Ready) (input : Bytes)
    : Ensures w I (writer.writeAll input) (fun next => next.inner.Ready)
        (fun e => Interrupted w e ∨ e = .io ∧ u64Bound ≤ writer.len + input.length) := by
  induction hn : input.length using Nat.strongRecOn generalizing writer input with
  | ind n ih =>
    unfold writeAll
    split
    . next hne =>
      have hpos : input.length ≠ 0 := by simpa using hne.1
      generalize hcount : min (writer.chunkBytes - writer.chunkLen) input.length = count
      dsimp only
      apply Ensures.bind
        ((BufferedScratchWriter.writeAll_ready hI h _).mono (fun _ hnext => hnext)
          fun e he => .inl he)
      intro inner hinner
      apply Ensures.liftM_bind
      . intro e he
        rw [okOr_eq_error, checkedAdd_eq_none] at he
        exact .inr ⟨he.2.symm, by omega⟩
      intro len hlen
      rw [okOr_eq_ok, checkedAdd_eq_some] at hlen
      obtain ⟨rfl, -⟩ := hlen
      have hnext (next : SectionScratchWriter) (hlen : next.len = writer.len + count)
          (hinner : next.inner.Ready)
          : Ensures w I (next.writeAll (input.drop count)) (fun last => last.inner.Ready)
              (fun e => Interrupted w e ∨ e = .io ∧ u64Bound ≤ writer.len + n) := by
        refine (ih _ ?_ hinner _ rfl).mono (fun _ hlast => hlast) ?_
        . rw [List.length_drop]
          omega
        . intro e he
          rw [hlen, List.length_drop] at he
          apply he.imp_right
          intro hover
          exact ⟨hover.1, by omega⟩
      split
      . apply hnext
        . rfl
        . exact hinner
      . apply hnext
        . rfl
        . exact hinner
    . exact .pure h

theorem intoSection_ready (hI : LogInvariant I) (h : writer.inner.Ready)
    (hlen : writer.inner.contents.length = writer.len) (kind : SectionKind)
    : Ensures w I (writer.intoSection kind) (fun _ => True) (Interrupted w) := by
  have hinner : (if writer.chunkLen ≠ 0 then writer.finishChunk else writer).inner = writer.inner := by
    split <;> rfl
  have hclosed : (if writer.chunkLen ≠ 0 then writer.finishChunk else writer).len = writer.len := by
    split <;> rfl
  unfold intoSection
  dsimp only
  generalize (if writer.chunkLen ≠ 0 then writer.finishChunk else writer) = closed
    at hinner hclosed ⊢
  rw [hinner]
  apply Ensures.bind ((BufferedScratchWriter.intoFile_gives hI writer.inner).and_ensures
    (BufferedScratchWriter.intoFile_ready hI h))
  intro file hfile
  rw [failIf_of_not (by rw [hfile.1]; omega)]
  exact .pure trivial

theorem writeU32_gives (hI : LogInvariant I) (h : writer.Holds options bytes) (value : Nat)
    : Gives w I (writer.writeU32 value) (fun next => next.Holds options (bytes ++ Bytes.ofLE 4 value)) :=
  writeAll_gives hI h _

theorem writeU64_gives (hI : LogInvariant I) (h : writer.Holds options bytes) (value : Nat)
    : Gives w I (writer.writeU64 value) (fun next => next.Holds options (bytes ++ Bytes.ofLE 8 value)) :=
  writeAll_gives hI h _

end SectionScratchWriter

end Mdict.Persistent
