import Mdict.Mdd
import Mdict.Lemmas.Locate

/-!
This module contains what visiting a span of the decoded record stream does: it goes through the
blocks that the span touches and hands out non-empty chunks that make up the span.
-/

namespace Mdict.MdictFile

open Effect

variable {file : MdictFile} {w : World} {I : Session → Prop} {p : Platform}
variable {decoded : List Bytes}

/-- All record blocks decode, to these bytes. -/
structure RecordsDecodeTo (file : MdictFile) (p : Platform) (decoded : List Bytes) : Prop where
  length_eq : decoded.length = file.layout.recordBlocks.length
  ownRecords : ∀ index data, decoded[index]? = some data → file.ownRecords p index = .ok data

namespace RecordsDecodeTo

theorem block_eq (h : file.RecordsDecodeTo p decoded) {index : Nat} {block : RecordBlockDescriptor}
    (hblock : file.layout.recordBlocks[index]? = some block)
    : ∃ data, decoded[index]? = some data ∧ file.ownRecords p index = .ok data
        ∧ data.length = block.decompSize := by
  have hlt : index < decoded.length := by
    rw [h.length_eq]
    exact (List.getElem?_eq_some_iff.mp hblock).1
  have hdata := List.getElem?_eq_getElem hlt
  have hown := h.ownRecords index _ hdata
  obtain ⟨block', hblock', hlen⟩ := file.ownRecords_eq_ok p hown
  rw [hblock, Option.some.injEq] at hblock'
  subst hblock'
  exact ⟨_, hdata, hown, hlen⟩

theorem lengths_eq (h : file.RecordsDecodeTo p decoded)
    : decoded.map List.length = file.layout.decompSizes := by
  apply List.ext_getElem?
  intro i
  rw [List.getElem?_map, ValidatedLayout.decompSizes, List.getElem?_map]
  cases hblock : file.layout.recordBlocks[i]? with
  | none =>
    rw [List.getElem?_eq_none_iff] at hblock
    rw [List.getElem?_eq_none (by rw [h.length_eq]; exact hblock)]
    rfl
  | some block =>
    obtain ⟨data, hdata, -, hlen⟩ := h.block_eq hblock
    rw [hdata, Option.map_some, Option.map_some, hlen]

theorem length_flatten (h : file.RecordsDecodeTo p decoded)
    : decoded.flatten.length = file.layout.totalDecodedRecordLen := by
  rw [List.length_flatten, h.lengths_eq, file.layoutVerified.totalDecodedRecordLen]

end RecordsDecodeTo

/-- The next chunk is a non-empty part of the stream, cut at the end of its block or the span. -/
theorem recordChunk_answers (h : file.RecordsDecodeTo p decoded) {cursor stop : Nat}
    (hcursor : cursor < stop) (hstop : stop ≤ decoded.flatten.length)
    : ∃ next, cursor < next ∧ next ≤ stop
        ∧ ∀ (w : World) (I : Session → Prop), w.platform = p → file.Invariant p I →
          Answers w I (file.recordChunk cursor stop)
            (.ok (Search.slice decoded.flatten cursor next, next)) := by
  rw [h.length_flatten] at hstop
  have hbound := file.layoutVerified.totalDecodedRecordLen_lt
  obtain ⟨i, block, hfind, hblock, hlo, hhi⟩ :=
    @ValidatedLayout.Verified.findRecordBlock_eq _ file.layoutVerified cursor (by omega)
  obtain ⟨data, hdata, hown, hlen⟩ := h.block_eq hblock
  have hstart : block.decompOffset = Search.start (decoded.map List.length) i := by
    rw [h.lengths_eq, file.layoutVerified.decompOffset i block hblock]
  have hend := file.layoutVerified.decompEnd hblock
  have hendBound := file.layoutVerified.decompStart_le (i + 1)
  refine ⟨min stop (block.decompOffset + block.decompSize), by omega, by omega, ?_⟩
  rintro w I rfl hI
  have hslice := Search.slice_flatten (a := cursor - block.decompOffset)
    (b := min stop (block.decompOffset + block.decompSize) - block.decompOffset) hdata (by omega)
  rw [← hstart, Nat.add_sub_cancel' hlo, Nat.add_sub_cancel' (by omega)] at hslice
  have hdecode := decodeRecordBlock_answers hI i
  rw [hown] at hdecode
  unfold recordChunk
  rw [hfind, okOr_some]
  apply Answers.liftM.bind_ok
  rw [hblock, okOr_some]
  apply Answers.liftM.bind_ok
  apply hdecode.bind_ok
  have hsub : checkedSub cursor block.decompOffset = some (cursor - block.decompOffset) := by
    rw [checkedSub_eq_some]
    exact ⟨hlo, rfl⟩
  have hadd : checkedAdd block.decompOffset block.decompSize
      = some (block.decompOffset + block.decompSize) := by
    rw [checkedAdd_eq_some]
    omega
  have hsub' : checkedSub (min stop (block.decompOffset + block.decompSize)) block.decompOffset
      = some (min stop (block.decompOffset + block.decompSize) - block.decompOffset) := by
    rw [checkedSub_eq_some]
    omega
  have hadd' : checkedAdd block.decompOffset
      (min stop (block.decompOffset + block.decompSize) - block.decompOffset)
        = some (min stop (block.decompOffset + block.decompSize)) := by
    rw [checkedAdd_eq_some]
    omega
  have husize (value : Nat) (context : String) (hvalue : value < u64Bound)
      : checkedUsize value context = .ok value := checkedUsize_eq_ok.mpr ⟨rfl, hvalue⟩
  rw [hsub, okOr_some]
  apply Answers.liftM.bind_ok
  rw [husize _ _ (by omega)]
  apply Answers.liftM.bind_ok
  rw [hadd, okOr_some]
  apply Answers.liftM.bind_ok
  dsimp only
  rw [hsub', okOr_some]
  apply Answers.liftM.bind_ok
  rw [husize _ _ (by omega)]
  apply Answers.liftM.bind_ok
  rw [failIf_of_not (by omega)]
  apply Answers.liftM.bind_ok
  rw [hadd', okOr_some]
  apply Answers.liftM.bind_ok
  rw [hslice]
  exact .pure

/--
Visiting a span is going through a list of non-empty chunks that make up the span, whatever the
visitor does.
-/
theorem visitRecordSpanFrom_answers (h : file.RecordsDecodeTo p decoded) {cursor stop : Nat}
    (hcursor : cursor ≤ stop) (hstop : stop ≤ decoded.flatten.length)
    : ∃ chunks : List Bytes, (∀ chunk ∈ chunks, chunk ≠ [])
        ∧ chunks.flatten = Search.slice decoded.flatten cursor stop
        ∧ ∀ (w : World) (I : Session → Prop), w.platform = p → file.Invariant p I →
          ∀ {β : Type} (visitor : β → Bytes → Exec β) (g : β → Bytes → Except Error β),
            (∀ acc, ∀ chunk ∈ chunks, Answers w I (visitor acc chunk) (g acc chunk)) → ∀ acc,
              Answers w I (file.visitRecordSpanFrom stop visitor cursor acc)
                (chunks.foldlM g acc) := by
  induction hn : stop - cursor using Nat.strongRecOn generalizing cursor with
  | ind n ih =>
    by_cases hlt : cursor < stop
    . obtain ⟨next, hnext, hnext', hchunk⟩ := recordChunk_answers h hlt hstop
      obtain ⟨chunks, hne, hflatten, hvisit⟩ := ih (stop - next) (by omega) hnext' rfl
      refine ⟨Search.slice decoded.flatten cursor next :: chunks, ?_, ?_, ?_⟩
      . intro chunk hmem
        rw [List.mem_cons] at hmem
        rcases hmem with rfl | hmem
        . rw [← List.length_pos_iff, Search.length_slice (by omega)]
          omega
        . exact hne chunk hmem
      . rw [List.flatten_cons, hflatten, Search.slice_append_slice (by omega) hnext']
      . intro w I hw hI β visitor g hvisitor acc
        unfold visitRecordSpanFrom
        rw [if_pos hlt, List.foldlM_cons]
        apply (hchunk w I hw hI).bind_ok
        apply (hvisitor acc _ List.mem_cons_self).bind
        intro acc _
        rw [if_neg (by omega)]
        exact hvisit w I hw hI visitor g
          (fun acc chunk hmem => hvisitor acc chunk (List.mem_cons_of_mem _ hmem)) acc
    . have heq : cursor = stop := by omega
      subst heq
      refine ⟨[], by simp, by rw [Search.slice_self]; rfl, ?_⟩
      intro w I _ _ β visitor g _ acc
      unfold visitRecordSpanFrom
      rw [if_neg (by omega)]
      exact .pure

/-- The same with the check of the span in front. -/
theorem visitRecordSpan_answers (h : file.RecordsDecodeTo p decoded) {start stop : Nat}
    (hle : start ≤ stop) (hstop : stop ≤ decoded.flatten.length)
    : ∃ chunks : List Bytes, (∀ chunk ∈ chunks, chunk ≠ [])
        ∧ chunks.flatten = Search.slice decoded.flatten start stop
        ∧ ∀ (w : World) (I : Session → Prop), w.platform = p → file.Invariant p I →
          ∀ {β : Type} (visitor : β → Bytes → Exec β) (g : β → Bytes → Except Error β),
            (∀ acc, ∀ chunk ∈ chunks, Answers w I (visitor acc chunk) (g acc chunk)) → ∀ acc,
              Answers w I (file.visitRecordSpan start stop visitor acc) (chunks.foldlM g acc) := by
  obtain ⟨chunks, hne, hflatten, hvisit⟩ := visitRecordSpanFrom_answers h hle hstop
  refine ⟨chunks, hne, hflatten, ?_⟩
  intro w I hw hI β visitor g hvisitor acc
  rw [h.length_flatten] at hstop
  have hvalid : file.validateRecordSpan start stop = .ok (stop - start) := by
    rw [validateRecordSpan, failIf_of_not (by omega), failIf_of_not (by omega), checkedSub,
      if_pos hle]
    rfl
  rw [visitRecordSpan, hvalid]
  apply Answers.liftM.bind_ok
  exact hvisit w I hw hI visitor g hvisitor acc

theorem foldl_append (chunks : List Bytes) (output : Bytes)
    : chunks.foldl (· ++ ·) output = output ++ chunks.flatten := by
  induction chunks generalizing output with
  | nil => simp
  | cons chunk chunks ih => rw [List.foldl_cons, ih, List.flatten_cons, List.append_assoc]

/-- Reading a span within the limit gives its bytes. -/
theorem readRecordSpan_answers (hI : file.Invariant w.platform I)
    (h : file.RecordsDecodeTo w.platform decoded) {start stop : Nat} (hle : start ≤ stop)
    (hstop : stop ≤ decoded.flatten.length)
    (hlimit : stop - start ≤ file.limits.materializedRecordBytes)
    : Answers w I (file.readRecordSpan start stop)
        (.ok (Search.slice decoded.flatten start stop)) := by
  obtain ⟨chunks, -, hflatten, hvisit⟩ := visitRecordSpan_answers h hle hstop
  have hrun := hvisit w I rfl hI (fun output chunk => return output ++ chunk)
    (fun output chunk => .ok (output ++ chunk)) (fun _ _ _ => .pure) []
  rw [foldlM_ok, foldl_append, List.nil_append, hflatten] at hrun
  rw [h.length_flatten] at hstop
  have hbound := file.layoutVerified.totalDecodedRecordLen_lt
  have hlen : file.materializedRecordSpanLen start stop = .ok (stop - start) := by
    rw [materializedRecordSpanLen, validateRecordSpan, failIf_of_not (by omega),
      failIf_of_not (by omega), checkedSub, if_pos hle]
    change (ensureLimit _ _ _ >>= fun _ => _) = _
    rw [show ensureLimit "materialized_record_bytes" (stop - start)
        file.limits.materializedRecordBytes = .ok () from failIf_of_not (by omega),
      except_ok_bind, if_pos (by omega)]
    rfl
  rw [readRecordSpan, hlen]
  exact Answers.liftM.bind_ok (.reserve_bind hI.events hrun)

/-- Copying a resource writes its bytes and counts them. -/
theorem copyTo_answers {span : MddResourceSpan} (hI : span.source.Invariant w.platform I)
    (h : span.source.RecordsDecodeTo w.platform decoded) (hle : span.start ≤ span.stop)
    (hstop : span.stop ≤ decoded.flatten.length) (destination : Bytes)
    : Answers w I (span.copyTo destination)
        (.ok (span.stop - span.start,
          destination ++ Search.slice decoded.flatten span.start span.stop)) := by
  obtain ⟨chunks, -, hflatten, hvisit⟩ := visitRecordSpan_answers h hle hstop
  have hrun := hvisit w I rfl hI
    (fun (state : Nat × Bytes) chunk => do
      Exec.log (.write chunk.length)
      Exec.io
      let written ← okOr (checkedAdd state.1 chunk.length)
        (.invalidFormat "resource write length overflow")
      return (written, state.2 ++ chunk))
    (fun (state : Nat × Bytes) chunk => do
      let written ← okOr (checkedAdd state.1 chunk.length)
        (.invalidFormat "resource write length overflow")
      return (written, state.2 ++ chunk))
    (by
      rintro ⟨written, destination⟩ chunk -
      apply (Answers.of_yields Yields.log rfl hI.events).bind_ok
      apply (Answers.of_yields Yields.io rfl hI.events).bind_ok
      exact Answers.liftM.bind fun _ _ => .pure) (0, destination)
  have hbound := span.source.layoutVerified.totalDecodedRecordLen_lt
  have hfold (chunks : List Bytes) (written : Nat) (destination : Bytes)
      (hlt : written + chunks.flatten.length < u64Bound)
      : chunks.foldlM (fun (state : Nat × Bytes) chunk => do
            let written ← okOr (checkedAdd state.1 chunk.length)
              (.invalidFormat "resource write length overflow")
            return (written, state.2 ++ chunk)) (written, destination)
          = (.ok (written + chunks.flatten.length, destination ++ chunks.flatten)
            : Except Error (Nat × Bytes)) := by
    induction chunks generalizing written destination with
    | nil => simp; rfl
    | cons chunk chunks ih =>
      rw [List.flatten_cons, List.length_append] at hlt
      have hadd : checkedAdd written chunk.length = some (written + chunk.length) := by
        rw [checkedAdd_eq_some]
        omega
      rw [List.foldlM_cons, hadd, okOr_some]
      change List.foldlM _ (written + chunk.length, destination ++ chunk) chunks = _
      rw [ih _ _ (by omega), List.flatten_cons, List.length_append, List.append_assoc,
        Nat.add_assoc]
  rw [hfold chunks 0 destination (by
    rw [hflatten, Search.length_slice hstop]
    rw [h.length_flatten] at hstop
    omega)] at hrun
  rw [hflatten, Search.length_slice hstop, Nat.zero_add] at hrun
  exact hrun

end Mdict.MdictFile
