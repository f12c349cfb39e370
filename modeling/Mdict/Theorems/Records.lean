import Mdict.Lemmas.Records
import Mdict.Lemmas.Sample

/-!
This module contains the correctness of reading records, after any history of calls on the
dictionary.
-/

namespace Mdict

open Effect MdictFile

variable {w : World} {index : Option PersistentKeyIndex} {s : Session} {file : MdictFile}

/-- An answer, after any history: it comes, unless the world fails a call. -/
theorem Reachable.answer {α : Type} {x : Exec α} {r : Except Error α}
    (h : Reachable file (·.platform = w.platform) index s)
    (hx : ∀ I, file.Invariant w.platform I → Answers w I x r)
    : (w.Quiet → ∃ s', x w s = (r, s'))
        ∧ ∀ e, (x w s).1 = .error e → e.isTransient ∨ r = .error e := by
  have hsound := (h.allSound fun _ hw => hw).1
  have hrun := hx _ (@file_invariant_allSound _ index _)
  constructor
  . intro hw
    obtain ⟨s', hs', -⟩ := hrun.quiet hw hsound
    exact ⟨s', hs'⟩
  . intro e he
    exact (hrun.outcome hsound).2.2 e he |>.imp_left (·.1)

/-- The errors of a traversal that contradict the layout of the record blocks. -/
def traversalErrors : List Error :=
  [ .invalidFormat "record offset not covered by record blocks",
    .invalidFormat "record block slice is out of range",
    .invalidFormat "record traversal made no progress" ]

theorem not_mem_traversalErrors {e : Error} (h : e.isTransient) : e ∉ traversalErrors := by
  intro hmem
  simp only [traversalErrors, List.mem_cons, List.not_mem_nil, or_false] at hmem
  rcases hmem with rfl | rfl | rfl <;> contradiction

/-- A record past the limit is not read at all. -/
theorem materializedRecordSpanLen_of_lt {start stop : Nat} (hle : start ≤ stop)
    (hstop : stop ≤ file.layout.totalDecodedRecordLen)
    (hlimit : file.limits.materializedRecordBytes < stop - start)
    : file.materializedRecordSpanLen start stop
        = .error (.limitExceeded "materialized_record_bytes" (stop - start)
            file.limits.materializedRecordBytes) := by
  rw [materializedRecordSpanLen, validateRecordSpan, failIf_of_not (by omega),
    failIf_of_not (by omega), checkedSub, if_pos hle]
  change (ensureLimit _ _ _ >>= fun _ => _) = _
  rw [ensureLimit, failIf, if_pos (by omega)]
  rfl

/--
When the record blocks decode, every span of the record stream is delivered: in non-empty chunks to
a visitor, as a whole within the limit, and to a destination. In no world does a traversal fail
with an error of its own.
-/
theorem recordSpan_delivered {decoded : List Bytes} {start stop : Nat}
    (h : Reachable file (·.platform = w.platform) index s)
    (hdecoded : file.RecordsDecodeTo w.platform decoded) (hle : start ≤ stop)
    (hstop : stop ≤ decoded.flatten.length)
    : let content := Search.slice decoded.flatten start stop
      let visit := file.visitRecordSpan start stop (fun seen chunk => return seen ++ [chunk]) []
      let read := file.readRecordSpan start stop
      (w.Quiet → ∃ chunks s', visit w s = (.ok chunks, s') ∧ chunks.flatten = content
          ∧ ∀ chunk ∈ chunks, chunk ≠ [])
      ∧ (w.Quiet → stop - start ≤ file.limits.materializedRecordBytes →
          ∃ s', read w s = (.ok content, s'))
      ∧ (∀ (span : MddResourceSpan) (destination : Bytes), span.source = file →
          span.start = start → span.stop = stop →
            (w.Quiet → ∃ s',
              span.copyTo destination w s = (.ok (stop - start, destination ++ content), s'))
            ∧ ∀ e ∈ traversalErrors, (span.copyTo destination w s).1 ≠ .error e)
      ∧ ∀ e ∈ traversalErrors, (visit w s).1 ≠ .error e ∧ (read w s).1 ≠ .error e := by
  obtain ⟨chunks, hne, hflatten, hvisit⟩ := visitRecordSpan_answers hdecoded hle hstop
  have hcollect (xs seen : List Bytes)
      : xs.foldlM (fun seen chunk => (.ok (seen ++ [chunk]) : Except Error (List Bytes))) seen
        = .ok (seen ++ xs) := by
    rw [foldlM_ok]
    congr 1
    induction xs generalizing seen with
    | nil => simp
    | cons x xs ih => simp [ih]
  have hvisited : ∀ I, file.Invariant w.platform I → Answers w I
      (file.visitRecordSpan start stop (fun seen chunk => return seen ++ [chunk]) [])
      (.ok chunks) := by
    intro I hI
    have hrun := hvisit w I rfl hI (fun seen chunk => return seen ++ [chunk])
      (fun seen chunk => .ok (seen ++ [chunk])) (fun _ _ _ => .pure) []
    rwa [hcollect, List.nil_append] at hrun
  obtain ⟨hquiet, herror⟩ := h.answer hvisited
  refine ⟨?_, ?_, ?_, ?_⟩
  . intro hw
    obtain ⟨s', hs'⟩ := hquiet hw
    exact ⟨chunks, s', hs', hflatten, hne⟩
  . intro hw hlimit
    exact (h.answer fun I hI => readRecordSpan_answers hI hdecoded hle hstop hlimit).1 hw
  . rintro span destination rfl rfl rfl
    obtain ⟨hcopied, hfails⟩ := h.answer fun I hI => copyTo_answers hI hdecoded hle hstop destination
    refine ⟨hcopied, ?_⟩
    intro e he hrun
    rcases hfails e hrun with htransient | hr
    . exact not_mem_traversalErrors htransient he
    . contradiction
  . intro e he
    constructor
    . intro hrun
      rcases herror e hrun with htransient | hr
      . exact not_mem_traversalErrors htransient he
      . contradiction
    . intro hrun
      by_cases hlimit : stop - start ≤ file.limits.materializedRecordBytes
      . rcases (h.answer fun I hI =>
          readRecordSpan_answers hI hdecoded hle hstop hlimit).2 e hrun with htransient | hr
        . exact not_mem_traversalErrors htransient he
        . contradiction
      . have hlen := @materializedRecordSpanLen_of_lt file _ _ hle
          (by rw [← hdecoded.length_flatten]; exact hstop) (by omega)
        rw [readRecordSpan, hlen, Prog.error_bind_apply] at hrun
        cases hrun
        simp [traversalErrors] at he

/-- Every span of the sample dictionary is delivered. -/
theorem recordSpan_delivered_sample
    : ∃ s', Sample.file.readRecordSpan 2 5 Sample.world .fresh = (.ok [3, 4, 5], s') :=
  (@recordSpan_delivered _ _ _ _ _ 2 5 Sample.reachable Sample.recordsDecodeTo (by decide)
    (by decide)).2.1 Sample.quiet (by decide)

/--
In a dictionary that decodes, the descriptors of the ordinals tile the record stream from the
first start to its end: each record ends where the next one starts. They come after any history,
and no check of a span refuses one of them.
-/
theorem recordAtOrdinal_tiles {p : Platform} {blocks : List (List DecodedKeyRow)}
    (h : file.DecodesTo p blocks)
    : ∃ descriptors : List RecordDescriptor, descriptors.length = file.len
      ∧ (∀ (w : World) (index : Option PersistentKeyIndex) (s : Session) (ordinal : Nat),
          w.platform = p → Reachable file (·.platform = p) index s →
            (w.Quiet → ∃ s', file.recordAtOrdinal ordinal w s = (.ok descriptors[ordinal]?, s'))
            ∧ ∀ e, (file.recordAtOrdinal ordinal w s).1 = .error e → e.isTransient)
      ∧ (∀ (i : Nat) (d : RecordDescriptor), descriptors[i]? = some d →
          d.key.ordinal = i ∧ d.start ≤ d.stop
            ∧ file.validateRecordSpan d.start d.stop = .ok (d.stop - d.start))
      ∧ (∀ (i : Nat) (d next : RecordDescriptor), descriptors[i]? = some d →
          descriptors[i + 1]? = some next → d.stop = next.start)
      ∧ (∀ last : RecordDescriptor, descriptors.getLast? = some last →
          last.stop = file.layout.totalDecodedRecordLen)
      ∧ ∀ (stream : Bytes) (first : RecordDescriptor),
          stream.length = file.layout.totalDecodedRecordLen → descriptors.head? = some first →
            (descriptors.map fun d => Search.slice stream d.start d.stop).flatten
              = stream.drop first.start := by
  refine ⟨descriptorsOf file.layout.totalDecodedRecordLen blocks.flatten, ?_, ?_, ?_, ?_, ?_, ?_⟩
  . rw [length_descriptorsOf, h.length_flatten]
  . rintro w index s ordinal rfl hs
    obtain ⟨hquiet, herror⟩ := hs.answer fun I hI => recordAtOrdinal_answers hI h ordinal
    refine ⟨hquiet, ?_⟩
    intro e he
    rcases herror e he with htransient | hr
    . exact htransient
    . contradiction
  . intro i d hd
    obtain ⟨row, hrow, rfl⟩ := descriptorsOf_eq_some hd
    obtain ⟨hle, hle'⟩ := le_stopOf h.startsFrom hrow
    refine ⟨rfl, hle, ?_⟩
    dsimp only
    rw [validateRecordSpan, failIf_of_not (by omega), failIf_of_not (by omega), checkedSub,
      if_pos hle]
    rfl
  . exact fun i d next hd hnext => stop_eq_start hd hnext
  . exact fun last hlast => stop_eq_total hlast
  . exact fun stream first hstream hfirst => flatten_descriptorsOf h.startsFrom hstream hfirst

/-- The second record of the sample dictionary is one of its three descriptors. -/
theorem recordAtOrdinal_tiles_sample
    : ∃ descriptors : List RecordDescriptor, descriptors.length = 3
      ∧ ∃ s', Sample.file.recordAtOrdinal 1 Sample.world .fresh = (.ok descriptors[1]?, s') := by
  obtain ⟨descriptors, hlen, hanswer, -⟩ := recordAtOrdinal_tiles Sample.decodesTo
  exact ⟨descriptors, hlen, (hanswer _ _ _ 1 rfl Sample.reachable).1 Sample.quiet⟩

end Mdict
