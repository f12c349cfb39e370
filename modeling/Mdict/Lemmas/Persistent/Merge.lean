import Mdict.Lemmas.Persistent.Runs

/-!
This module contains the merge of the sorted runs of a build: however the records are split into
runs and however many runs are merged at once, the order section lists all of them in order.
-/

namespace Mdict.Persistent

open Effect

variable {w : World} {I : Session → Prop}

/-! ## The heap -/

namespace HeapRecord

variable {left right : HeapRecord}

theorem isLE_compare
    : (left.compare right).isLE
        ↔ left.record.normalized < right.record.normalized
          ∨ left.record.normalized = right.record.normalized
            ∧ (left.record.ordinal < right.record.ordinal
              ∨ left.record.ordinal = right.record.ordinal ∧ left.run ≤ right.run) := by
  rw [compare, Ordering.then_assoc, SortedIndex.isLE_then, SortedIndex.isLE_then,
    SortedIndex.isLE_compare_nat]

theorem record_le (h : (left.compare right).isLE) : left.record ≤ right.record := by
  rw [RunRecord.le_iff]
  rw [isLE_compare] at h
  rcases h with h | ⟨heq, h⟩
  . exact .inl h
  . exact .inr ⟨heq, by omega⟩

theorem record_le_of_not (h : ¬(left.compare right).isLE) : right.record ≤ left.record := by
  rw [RunRecord.le_iff]
  rw [isLE_compare, not_or, not_and, not_or] at h
  rcases lt_trichotomy left.record.normalized right.record.normalized with hlt | heq | hgt
  . exact absurd hlt h.1
  . have := h.2 heq
    exact .inr ⟨heq.symm, by omega⟩
  . exact .inl hgt

/-- The record with the number of its run. -/
def item (record : HeapRecord) : RunRecord × Nat := (record.record, record.run)

end HeapRecord

theorem popHeap_eq_none {heap : List HeapRecord} (h : popHeap heap = none) : heap = [] := by
  cases heap with
  | nil => rfl
  | cons record heap =>
    unfold popHeap at h
    split at h
    . contradiction
    . split at h <;> contradiction

/-- What is popped is in the heap, and nothing else that is there comes before it. -/
theorem popHeap_eq_some {heap rest : List HeapRecord} {least : HeapRecord}
    (h : popHeap heap = some (least, rest))
    : heap.Perm (least :: rest) ∧ ∀ other ∈ rest, least.record ≤ other.record := by
  induction heap generalizing least rest with
  | nil => contradiction
  | cons record heap ih =>
    unfold popHeap at h
    cases hpop : popHeap heap with
    | none =>
      rw [hpop] at h
      cases h
      rw [popHeap_eq_none hpop]
      exact ⟨List.Perm.refl _, fun _ h => by contradiction⟩
    | some popped =>
      obtain ⟨least', rest'⟩ := popped
      obtain ⟨hperm, hle⟩ := ih hpop
      rw [hpop] at h
      dsimp only at h
      split at h
      . next hfirst =>
        cases h
        refine ⟨List.Perm.refl _, ?_⟩
        intro other hother
        rcases List.mem_cons.mp (hperm.mem_iff.mp hother) with rfl | hother
        . exact HeapRecord.record_le hfirst
        . exact (HeapRecord.record_le hfirst).trans (hle other hother)
      . next hlater =>
        cases h
        refine ⟨(hperm.cons record).trans (List.Perm.swap _ _ _), ?_⟩
        intro other hother
        rcases List.mem_cons.mp hother with rfl | hother
        . exact HeapRecord.record_le_of_not hlater
        . exact hle other hother

/-! ## The output -/

namespace MergeOutput

variable {output : MergeOutput} {options : KeyIndexOptions} {bytes : Bytes}

/-- The output has been given these bytes. -/
def Holds (output : MergeOutput) (options : KeyIndexOptions) (bytes : Bytes) : Prop :=
  match output with
  | runs writer => writer.contents = bytes
  | order writer => writer.Holds options bytes

theorem writeAll_gives (hI : LogInvariant I) (h : output.Holds options bytes) (input : Bytes)
    : Gives w I (output.writeAll input) (fun next => next.Holds options (bytes ++ input)) := by
  cases output with
  | runs writer =>
    apply Gives.bind (BufferedScratchWriter.writeAll_gives hI writer input)
    intro next hnext
    apply Gives.pure
    exact hnext.trans (congrArg (· ++ input) h)
  | order writer =>
    apply Gives.bind (SectionScratchWriter.writeAll_gives hI h input)
    intro next hnext
    exact .pure hnext

/-- The bytes that some merged records amount to. -/
def mergedBytes (finalPass : Bool) (records : List RunRecord) : Bytes :=
  if finalPass then orderBytes records else bodyBytes records

theorem mergedBytes_nil (finalPass : Bool) : mergedBytes finalPass [] = [] := by
  cases finalPass <;> rfl

theorem mergedBytes_concat (finalPass : Bool) (records : List RunRecord) (record : RunRecord)
    : mergedBytes finalPass (records ++ [record])
        = mergedBytes finalPass records
          ++ if finalPass then Bytes.ofLE 4 record.ordinal else record.bytes := by
  cases finalPass with
  | true => simp only [mergedBytes, if_true, orderBytes, List.flatMap_append, List.flatMap_singleton]
  | false =>
    simp only [mergedBytes, Bool.false_eq_true, if_false, bodyBytes, List.flatMap_append,
      List.flatMap_singleton]

theorem writeRecord_gives (hI : LogInvariant I) (h : output.Holds options bytes) (finalPass : Bool)
    (record : RunRecord)
    : Gives w I (output.writeRecord finalPass record)
        (fun next => next.Holds options
          (bytes ++ if finalPass then Bytes.ofLE 4 record.ordinal else record.bytes)) := by
  unfold writeRecord
  cases finalPass with
  | true => exact writeAll_gives hI h _
  | false =>
    apply Gives.bind (writeAll_gives hI h _)
    intro next₁ h₁
    apply Gives.bind (writeAll_gives hI h₁ _)
    intro next₂ h₂
    apply (writeAll_gives hI h₂ _).mono
    intro next₃ h₃
    rw [if_neg Bool.false_ne_true, RunRecord.bytes, ← List.append_assoc, ← List.append_assoc]
    exact h₃

end MergeOutput

/-! ## The runs of a group -/

/-- The cursor is at the first of these records, which are all that is left of its run. -/
structure RunCursor.AtRun (cursor : RunCursor) (file : Bytes) (records : List RunRecord) : Prop where
  reads : cursor.Reads file records
  remaining : cursor.remaining = records.length

/-- Counting the records that are left. -/
theorem RunCursor.Reads.atRun {cursor : RunCursor} {file : Bytes} {records : List RunRecord}
    (h : cursor.Reads file records)
    : ({ cursor with remaining := records.length } : RunCursor).AtRun file records where
  reads := {
    stands := ⟨h.stands.stop_le, h.stands.cursor_le, h.stands.capacity_pos, h.stands.position_le,
      h.stands.ahead_isPrefix⟩
    left_eq := h.left_eq
    fits := h.fits
  }
  remaining := rfl

/-- The cursors of several runs, each with the records that are left. -/
structure AtRuns (file : Bytes) (cursors : List RunCursor) (rests : List (List RunRecord))
    : Prop where
  length_eq : cursors.length = rests.length
  atRun : ∀ (run : Nat) (cursor : RunCursor) (rest : List RunRecord),
    cursors[run]? = some cursor → rests[run]? = some rest → cursor.AtRun file rest

namespace AtRuns

variable {file : Bytes} {cursors : List RunCursor} {rests : List (List RunRecord)}

theorem concat (h : AtRuns file cursors rests) {cursor : RunCursor} {records : List RunRecord}
    (hcursor : cursor.AtRun file records)
    : AtRuns file (cursors ++ [cursor]) (rests ++ [records]) where
  length_eq := by
    rw [List.length_append, List.length_append, h.length_eq]
    rfl
  atRun := by
    intro run other rest hother hrest
    by_cases hlt : run < cursors.length
    . rw [List.getElem?_append_left hlt] at hother
      rw [List.getElem?_append_left (h.length_eq ▸ hlt)] at hrest
      exact h.atRun run other rest hother hrest
    . rw [List.getElem?_append_right (by omega), List.getElem?_singleton] at hother
      rw [List.getElem?_append_right (by have := h.length_eq; omega), List.getElem?_singleton,
        ← h.length_eq] at hrest
      split at hother
      . next hzero =>
        rw [if_pos hzero, Option.some.injEq] at hrest
        rw [Option.some.injEq] at hother
        rw [← hother, ← hrest]
        exact hcursor
      . contradiction

theorem set (h : AtRuns file cursors rests) {cursor : RunCursor} {records : List RunRecord}
    (hcursor : cursor.AtRun file records) (run : Nat)
    : AtRuns file (cursors.set run cursor) (rests.set run records) where
  length_eq := by
    rw [List.length_set, List.length_set]
    exact h.length_eq
  atRun := by
    intro other cursor' rest hcursor' hrest
    by_cases heq : run = other
    . subst heq
      have hlt := (List.getElem?_eq_some_iff.mp hcursor').1
      rw [List.length_set] at hlt
      rw [List.getElem?_set_self hlt, Option.some.injEq] at hcursor'
      rw [List.getElem?_set_self (h.length_eq ▸ hlt), Option.some.injEq] at hrest
      rw [← hcursor', ← hrest]
      exact hcursor
    . rw [List.getElem?_set_ne heq] at hcursor' hrest
      exact h.atRun other cursor' rest hcursor' hrest

/-- The cursor of a run of the group. -/
theorem exists_cursor (h : AtRuns file cursors rests) {run : Nat} {rest : List RunRecord}
    (hrest : rests[run]? = some rest)
    : ∃ cursor, cursors[run]? = some cursor ∧ cursor.AtRun file rest := by
  have hlt := (List.getElem?_eq_some_iff.mp hrest).1
  rw [← h.length_eq] at hlt
  exact ⟨_, List.getElem?_eq_getElem hlt, h.atRun run _ rest (List.getElem?_eq_getElem hlt) hrest⟩

theorem map_remaining (h : AtRuns file cursors rests)
    : cursors.map (·.remaining) = rests.map List.length := by
  apply List.ext_getElem?
  intro run
  rw [List.getElem?_map, List.getElem?_map]
  cases hrest : rests[run]? with
  | none =>
    rw [List.getElem?_eq_none_iff, ← h.length_eq, ← List.getElem?_eq_none_iff] at hrest
    rw [hrest]
    rfl
  | some rest =>
    obtain ⟨cursor, hcursor, hat⟩ := h.exists_cursor hrest
    rw [hcursor, Option.map_some, Option.map_some, hat.remaining]

end AtRuns

theorem runsBytes_append (runs runs' : List (List RunRecord))
    : runsBytes (runs ++ runs') = runsBytes runs ++ runsBytes runs' := List.flatMap_append

theorem openRuns_gives (hI : LogInvariant I) {file front back : Bytes}
    {group : List (List RunRecord)} (hfile : file = front ++ runsBytes group ++ back)
    (hfits : ∀ run ∈ group, RunFits run) {bufferCapacity : Nat} (hcapacity : 0 < bufferCapacity)
    : Gives w I (openRuns file front.length bufferCapacity group.length)
        (fun result => AtRuns file result.1 group
          ∧ result.1.map (·.bodyLen) = group.map (fun run => (bodyBytes run).length)
          ∧ result.2 = (front ++ runsBytes group).length) := by
  have htake : group.take group.length = group := List.take_length
  conv =>
    right
    rw [← htake]
  unfold openRuns
  apply Gives.foldlM_range (J := fun i (state : List RunCursor × Nat) =>
    AtRuns file state.1 (group.take i)
      ∧ state.1.map (·.bodyLen) = (group.take i).map (fun run => (bodyBytes run).length)
      ∧ state.2 = (front ++ runsBytes (group.take i)).length)
  . rintro i ⟨cursors, offset⟩ hi ⟨hcursors, hbodyLens, hoffset⟩
    dsimp only at hcursors hbodyLens hoffset ⊢
    subst hoffset
    have hsplit : file = front ++ runsBytes (group.take i) ++ runBytes group[i]
        ++ (runsBytes (group.drop (i + 1)) ++ back) := by
      rw [hfile]
      conv =>
        left
        rw [← List.take_append_drop i group, List.drop_eq_getElem_cons hi, runsBytes_append]
      rw [runsBytes, runsBytes, List.flatMap_cons]
      simp only [List.append_assoc]
      rfl
    apply Gives.bind (readRunHeader_gives hI hsplit (hfits _ (List.getElem_mem hi)) hcapacity)
    rintro ⟨cursor, next⟩ ⟨hreads, hremaining, hbodyLen, hnext⟩
    apply Gives.pure
    dsimp only at hreads hremaining hbodyLen hnext ⊢
    rw [List.take_succ_eq_append_getElem hi]
    refine ⟨hcursors.concat ⟨hreads, hremaining⟩, ?_, ?_⟩
    . rw [List.map_append, List.map_append, hbodyLens, List.map_singleton, List.map_singleton,
        hbodyLen]
    . rw [hnext, runsBytes_append, List.append_assoc]
      congr 3
      exact (List.flatMap_singleton _ _).symm
  . refine ⟨⟨rfl, fun _ _ _ h => by simp at h⟩, rfl, ?_⟩
    rw [List.take_zero, runsBytes, List.flatMap_nil, List.append_nil]

theorem sumSizes_eq_ok {context : String} {total sum : Nat} {sizes : List Nat}
    (h : sumSizes context total sizes = .ok sum)
    : sum = total + sizes.sum ∧ (total < u64Bound → sum < u64Bound) := by
  induction sizes generalizing total with
  | nil =>
    cases h
    exact ⟨rfl, fun h => h⟩
  | cons size sizes ih =>
    simp only [sumSizes, except_bind_eq_ok, okOr_eq_ok, checkedAdd_eq_some] at h
    obtain ⟨_, ⟨rfl, hlt⟩, h⟩ := h
    obtain ⟨rfl, hbound⟩ := ih h
    refine ⟨?_, fun _ => hbound hlt⟩
    rw [List.sum_cons, Nat.add_assoc]

theorem fillHeap_gives (hI : LogInvariant I) {file : Bytes} {cursors : List RunCursor}
    {runs : List (List RunRecord)} (hcursors : AtRuns file cursors runs)
    (hsorted : ∀ run ∈ runs, run.Pairwise (· ≤ ·)) (maximum : Nat)
    : Gives w I (fillHeap file maximum cursors)
        (fun result => ∃ rests, AtRuns file result.1 rests ∧ KWayMerge.Merging runs.flatten
          rests.length [] (result.2.map HeapRecord.item) rests) := by
  apply Gives.mono (Q := fun result => ∃ rests, rests.length = runs.length
    ∧ AtRuns file result.1 rests
    ∧ KWayMerge.Merging runs.flatten cursors.length [] (result.2.map HeapRecord.item) rests)
  . unfold fillHeap
    apply Gives.foldlM_range (J := fun i (state : List RunCursor × List HeapRecord) =>
      ∃ rests, rests.length = runs.length ∧ AtRuns file state.1 rests
        ∧ KWayMerge.Merging runs.flatten i [] (state.2.map HeapRecord.item) rests)
    . rintro i ⟨cursors', heap⟩ hi ⟨rests, hlen, hat, hmerging⟩
      dsimp only at hat hmerging ⊢
      have hlt : i < rests.length := by
        have := hcursors.length_eq
        omega
      obtain ⟨cursor, hcursor, hatRun⟩ := hat.exists_cursor (List.getElem?_eq_getElem hlt)
      rw [hcursor]
      apply Gives.liftM_bind
      rintro _ ⟨⟩
      have hremaining := hatRun.remaining
      cases hrest : rests[i] with
      | nil =>
        rw [hrest] at hremaining
        rw [hremaining]
        dsimp only [List.length_nil]
        apply Gives.liftM_bind
        intro _ _
        apply Gives.pure
        refine ⟨rests, hlen, hat, hmerging.skip ?_⟩
        rw [List.getElem?_eq_getElem hlt, hrest]
      | cons first rest =>
        rw [hrest] at hremaining hatRun
        rw [hremaining]
        dsimp only [List.length_cons]
        apply Gives.bind (readRecord_gives hI hatRun.reads maximum)
        rintro ⟨record, next⟩ ⟨hrecord, hnext⟩
        apply Gives.pure
        dsimp only at hrecord hnext ⊢
        subst hrecord
        refine ⟨rests.set i rest, by rw [List.length_set, hlen], hat.set hnext.atRun i, ?_⟩
        exact hmerging.fill (by rw [List.getElem?_eq_getElem hlt, hrest])
    . exact ⟨runs, rfl, hcursors, .start hsorted⟩
  . rintro result ⟨rests, hlen, hat, hmerging⟩
    refine ⟨rests, hat, ?_⟩
    rw [hlen, ← hcursors.length_eq]
    exact hmerging

theorem mergeRecords_gives (hI : LogInvariant I) {file : Bytes} {options : KeyIndexOptions}
    {all : List RunRecord} {bytes : Bytes} (finalPass : Bool) {cursors : List RunCursor}
    {rests : List (List RunRecord)} {heap : List HeapRecord} {merged : List RunRecord}
    {output : MergeOutput} (hat : AtRuns file cursors rests)
    (hmerging : KWayMerge.Merging all rests.length merged (heap.map HeapRecord.item) rests)
    (houtput : output.Holds options (bytes ++ MergeOutput.mergedBytes finalPass merged))
    (maximum written : Nat)
    : Gives w I (mergeRecords file maximum finalPass cursors heap written output)
        (fun result => result.1.Holds options
          (bytes ++ MergeOutput.mergedBytes finalPass (KWayMerge.sorted all))) := by
  induction hn : recordsLeft cursors + heap.length using Nat.strongRecOn
    generalizing cursors rests heap merged output written with
  | ind n ih =>
    unfold mergeRecords
    split
    . next hpop =>
      apply Gives.pure
      rw [popHeap_eq_none hpop] at hmerging
      rw [← hmerging.finish]
      exact houtput
    . next item rest hpop =>
      obtain ⟨hperm, hleast⟩ := popHeap_eq_some hpop
      have hlen := length_popHeap hpop
      have hperm' : (heap.map HeapRecord.item).Perm (item.item :: rest.map HeapRecord.item) :=
        hperm.map HeapRecord.item
      have hleast' : ∀ other ∈ rest.map HeapRecord.item, item.item.1 ≤ other.1 := by
        intro other hother
        obtain ⟨record, hrecord, rfl⟩ := List.mem_map.mp hother
        exact hleast record hrecord
      obtain ⟨left, hleft, -⟩ := hmerging.waiting item.item (hperm'.mem_iff.mpr List.mem_cons_self)
      obtain ⟨cursor, hcursor, hatRun⟩ := hat.exists_cursor hleft
      have hremaining := hatRun.remaining
      apply Gives.bind (checkCancelled_gives hI _)
      intro _ _
      apply Gives.bind (MergeOutput.writeRecord_gives hI houtput finalPass item.record)
      intro output hwritten
      rw [List.append_assoc, ← MergeOutput.mergedBytes_concat] at hwritten
      apply Gives.liftM_bind
      intro written _
      split
      . exact .fail
      . next cursor' hcursor' =>
        have heq : cursor = cursor' := by
          change cursors[item.run]? = _ at hcursor
          rw [hcursor', Option.some.injEq] at hcursor
          exact hcursor.symm
        subst heq
        split
        . next hzero =>
          rw [hzero, eq_comm, List.length_eq_zero_iff] at hremaining
          subst hremaining
          apply Gives.liftM_bind
          intro _ _
          exact ih _ (by omega) hat (hmerging.drop hperm' hleast' hleft) hwritten written rfl
        . next more hmore =>
          cases left with
          | nil =>
            rw [hmore] at hremaining
            contradiction
          | cons first left =>
            rw [hmore] at hremaining
            have hleftLen : more = left.length := Nat.succ.inj hremaining
            apply Gives.bind (readRecord_gives hI hatRun.reads maximum)
            rintro ⟨record, next⟩ ⟨hrecord, hnext⟩
            dsimp only at hrecord hnext ⊢
            subst hrecord
            have hset := hat.set hnext.atRun item.run
            rw [← hleftLen] at hset
            have hfewer := @recordsLeft_set _ _ _ _ { next with remaining := more } hcursor hmore rfl
            have hreplace := hmerging.replace hperm' hleast' hleft
            rw [← List.length_set (i := item.item.2) (a := left)] at hreplace
            change KWayMerge.Merging all _ _
              (({ record, run := item.run } :: rest : List HeapRecord).map HeapRecord.item) _
              at hreplace
            apply ih _ _ hset hreplace hwritten written rfl
            rw [List.length_cons]
            change recordsLeft (cursors.set item.run _) + 1 = _ at hfewer
            omega

/-! ## Passes -/

theorem bodyBytes_flatten (runs : List (List RunRecord))
    : bodyBytes runs.flatten = runs.flatMap bodyBytes := by
  induction runs with
  | nil => rfl
  | cons run runs ih =>
    rw [List.flatten_cons, List.flatMap_cons, ← ih, bodyBytes, bodyBytes, List.flatMap_append]
    rfl

/-- A run or the order, in the last pass. -/
def outputBytes (finalPass : Bool) (runs : List (List RunRecord)) : Bytes :=
  if finalPass then orderBytes runs.flatten else runsBytes runs

theorem outputBytes_append (finalPass : Bool) (runs runs' : List (List RunRecord))
    : outputBytes finalPass (runs ++ runs')
        = outputBytes finalPass runs ++ outputBytes finalPass runs' := by
  cases finalPass with
  | true =>
    simp only [outputBytes, if_true, orderBytes, List.flatten_append, List.flatMap_append]
  | false => exact runsBytes_append runs runs'

section Group

variable {file front back : Bytes} {options : KeyIndexOptions} {output : MergeOutput} {bytes : Bytes}
variable {bufferCapacity : Nat}

/-- Merging the runs of a group whose cursors are open. -/
theorem mergeOpened_gives (hI : LogInvariant I) (finalPass : Bool) {cursors : List RunCursor}
    {runs : List (List RunRecord)} (hcursors : AtRuns file cursors runs)
    (hsorted : ∀ run ∈ runs, run.Pairwise (· ≤ ·)) (houtput : output.Holds options bytes)
    (maximum rowCount offset : Nat)
    : Gives w I
        (do
          let (cursors, heap) ← fillHeap file maximum cursors
          let (output, written) ← mergeRecords file maximum finalPass cursors heap 0 output
          failIf (written ≠ rowCount) (.invalidFormat "merged run row-count mismatch")
          return (output, offset))
        (fun result => result.2 = offset
          ∧ result.1.Holds options
              (bytes ++ MergeOutput.mergedBytes finalPass (KWayMerge.sorted runs.flatten))) := by
  apply Gives.bind (fillHeap_gives hI hcursors hsorted maximum)
  rintro ⟨filled, heap⟩ ⟨rests, hfilled, hmerging⟩
  dsimp only at hfilled hmerging ⊢
  rw [← List.append_nil bytes, ← MergeOutput.mergedBytes_nil finalPass] at houtput
  apply Gives.bind (mergeRecords_gives hI finalPass hfilled hmerging houtput maximum 0)
  rintro ⟨merged, written⟩ hmerged
  apply Gives.liftM_bind
  intro _ _
  exact .pure ⟨rfl, hmerged⟩

theorem mergeGroup_gives (hI : LogInvariant I) (finalPass : Bool) {group : List (List RunRecord)}
    (hfile : file = front ++ runsBytes group ++ back) (hfits : ∀ run ∈ group, RunFits run)
    (hsorted : ∀ run ∈ group, run.Pairwise (· ≤ ·)) (hcapacity : 0 < bufferCapacity)
    (houtput : output.Holds options bytes) (maximum : Nat)
    : Gives w I
        (mergeGroup file maximum bufferCapacity finalPass (output, front.length) group.length)
        (fun result => result.2 = (front ++ runsBytes group).length
          ∧ RunFits (KWayMerge.sorted group.flatten)
          ∧ result.1.Holds options
              (bytes ++ outputBytes finalPass [KWayMerge.sorted group.flatten])) := by
  have hperm := KWayMerge.sorted_perm group.flatten
  unfold mergeGroup
  dsimp only
  apply Gives.bind (checkCancelled_gives hI _)
  intro _ _
  apply Gives.bind (openRuns_gives hI hfile hfits hcapacity)
  rintro ⟨cursors, next⟩ ⟨hcursors, hbodyLens, rfl⟩
  dsimp only at hcursors hbodyLens ⊢
  apply Gives.liftM_bind
  intro bodyLen hbodyLen
  apply Gives.liftM_bind
  intro rowCount hrowCount
  -- The sums are those of the merged run.
  have hbody : bodyLen = (bodyBytes (KWayMerge.sorted group.flatten)).length := by
    rw [length_bodyBytes_of_perm hperm, (sumSizes_eq_ok hbodyLen).1, hbodyLens, Nat.zero_add,
      bodyBytes_flatten, List.length_flatMap]
  have hrows : rowCount = (KWayMerge.sorted group.flatten).length := by
    rw [hperm.length_eq, (sumSizes_eq_ok hrowCount).1, hcursors.map_remaining, Nat.zero_add,
      List.length_flatten]
  have hmergedFits : RunFits (KWayMerge.sorted group.flatten) := by
    refine ⟨?_, ?_⟩
    . rw [← hbody]
      exact (sumSizes_eq_ok hbodyLen).2 (by decide)
    . intro record hrecord
      obtain ⟨run, hrun, hmem⟩ := List.mem_flatten.mp (hperm.mem_iff.mp hrecord)
      exact (hfits run hrun).ordinals record hmem
  -- In a pass that writes runs the header of the merged run comes first.
  cases finalPass with
  | true =>
    apply (mergeOpened_gives hI true hcursors hsorted houtput maximum rowCount _).mono
    rintro result ⟨hnext, hresult⟩
    rw [outputBytes, if_pos rfl, List.flatten_singleton]
    exact ⟨hnext, hmergedFits, hresult⟩
  | false =>
    apply Gives.bind (MergeOutput.writeAll_gives hI houtput _)
    intro headed₁ h₁
    apply Gives.bind (MergeOutput.writeAll_gives hI h₁ _)
    intro headed₂ h₂
    apply (mergeOpened_gives hI false hcursors hsorted h₂ maximum rowCount _).mono
    rintro result ⟨hnext, hresult⟩
    refine ⟨hnext, hmergedFits, ?_⟩
    rw [outputBytes, if_neg Bool.false_ne_true, runsBytes, List.flatMap_singleton, runBytes, ← hbody,
      ← hrows, ← List.append_assoc, ← List.append_assoc]
    exact hresult

/-- A pass replaces the runs of each group by one. -/
theorem mergeGroups_gives (hI : LogInvariant I) (finalPass : Bool) {runs : List (List RunRecord)}
    (hfile : file = front ++ runsBytes runs) (hfits : ∀ run ∈ runs, RunFits run)
    (hsorted : ∀ run ∈ runs, run.Pairwise (· ≤ ·)) (hcapacity : 0 < bufferCapacity)
    (houtput : output.Holds options bytes) (maximum fanIn : Nat)
    : Gives w I
        ((groupLens runs.length fanIn).foldlM (mergeGroup file maximum bufferCapacity finalPass)
          (output, front.length))
        (fun result => ∃ merged : List (List RunRecord),
          (0 < fanIn → merged.flatten.Perm runs.flatten)
            ∧ merged.length = (groupLens runs.length fanIn).length
            ∧ (∀ run ∈ merged, RunFits run) ∧ (∀ run ∈ merged, run.Pairwise (· ≤ ·))
            ∧ result.1.Holds options (bytes ++ outputBytes finalPass merged)) := by
  induction hn : runs.length using Nat.strongRecOn generalizing runs front output bytes with
  | ind n ih =>
    subst hn
    unfold groupLens
    split
    . next hgroup =>
      obtain ⟨hpos, hfan⟩ := hgroup
      have hlen : (runs.take (min runs.length fanIn)).length = min runs.length fanIn := by
        rw [List.length_take]
        omega
      have hrest : (runs.drop (min runs.length fanIn)).length
          = runs.length - min runs.length fanIn := List.length_drop
      have hsplit : runs.take (min runs.length fanIn) ++ runs.drop (min runs.length fanIn) = runs :=
        List.take_append_drop _ _
      generalize runs.take (min runs.length fanIn) = group at hlen hsplit
      generalize runs.drop (min runs.length fanIn) = others at hrest hsplit
      have hgroupMem (run : List RunRecord) (h : run ∈ group) : run ∈ runs :=
        hsplit ▸ List.mem_append_left others h
      have hothersMem (run : List RunRecord) (h : run ∈ others) : run ∈ runs :=
        hsplit ▸ List.mem_append_right group h
      have hfile' : file = front ++ runsBytes group ++ runsBytes others := by
        rw [hfile, ← hsplit, runsBytes_append, List.append_assoc]
      rw [List.foldlM_cons, ← hlen]
      apply Gives.bind (mergeGroup_gives hI finalPass hfile' (fun run h => hfits run (hgroupMem run h))
        (fun run h => hsorted run (hgroupMem run h)) hcapacity houtput maximum)
      rintro ⟨next, offset⟩ ⟨rfl, hmergedFits, hnext⟩
      dsimp only at hnext
      rw [hlen, ← hrest]
      apply (ih _ (by omega) hfile' (fun run h => hfits run (hothersMem run h))
        (fun run h => hsorted run (hothersMem run h)) hnext rfl).mono
      rintro result ⟨merged, hperm, hmergedLen, hallFit, hallSorted, hresult⟩
      refine ⟨KWayMerge.sorted group.flatten :: merged, ?_, ?_, ?_, ?_, ?_⟩
      . intro hfan
        rw [← hsplit, List.flatten_append, List.flatten_cons]
        exact (KWayMerge.sorted_perm _).append (hperm hfan)
      . rw [List.length_cons, List.length_cons, hmergedLen]
      . rintro run (_ | ⟨_, hrun⟩)
        . exact hmergedFits
        . exact hallFit run hrun
      . rintro run (_ | ⟨_, hrun⟩)
        . exact KWayMerge.pairwise_sorted _
        . exact hallSorted run hrun
      . rw [← List.singleton_append, outputBytes_append, ← List.append_assoc]
        exact hresult
    . next hnone =>
      apply Gives.pure
      refine ⟨[], ?_, rfl, fun _ h => by contradiction, fun _ h => by contradiction, ?_⟩
      . intro hfan
        have hnil : runs = [] := by
          rw [← List.length_eq_zero_iff]
          omega
        rw [hnil]
      . have hnil : outputBytes finalPass [] = [] := by
          cases finalPass <;> rfl
        rw [hnil, List.append_nil]
        exact houtput

end Group

theorem writeRunOrder_gives (hI : LogInvariant I) {file : Bytes} {options : KeyIndexOptions}
    {run : RunCursor} {records : List RunRecord} (h : run.AtRun file records)
    {order : SectionScratchWriter} {bytes : Bytes} (horder : order.Holds options bytes)
    (maximum : Nat)
    : Gives w I (writeRunOrder file maximum run order)
        (fun next => next.Holds options (bytes ++ orderBytes records)) := by
  induction records generalizing run order bytes with
  | nil =>
    unfold writeRunOrder
    split
    . apply Gives.liftM_bind
      intro _ _
      apply Gives.pure
      rw [orderBytes, List.flatMap_nil, List.append_nil]
      exact horder
    . next hmore =>
      have := h.remaining
      rw [hmore] at this
      contradiction
  | cons record records ih =>
    unfold writeRunOrder
    split
    . next hzero =>
      have := h.remaining
      rw [hzero] at this
      contradiction
    . next more hmore =>
      have hleft := h.remaining
      rw [hmore] at hleft
      have hleftLen : more = records.length := Nat.succ.inj hleft
      apply Gives.bind (readRecord_gives hI h.reads maximum)
      rintro ⟨read, next⟩ ⟨hread, hnext⟩
      dsimp only at hread hnext ⊢
      subst hread
      apply Gives.bind (checkCancelled_gives hI _)
      intro _ _
      apply Gives.bind (SectionScratchWriter.writeU32_gives hI horder _)
      intro order horder
      rw [hleftLen, orderBytes, List.flatMap_cons, ← List.append_assoc]
      exact ih hnext.atRun horder

theorem newOrderWriter_gives (hI : LogInvariant I) {options : KeyIndexOptions}
    (hpos : 0 < options.chunkBytes)
    : Gives w I (newOrderWriter options) (fun writer => writer.Holds options []) := by
  unfold newOrderWriter
  apply Gives.bind (scratchFile_gives hI)
  rintro _ rfl
  exact .pure (SectionScratchWriter.holds_new hpos _)

/-- The only group of the last pass. -/
theorem groupLens_of_le {runCount fanIn : Nat} (hpos : 0 < runCount) (hle : runCount ≤ fanIn)
    : groupLens runCount fanIn = [runCount] := by
  unfold groupLens
  rw [dif_pos (by omega), Nat.min_eq_left hle, Nat.sub_self]
  unfold groupLens
  rw [dif_neg (by omega)]

theorem mergePasses_gives (hI : LogInvariant I) {file : Bytes} {runs : List (List RunRecord)}
    {options : KeyIndexOptions} (hpos : 0 < options.chunkBytes) (hfile : file = runsBytes runs)
    (hne : runs ≠ []) (hfits : ∀ run ∈ runs, RunFits run)
    (hsorted : ∀ run ∈ runs, run.Pairwise (· ≤ ·)) {bufferCapacity : Nat}
    (hcapacity : 0 < bufferCapacity) (expectedRows : Nat) {fanIn : Nat}
    (hfan : runs.length > 1 → fanIn ≥ 2)
    : Gives w I (mergePasses file runs.length expectedRows bufferCapacity fanIn options)
        (· = sectionOf .order options (orderBytes (KWayMerge.sorted runs.flatten))) := by
  induction hn : runs.length using Nat.strongRecOn generalizing runs file with
  | ind n ih =>
    subst hn
    have hfile' : file = [] ++ runsBytes runs := hfile
    unfold mergePasses
    split
    . next hseveral =>
      dsimp only
      split
      . next hfinal =>
        apply Gives.bind (newOrderWriter_gives hI hpos)
        intro writer hwriter
        have hgroups := groupLens_of_le (Nat.lt_trans Nat.zero_lt_one hseveral.1) hfinal
        apply Gives.bind (@mergeGroups_gives _ _ _ _ _ (.order writer) _ _ hI true _ hfile' hfits hsorted
          hcapacity hwriter options.buildMemoryBytes fanIn)
        rintro ⟨output, next⟩ ⟨merged, hperm, hlen, -, hmergedSorted, houtput⟩
        dsimp only at houtput ⊢
        -- All runs are merged into one.
        rw [hgroups, List.length_singleton, List.length_eq_one_iff] at hlen
        obtain ⟨run, rfl⟩ := hlen
        have hrun := KWayMerge.eq_sorted (hperm (by omega)) (by
          rw [List.flatten_singleton]
          exact hmergedSorted run List.mem_cons_self)
        rw [outputBytes, if_pos rfl, hrun, List.nil_append] at houtput
        cases output with
        | runs writer => exact Gives.bind (R := fun _ => False) .fail fun _ h => by contradiction
        | order writer =>
          apply Gives.bind (SectionScratchWriter.intoSection_gives hI houtput .order)
          rintro _ rfl
          apply Gives.liftM_bind
          intro _ _
          apply Gives.liftM_bind
          intro _ _
          exact .pure rfl
      . next hmore =>
        apply Gives.bind (scratchFile_gives hI)
        rintro _ rfl
        apply Gives.bind (@mergeGroups_gives _ _ _ _ options
          (.runs (.new [] (scratchWriteBufferBytes options))) [] _ hI false _ hfile' hfits hsorted
          hcapacity (BufferedScratchWriter.contents_new [] _) options.buildMemoryBytes fanIn)
        rintro ⟨output, next⟩ ⟨merged, hperm, hlen, hmergedFits, hmergedSorted, houtput⟩
        dsimp only at houtput ⊢
        have hfan' : 0 < fanIn := Nat.lt_of_lt_of_le Nat.zero_lt_two hseveral.2
        have hfewer := length_groupLens_lt hseveral.1 hseveral.2
        have hmergedNe : merged ≠ [] := by
          rw [← List.length_pos_iff, hlen]
          unfold groupLens
          rw [dif_pos ⟨by omega, hfan'⟩]
          exact Nat.zero_lt_succ _
        cases output with
        | order writer => exact Gives.bind (R := fun _ => False) .fail fun _ h => by contradiction
        | runs writer =>
          apply Gives.bind (BufferedScratchWriter.intoFile_gives hI writer)
          rintro _ rfl
          change writer.contents = _ at houtput
          rw [outputBytes, if_neg Bool.false_ne_true, List.nil_append] at houtput
          rw [← hlen] at hfewer ⊢
          rw [← KWayMerge.sorted_eq_of_perm (hperm hfan')]
          exact ih _ hfewer houtput hmergedNe hmergedFits hmergedSorted (fun _ => hseveral.2) rfl
    . next hone =>
      have hlen : runs.length = 1 := by
        have := List.length_pos_iff.mpr hne
        by_contra hseveral
        exact hone ⟨by omega, hfan (by omega)⟩
      obtain ⟨run, rfl⟩ := List.length_eq_one_iff.mp hlen
      have hrunFile : file = [] ++ runBytes run ++ [] := by
        rw [hfile, runsBytes, List.flatMap_singleton, List.append_nil, List.nil_append]
      apply Gives.bind (readRunHeader_gives hI hrunFile (hfits run List.mem_cons_self) hcapacity)
      rintro ⟨cursor, next⟩ ⟨hreads, hremaining, -, -⟩
      dsimp only at hreads hremaining ⊢
      apply Gives.liftM_bind
      intro _ _
      apply Gives.bind (newOrderWriter_gives hI hpos)
      intro order horder
      apply Gives.bind (writeRunOrder_gives hI ⟨hreads, hremaining⟩ horder _)
      intro order horder
      apply Gives.bind (SectionScratchWriter.intoSection_gives hI horder .order)
      rintro _ rfl
      apply Gives.liftM_bind
      intro _ _
      apply Gives.pure
      rw [List.nil_append, List.flatten_singleton,
        ← KWayMerge.eq_sorted (List.Perm.refl run) (hsorted run List.mem_cons_self)]

theorem runReadBuffer_pos {options : KeyIndexOptions} (hpos : 0 < options.chunkBytes)
    (runCount fanIn basePerRun : Nat)
    : 0 < runReadBuffer runCount fanIn basePerRun options := by
  have : 0 < runReadBufferBytes := by decide
  unfold runReadBuffer
  dsimp only
  omega

/-- Merging sorted runs gives the order of all their records. -/
theorem mergeRuns_gives (hI : LogInvariant I) {file : Bytes} {runs : List (List RunRecord)}
    {options : KeyIndexOptions} (hpos : 0 < options.chunkBytes) (hfile : file = runsBytes runs)
    (hfits : ∀ run ∈ runs, RunFits run) (hsorted : ∀ run ∈ runs, run.Pairwise (· ≤ ·))
    (expectedRows maximumRecordBytes : Nat)
    : Gives w I (mergeRuns file runs.length expectedRows maximumRecordBytes options)
        (· = sectionOf .order options (orderBytes (KWayMerge.sorted runs.flatten))) := by
  unfold mergeRuns
  split
  . next hzero =>
    apply Gives.liftM_bind
    intro _ _
    apply Gives.bind (newOrderWriter_gives hI hpos)
    intro order horder
    apply (SectionScratchWriter.intoSection_gives hI horder .order).mono
    rintro _ rfl
    rw [List.length_eq_zero_iff.mp hzero, List.flatten_nil,
      ← KWayMerge.eq_sorted (List.Perm.refl []) List.Pairwise.nil]
    rfl
  . next hne =>
    apply Gives.liftM_bind
    intro basePerRun _
    apply Gives.liftM_bind
    intro minimumPerRun _
    dsimp only
    apply Gives.liftM_bind
    intro _ hfan
    rw [failIf_eq_ok] at hfan
    exact mergePasses_gives hI hpos hfile (fun hnil => hne (by rw [hnil]; rfl)) hfits hsorted
      (runReadBuffer_pos hpos _ _ _) expectedRows (by omega)

end Mdict.Persistent
