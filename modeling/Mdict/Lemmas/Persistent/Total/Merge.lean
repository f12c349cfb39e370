import Mdict.Lemmas.Persistent.Total.Runs

/-!
This module contains that sorted runs are merged without a failure of their own, as long as the
memory of the build has room for two of them.
-/

namespace Mdict.Persistent

open Effect

variable {w : World} {I : Session → Prop}

/-! ## The output of a pass -/

namespace MergeOutput

variable {output : MergeOutput} {options : KeyIndexOptions} {finalPass : Bool} {room : Nat}

/-- The output of a pass can take so many more records. -/
def Takes (output : MergeOutput) (options : KeyIndexOptions) (finalPass : Bool) (room : Nat)
    : Prop :=
  match output with
  | runs writer => finalPass = false ∧ writer.Ready
  | order writer => finalPass = true
      ∧ ∃ bytes, writer.Takes options bytes ∧ bytes.length + 4 * room < u64Bound

theorem writeAll_total (hI : LogInvariant I) (h : output.Takes options false room) (input : Bytes)
    : Ensures w I (output.writeAll input) (fun next => next.Takes options false room)
        (Stopped w) := by
  cases output with
  | order writer => exact absurd h.1 Bool.false_ne_true
  | runs writer =>
    apply Ensures.bind (BufferedScratchWriter.writeAll_total hI h.2 input)
    intro next hnext
    exact .pure ⟨rfl, hnext.2⟩

theorem writeRecord_total (hI : LogInvariant I) (h : output.Takes options finalPass (room + 1))
    (record : RunRecord)
    : Ensures w I (output.writeRecord finalPass record)
        (fun next => next.Takes options finalPass room) (Stopped w) := by
  unfold writeRecord
  cases output with
  | runs writer =>
    obtain ⟨rfl, hready⟩ := h
    have h : (runs writer).Takes options false room := ⟨rfl, hready⟩
    apply Ensures.bind (writeAll_total hI h _)
    intro next₁ h₁
    apply Ensures.bind (writeAll_total hI h₁ _)
    intro next₂ h₂
    exact writeAll_total hI h₂ _
  | order writer =>
    obtain ⟨rfl, bytes, hwriter, hlen⟩ := h
    have hinput : (bytes ++ Bytes.ofLE 4 record.ordinal).length = bytes.length + 4 := by
      rw [List.length_append, Bytes.length_ofLE]
    apply Ensures.bind (SectionScratchWriter.writeAll_total hI hwriter (by rw [hinput]; omega))
    intro next hnext
    exact .pure ⟨rfl, _, hnext, by rw [hinput]; omega⟩

end MergeOutput

/-! ## Groups -/

theorem checkRunEnd_of_nil {cursor : RunCursor} {file : Bytes} (h : cursor.AtRun file [])
    : checkRunEnd cursor = .ok () := by
  have hleft := congrArg List.length h.reads.left_eq
  rw [RunCursor.length_left h.reads.stands] at hleft
  change _ = 0 at hleft
  have hcursor := h.reads.stands.cursor_le
  exact failIf_of_not (by omega)

theorem sumSizes_of_lt {context : String} {total : Nat} {sizes : List Nat}
    (h : total + sizes.sum < u64Bound)
    : sumSizes context total sizes = .ok (total + sizes.sum) := by
  induction sizes generalizing total with
  | nil => rfl
  | cons size sizes ih =>
    rw [List.sum_cons] at h ⊢
    rw [sumSizes, checkedAdd_of_lt (by omega), okOr_some, except_ok_bind, ih (by omega),
      Nat.add_assoc]

theorem openRuns_total (hI : LogInvariant I) {file front back : Bytes}
    (hlen : file.length < u64Bound) {group : List (List RunRecord)}
    (hfile : file = front ++ runsBytes group ++ back) (hfits : ∀ run ∈ group, RunFits run)
    {bufferCapacity : Nat} (hcapacity : 0 < bufferCapacity)
    : Ensures w I (openRuns file front.length bufferCapacity group.length)
        (fun result => AtRuns file result.1 group
          ∧ result.1.map (·.bodyLen) = group.map (fun run => (bodyBytes run).length)
          ∧ result.2 = (front ++ runsBytes group).length)
        (Stopped w) := by
  have htotal : Ensures w I (openRuns file front.length bufferCapacity group.length)
      (fun result => result.2 = (front ++ runsBytes (group.take group.length)).length)
      (Stopped w) := by
    unfold openRuns
    apply Ensures.foldlM_range (J := fun i (state : List RunCursor × Nat) =>
      state.2 = (front ++ runsBytes (group.take i)).length)
    . rintro i ⟨cursors, offset⟩ hi hoffset
      dsimp only at hoffset ⊢
      subst hoffset
      have hsplit : file = front ++ runsBytes (group.take i) ++ runBytes group[i]
          ++ (runsBytes (group.drop (i + 1)) ++ back) := by
        rw [hfile]
        conv =>
          left
          rw [← List.take_append_drop i group, List.drop_eq_getElem_cons hi, runsBytes_append]
        rw [runsBytes, runsBytes, List.flatMap_cons]
        simp only [List.append_assoc]
        rfl
      apply Ensures.bind (readRunHeader_total hI hlen hsplit (hfits _ (List.getElem_mem hi))
        hcapacity)
      rintro ⟨cursor, next⟩ ⟨-, -, -, hnext⟩
      apply Ensures.pure
      dsimp only at hnext ⊢
      rw [List.take_succ_eq_append_getElem hi, hnext, runsBytes_append, List.append_assoc]
      congr 3
      exact (List.flatMap_singleton _ _).symm
    . rw [List.take_zero, runsBytes, List.flatMap_nil, List.append_nil]
  apply Ensures.mono ((openRuns_gives hI hfile hfits hcapacity).and_ensures htotal)
  . exact fun _ hresult => hresult.1
  . exact fun _ he => he

section Records

variable {file : Bytes} {all : List RunRecord} {maximum : Nat}

theorem fillHeap_total (hI : LogInvariant I) (hfile : file.length < u64Bound)
    {cursors : List RunCursor} {runs : List (List RunRecord)} (hcursors : AtRuns file cursors runs)
    (hsorted : ∀ run ∈ runs, run.Pairwise (· ≤ ·))
    (hloads : ∀ record ∈ runs.flatten, record.Loads maximum)
    : Ensures w I (fillHeap file maximum cursors)
        (fun result => ∃ rests, AtRuns file result.1 rests ∧ KWayMerge.Merging runs.flatten
          rests.length [] (result.2.map HeapRecord.item) rests)
        (Stopped w) := by
  have htotal : Ensures w I (fillHeap file maximum cursors) (fun result => ∃ rests,
      rests.length = runs.length ∧ AtRuns file result.1 rests
        ∧ KWayMerge.Merging runs.flatten cursors.length [] (result.2.map HeapRecord.item) rests)
      (Stopped w) := by
    unfold fillHeap
    apply Ensures.foldlM_range (J := fun i (state : List RunCursor × List HeapRecord) =>
      ∃ rests, rests.length = runs.length ∧ AtRuns file state.1 rests
        ∧ KWayMerge.Merging runs.flatten i [] (state.2.map HeapRecord.item) rests)
    . rintro i ⟨cursors', heap⟩ hi ⟨rests, hlen, hat, hmerging⟩
      dsimp only at hat hmerging ⊢
      have hlt : i < rests.length := by
        have := hcursors.length_eq
        omega
      have hrun := List.getElem?_eq_getElem hlt
      obtain ⟨cursor, hcursor, hatRun⟩ := hat.exists_cursor hrun
      have hremaining := hatRun.remaining
      rw [hcursor, okOr_some, Prog.ok_bind]
      cases hrest : rests[i] with
      | nil =>
        rw [hrest] at hremaining hatRun hrun
        rw [hremaining]
        dsimp only [List.length_nil]
        rw [checkRunEnd_of_nil hatRun, Prog.ok_bind]
        exact .pure ⟨rests, hlen, hat, hmerging.skip hrun⟩
      | cons first rest =>
        rw [hrest] at hremaining hatRun hrun
        have hfirst := hloads first (hmerging.mem_of_rest hrun List.mem_cons_self)
        rw [hremaining]
        dsimp only [List.length_cons]
        apply Ensures.bind (readRecord_total hI hfile hatRun.reads hfirst)
        rintro ⟨record, next⟩ ⟨hrecord, hnext⟩
        dsimp only at hrecord hnext ⊢
        subst hrecord
        refine .pure ⟨rests.set i rest, by rw [List.length_set, hlen], hat.set hnext.atRun i, ?_⟩
        exact hmerging.fill hrun
    . exact ⟨runs, rfl, hcursors, .start hsorted⟩
  apply htotal.mono
  . rintro result ⟨rests, hlen, hat, hmerging⟩
    rw [hcursors.length_eq, ← hlen] at hmerging
    exact ⟨rests, hat, hmerging⟩
  . exact fun _ he => he

/-- A merge writes as many records as there are. -/
theorem mergeRecords_total (hI : LogInvariant I) (hfile : file.length < u64Bound)
    (hloads : ∀ record ∈ all, record.Loads maximum) (hall : all.length < u64Bound)
    {options : KeyIndexOptions} {finalPass : Bool} {cursors : List RunCursor}
    {rests : List (List RunRecord)} {heap : List HeapRecord} {merged : List RunRecord}
    {output : MergeOutput} {room : Nat} (hat : AtRuns file cursors rests)
    (hmerging : KWayMerge.Merging all rests.length merged (heap.map HeapRecord.item) rests)
    (houtput : output.Takes options finalPass (room + (all.length - merged.length)))
    : Ensures w I (mergeRecords file maximum finalPass cursors heap merged.length output)
        (fun result => result.1.Takes options finalPass room ∧ result.2 = all.length)
        (Stopped w) := by
  induction hn : recordsLeft cursors + heap.length using Nat.strongRecOn
    generalizing cursors rests heap merged output with
  | ind n ih =>
    unfold mergeRecords
    split
    . next hpop =>
      rw [popHeap_eq_none hpop] at hmerging
      have hmerged : merged.length = all.length := by
        rw [hmerging.finish, (KWayMerge.sorted_perm all).length_eq]
      rw [hmerged, Nat.sub_self] at houtput
      exact .pure ⟨houtput, hmerged⟩
    . next item rest hpop =>
      obtain ⟨hperm, hleast⟩ := popHeap_eq_some hpop
      have hlen := length_popHeap hpop
      have hperm' : (heap.map HeapRecord.item).Perm (item.item :: rest.map HeapRecord.item) :=
        hperm.map HeapRecord.item
      have hleast' : ∀ other ∈ rest.map HeapRecord.item, item.item.1 ≤ other.1 := by
        intro other hother
        obtain ⟨record, hrecord, rfl⟩ := List.mem_map.mp hother
        exact hleast record hrecord
      obtain ⟨left, hleft, -⟩ := hmerging.waiting item.item (hperm'.mem_iff.mpr List.mem_cons_self)
      obtain ⟨cursor, hcursor, hatRun⟩ := hat.exists_cursor hleft
      change cursors[item.run]? = _ at hcursor
      have hremaining := hatRun.remaining
      -- One record more is written, and there is one for it.
      have hcount := hmerging.length_eq
      rw [List.length_map] at hcount
      have hroom : room + (all.length - merged.length)
          = room + (all.length - (merged ++ [item.record]).length) + 1 := by
        rw [List.length_append, List.length_singleton]
        omega
      have hwritten : merged.length + 1 = (merged ++ [item.record]).length := by
        rw [List.length_append, List.length_singleton]
      rw [hroom] at houtput
      apply Ensures.bind (checkCancelled_total hI _)
      intro _ _
      apply Ensures.bind (MergeOutput.writeRecord_total hI houtput item.record)
      intro output houtput
      rw [checkedAdd_of_lt (by omega), okOr_some, Prog.ok_bind, hwritten]
      split
      . next hnone =>
        rw [hcursor] at hnone
        contradiction
      . next cursor' hcursor' =>
        have heq : cursor = cursor' := by
          rw [hcursor', Option.some.injEq] at hcursor
          exact hcursor.symm
        subst heq
        split
        . next hzero =>
          rw [hzero, eq_comm, List.length_eq_zero_iff] at hremaining
          subst hremaining
          rw [checkRunEnd_of_nil hatRun, Prog.ok_bind]
          exact ih _ (by omega) hat (hmerging.drop hperm' hleast' hleft) houtput rfl
        . next more hmore =>
          cases left with
          | nil =>
            rw [hmore] at hremaining
            contradiction
          | cons first left =>
            rw [hmore] at hremaining
            have hleftLen : more = left.length := Nat.succ.inj hremaining
            have hfirst := hloads first (hmerging.mem_of_rest hleft List.mem_cons_self)
            apply Ensures.bind (readRecord_total hI hfile hatRun.reads hfirst)
            rintro ⟨record, next⟩ ⟨hrecord, hnext⟩
            dsimp only at hrecord hnext ⊢
            subst hrecord
            have hset := hat.set hnext.atRun item.run
            rw [← hleftLen] at hset
            have hfewer := @recordsLeft_set _ _ _ _ { next with remaining := more } hcursor hmore rfl
            have hreplace := hmerging.replace hperm' hleast' hleft
            rw [← List.length_set (i := item.item.2) (a := left)] at hreplace
            change KWayMerge.Merging all _ _
              (({ record, run := item.run } :: rest : List HeapRecord).map HeapRecord.item) _
              at hreplace
            apply ih _ _ hset hreplace houtput rfl
            rw [List.length_cons]
            omega

end Records

/-! ## Passes -/

theorem length_runsBytes (runs : List (List RunRecord))
    : (runsBytes runs).length = 16 * runs.length + (bodyBytes runs.flatten).length := by
  induction runs with
  | nil => rfl
  | cons run runs ih =>
    rw [runsBytes] at ih
    rw [runsBytes, List.flatMap_cons, List.length_append, ih, length_runBytes, List.flatten_cons,
      bodyBytes, bodyBytes, bodyBytes, List.flatMap_append, List.length_append, List.length_cons]
    omega

theorem four_mul_length_le (records : List RunRecord)
    : 4 * records.length ≤ (bodyBytes records).length := by
  induction records with
  | nil => exact Nat.le_refl 0
  | cons record records ih =>
    have := record.length_bytes
    rw [bodyBytes, List.flatMap_cons, List.length_append, List.length_cons]
    rw [bodyBytes] at ih
    omega

theorem MergeOutput.Takes.mono {output : MergeOutput} {options : KeyIndexOptions}
    {finalPass : Bool} {room less : Nat} (h : output.Takes options finalPass room)
    (hle : less ≤ room)
    : output.Takes options finalPass less := by
  cases output with
  | runs writer => exact h
  | order writer =>
    obtain ⟨hfinal, bytes, hwriter, hlen⟩ := h
    exact ⟨hfinal, bytes, hwriter, by omega⟩

section Group

variable {file front back : Bytes} {options : KeyIndexOptions} {output : MergeOutput}
variable {bufferCapacity maximum room : Nat} {finalPass : Bool}

theorem mergeOpened_total (hI : LogInvariant I) (hfile : file.length < u64Bound)
    {cursors : List RunCursor} {runs : List (List RunRecord)} (hcursors : AtRuns file cursors runs)
    (hsorted : ∀ run ∈ runs, run.Pairwise (· ≤ ·))
    (hloads : ∀ record ∈ runs.flatten, record.Loads maximum)
    (hcount : runs.flatten.length < u64Bound)
    (houtput : output.Takes options finalPass (room + runs.flatten.length)) (offset : Nat)
    : Ensures w I
        (do
          let (cursors, heap) ← fillHeap file maximum cursors
          let (output, written) ← mergeRecords file maximum finalPass cursors heap 0 output
          failIf (written ≠ runs.flatten.length) (.invalidFormat "merged run row-count mismatch")
          return (output, offset))
        (fun result => result.2 = offset ∧ result.1.Takes options finalPass room)
        (Stopped w) := by
  apply Ensures.bind (fillHeap_total hI hfile hcursors hsorted hloads)
  rintro ⟨filled, heap⟩ ⟨rests, hfilled, hmerging⟩
  dsimp only at hfilled hmerging ⊢
  have hstart : output.Takes options finalPass (room + (runs.flatten.length
      - ([] : List RunRecord).length)) := houtput
  apply Ensures.bind (mergeRecords_total hI hfile hloads hcount hfilled hmerging hstart)
  rintro ⟨merged, written⟩ ⟨hmerged, rfl⟩
  dsimp only at hmerged ⊢
  rw [failIf_of_not (fun h => h rfl), Prog.ok_bind]
  exact .pure ⟨rfl, hmerged⟩

theorem mergeGroup_total (hI : LogInvariant I) (hlen : file.length < u64Bound)
    {group : List (List RunRecord)} (hfile : file = front ++ runsBytes group ++ back)
    (hfits : ∀ run ∈ group, RunFits run) (hsorted : ∀ run ∈ group, run.Pairwise (· ≤ ·))
    (hcapacity : 0 < bufferCapacity) (hloads : ∀ record ∈ group.flatten, record.Loads maximum)
    (houtput : output.Takes options finalPass (room + group.flatten.length))
    : Ensures w I
        (mergeGroup file maximum bufferCapacity finalPass (output, front.length) group.length)
        (fun result => result.2 = (front ++ runsBytes group).length
          ∧ result.1.Takes options finalPass room)
        (Stopped w) := by
  have hsize := congrArg List.length hfile
  rw [List.length_append, List.length_append, length_runsBytes, bodyBytes_flatten,
    List.length_flatMap] at hsize
  have hcount := four_mul_length_le group.flatten
  rw [bodyBytes_flatten, List.length_flatMap] at hcount
  unfold mergeGroup
  dsimp only
  apply Ensures.bind (checkCancelled_total hI _)
  intro _ _
  apply Ensures.bind (openRuns_total hI hlen hfile hfits hcapacity)
  rintro ⟨cursors, next⟩ ⟨hcursors, hbodyLens, rfl⟩
  dsimp only at hcursors hbodyLens ⊢
  have hbodySum : (cursors.map (·.bodyLen)).sum = (group.map fun run => (bodyBytes run).length).sum :=
    congrArg List.sum hbodyLens
  have hrowSum : (cursors.map (·.remaining)).sum = group.flatten.length := by
    rw [hcursors.map_remaining, List.length_flatten]
  rw [sumSizes_of_lt (by omega), Prog.ok_bind, sumSizes_of_lt (by omega), Prog.ok_bind,
    hrowSum, Nat.zero_add, Nat.zero_add]
  cases finalPass with
  | true => exact mergeOpened_total hI hlen hcursors hsorted hloads (by omega) houtput _
  | false =>
    apply Ensures.bind (MergeOutput.writeAll_total hI houtput _)
    intro headed₁ h₁
    apply Ensures.bind (MergeOutput.writeAll_total hI h₁ _)
    intro headed₂ h₂
    exact mergeOpened_total hI hlen hcursors hsorted hloads (by omega) h₂ _

theorem mergeGroups_total (hI : LogInvariant I) (hlen : file.length < u64Bound)
    {runs : List (List RunRecord)} (hfile : file = front ++ runsBytes runs)
    (hfits : ∀ run ∈ runs, RunFits run) (hsorted : ∀ run ∈ runs, run.Pairwise (· ≤ ·))
    (hcapacity : 0 < bufferCapacity) (hloads : ∀ record ∈ runs.flatten, record.Loads maximum)
    (houtput : output.Takes options finalPass runs.flatten.length) (fanIn : Nat)
    : Ensures w I
        ((groupLens runs.length fanIn).foldlM (mergeGroup file maximum bufferCapacity finalPass)
          (output, front.length))
        (fun result => result.1.Takes options finalPass 0) (Stopped w) := by
  induction hn : runs.length using Nat.strongRecOn generalizing runs front output with
  | ind n ih =>
    subst hn
    unfold groupLens
    split
    . next hgroup =>
      have hgroupLen : (runs.take (min runs.length fanIn)).length = min runs.length fanIn := by
        rw [List.length_take]
        omega
      have hrest : (runs.drop (min runs.length fanIn)).length
          = runs.length - min runs.length fanIn := List.length_drop
      have hsplit : runs.take (min runs.length fanIn) ++ runs.drop (min runs.length fanIn) = runs :=
        List.take_append_drop _ _
      generalize runs.take (min runs.length fanIn) = group at hgroupLen hsplit
      generalize runs.drop (min runs.length fanIn) = others at hrest hsplit
      have hflatten : runs.flatten = group.flatten ++ others.flatten := by
        rw [← hsplit, List.flatten_append]
      have hgroupMem (run : List RunRecord) (h : run ∈ group) : run ∈ runs :=
        hsplit ▸ List.mem_append_left others h
      have hothersMem (run : List RunRecord) (h : run ∈ others) : run ∈ runs :=
        hsplit ▸ List.mem_append_right group h
      have hfile' : file = front ++ runsBytes group ++ runsBytes others := by
        rw [hfile, ← hsplit, runsBytes_append, List.append_assoc]
      rw [hflatten, List.length_append, Nat.add_comm] at houtput
      rw [hflatten] at hloads
      rw [List.foldlM_cons, ← hgroupLen]
      apply Ensures.bind (mergeGroup_total hI hlen hfile' (fun run h => hfits run (hgroupMem run h))
        (fun run h => hsorted run (hgroupMem run h)) hcapacity
        (fun record h => hloads record (List.mem_append_left _ h)) houtput)
      rintro ⟨next, offset⟩ ⟨rfl, hnext⟩
      dsimp only at hnext
      rw [hgroupLen, ← hrest]
      exact ih _ (by omega) hfile' (fun run h => hfits run (hothersMem run h))
        (fun run h => hsorted run (hothersMem run h))
        (fun record h => hloads record (List.mem_append_right _ h)) hnext rfl
    . exact .pure (houtput.mono (Nat.zero_le _))

end Group

section Passes

variable {options : KeyIndexOptions}

theorem newOrderWriter_total (hI : LogInvariant I) (hpos : 0 < options.chunkBytes)
    : Ensures w I (newOrderWriter options) (fun writer => writer.Takes options []) (Stopped w) := by
  unfold newOrderWriter
  apply Ensures.bind (scratchFile_total hI)
  rintro _ rfl
  exact .pure (SectionScratchWriter.takes_new hpos)

theorem writeRunOrder_total (hI : LogInvariant I) {file : Bytes} (hfile : file.length < u64Bound)
    {run : RunCursor} {records : List RunRecord} (h : run.AtRun file records)
    {order : SectionScratchWriter} {bytes : Bytes} (horder : order.Takes options bytes)
    (hlen : bytes.length + 4 * records.length < u64Bound) {maximum : Nat}
    (hloads : ∀ record ∈ records, record.Loads maximum)
    : Ensures w I (writeRunOrder file maximum run order)
        (fun next => next.Takes options (bytes ++ orderBytes records)) (Stopped w) := by
  induction records generalizing run order bytes with
  | nil =>
    unfold writeRunOrder
    split
    . rw [checkRunEnd_of_nil h, Prog.ok_bind, orderBytes, List.flatMap_nil, List.append_nil]
      exact .pure horder
    . next hmore =>
      have := h.remaining
      rw [hmore] at this
      contradiction
  | cons record records ih =>
    unfold writeRunOrder
    split
    . next hzero =>
      have := h.remaining
      rw [hzero] at this
      contradiction
    . next more hmore =>
      have hleft := h.remaining
      rw [hmore] at hleft
      have hleftLen : more = records.length := Nat.succ.inj hleft
      have hinput : (bytes ++ Bytes.ofLE 4 record.ordinal).length = bytes.length + 4 := by
        rw [List.length_append, Bytes.length_ofLE]
      rw [List.length_cons] at hlen
      apply Ensures.bind (readRecord_total hI hfile h.reads (hloads record List.mem_cons_self))
      rintro ⟨read, next⟩ ⟨hread, hnext⟩
      dsimp only at hread hnext ⊢
      subst hread
      apply Ensures.bind (checkCancelled_total hI _)
      intro _ _
      apply Ensures.bind (@SectionScratchWriter.writeAll_total _ _ _ _ _ hI horder
        (Bytes.ofLE 4 read.ordinal) (by omega))
      intro order horder
      rw [hleftLen, orderBytes, List.flatMap_cons, ← List.append_assoc]
      exact ih hnext.atRun horder (by omega)
        fun record h => hloads record (List.mem_cons_of_mem _ h)

theorem checkOrderLen_of_eq {order : SectionFile} {rows : Nat} (h : order.len = 4 * rows)
    (hlt : 4 * rows < u64Bound)
    : checkOrderLen order rows = .ok () := by
  have hmul : rows * 4 < u64Bound := by omega
  rw [checkOrderLen, checkedMul_of_lt hmul, okOr_some, except_ok_bind, failIf_of_not (by omega)]

/-- The order of the records has the length that is expected. -/
theorem checkOrderLen_sectionOf {runs : List (List RunRecord)}
    (hlt : 4 * runs.flatten.length < u64Bound)
    : checkOrderLen (sectionOf .order options (orderBytes (KWayMerge.sorted runs.flatten)))
        runs.flatten.length = .ok () := by
  apply checkOrderLen_of_eq _ hlt
  rw [← (KWayMerge.sorted_perm runs.flatten).length_eq]
  exact length_orderBytes _

theorem mergePasses_total (hI : LogInvariant I) {file : Bytes} {runs : List (List RunRecord)}
    (hpos : 0 < options.chunkBytes) (hfile : file = runsBytes runs) (hlen : file.length < u64Bound)
    (hne : runs ≠ []) (hfits : ∀ run ∈ runs, RunFits run)
    (hsorted : ∀ run ∈ runs, run.Pairwise (· ≤ ·))
    (hloads : ∀ record ∈ runs.flatten, record.Loads options.buildMemoryBytes)
    {bufferCapacity : Nat} (hcapacity : 0 < bufferCapacity) {fanIn : Nat}
    (hfan : runs.length > 1 → fanIn ≥ 2)
    : Ensures w I
        (mergePasses file runs.length runs.flatten.length bufferCapacity fanIn options)
        (fun _ => True) (Stopped w) := by
  induction hn : runs.length using Nat.strongRecOn generalizing runs file with
  | ind n ih =>
    subst hn
    have hfile' : file = [] ++ runsBytes runs := hfile
    have hsize := congrArg List.length hfile
    rw [length_runsBytes] at hsize
    have hcount := four_mul_length_le runs.flatten
    unfold mergePasses
    split
    . next hseveral =>
      have hfan' : 0 < fanIn := Nat.lt_of_lt_of_le Nat.zero_lt_two hseveral.2
      dsimp only
      split
      . next hfinal =>
        apply Ensures.bind (newOrderWriter_total hI hpos)
        intro writer hwriter
        have hgroups := groupLens_of_le (Nat.lt_trans Nat.zero_lt_one hseveral.1) hfinal
        have hroom : (MergeOutput.order writer).Takes options true runs.flatten.length :=
          ⟨rfl, [], hwriter, by rw [List.length_nil]; omega⟩
        apply Ensures.bind ((@mergeGroups_gives _ _ _ _ _ (.order writer) _ _ hI true _ hfile' hfits
          hsorted hcapacity hwriter.holds options.buildMemoryBytes fanIn).and_ensures
          (mergeGroups_total hI hlen hfile' hfits hsorted hcapacity hloads hroom fanIn))
        rintro ⟨output, next⟩ ⟨⟨merged, hperm, hmergedLen, -, hmergedSorted, houtput⟩, htakes⟩
        dsimp only at houtput htakes ⊢
        rw [hgroups, List.length_singleton, List.length_eq_one_iff] at hmergedLen
        obtain ⟨run, rfl⟩ := hmergedLen
        have hrun := KWayMerge.eq_sorted (hperm hfan') (by
          rw [List.flatten_singleton]
          exact hmergedSorted run List.mem_cons_self)
        rw [outputBytes, if_pos rfl, hrun, List.nil_append] at houtput
        cases output with
        | runs writer => exact absurd htakes.1 (Ne.symm Bool.false_ne_true)
        | order writer =>
          obtain ⟨-, bytes, htaken, -⟩ := htakes
          apply Ensures.bind (SectionScratchWriter.intoSection_total hI ⟨houtput, htaken.ready⟩ .order)
          rintro _ rfl
          rw [hgroups, failIf_of_not (fun h => h rfl), Prog.ok_bind,
            checkOrderLen_sectionOf (by omega), Prog.ok_bind]
          exact .pure trivial
      . next hmore =>
        apply Ensures.bind (scratchFile_total hI)
        rintro _ rfl
        have hroom : (MergeOutput.runs (.new [] (scratchWriteBufferBytes options))).Takes options
            false runs.flatten.length := ⟨rfl, BufferedScratchWriter.ready_new [] options⟩
        apply Ensures.bind ((@mergeGroups_gives _ _ _ _ options
          (.runs (.new [] (scratchWriteBufferBytes options))) [] _ hI false _ hfile' hfits hsorted
          hcapacity (BufferedScratchWriter.contents_new [] _) options.buildMemoryBytes
          fanIn).and_ensures
          (mergeGroups_total hI hlen hfile' hfits hsorted hcapacity hloads hroom fanIn))
        rintro ⟨output, next⟩
          ⟨⟨merged, hperm, hmergedLen, hmergedFits, hmergedSorted, houtput⟩, htakes⟩
        dsimp only at houtput htakes ⊢
        have hfewer := length_groupLens_lt hseveral.1 hseveral.2
        have hmergedNe : merged ≠ [] := by
          rw [← List.length_pos_iff, hmergedLen]
          unfold groupLens
          rw [dif_pos ⟨by omega, hfan'⟩]
          exact Nat.zero_lt_succ _
        cases output with
        | order writer => exact absurd htakes.1 Bool.false_ne_true
        | runs writer =>
          apply Ensures.bind (BufferedScratchWriter.intoFile_total hI htakes.2)
          rintro _ rfl
          change writer.contents = _ at houtput
          rw [outputBytes, if_neg Bool.false_ne_true, List.nil_append] at houtput
          rw [← hmergedLen] at hfewer ⊢
          -- The merged runs take no more room than those before.
          have hshorter : writer.contents.length < u64Bound := by
            rw [houtput, length_runsBytes, length_bodyBytes_of_perm (hperm hfan')]
            omega
          rw [← (hperm hfan').length_eq]
          exact ih _ hfewer houtput hshorter hmergedNe hmergedFits hmergedSorted
            (fun record h => hloads record ((hperm hfan').mem_iff.mp h)) (fun _ => hseveral.2) rfl
    . next hone =>
      have hruns : runs.length = 1 := by
        have := List.length_pos_iff.mpr hne
        by_contra hseveral
        exact hone ⟨by omega, hfan (by omega)⟩
      obtain ⟨run, rfl⟩ := List.length_eq_one_iff.mp hruns
      rw [List.flatten_singleton] at hloads hsize hcount ⊢
      have hrunFile : file = [] ++ runBytes run ++ [] := by
        rw [hfile, runsBytes, List.flatMap_singleton, List.append_nil, List.nil_append]
      have hrunSorted := KWayMerge.eq_sorted (List.Perm.refl run)
        (hsorted run List.mem_cons_self)
      have horderLen := @checkOrderLen_sectionOf options [run] (by
        rw [List.flatten_singleton]
        omega)
      rw [List.flatten_singleton, ← hrunSorted] at horderLen
      apply Ensures.bind (readRunHeader_total hI hlen hrunFile (hfits run List.mem_cons_self)
        hcapacity)
      rintro ⟨cursor, next⟩ ⟨hreads, hremaining, -, hnext⟩
      dsimp only at hreads hremaining hnext ⊢
      rw [List.nil_append] at hnext
      have hend : next = file.length := by
        rw [hnext, hrunFile, List.nil_append, List.append_nil]
      rw [failIf_of_not (by omega), Prog.ok_bind]
      apply Ensures.bind (newOrderWriter_total hI hpos)
      intro order horder
      apply Ensures.bind (writeRunOrder_total hI hlen ⟨hreads, hremaining⟩ horder
        (by rw [List.length_nil]; omega) hloads)
      intro order horder
      rw [List.nil_append] at horder
      apply Ensures.bind (SectionScratchWriter.intoSection_total hI horder .order)
      rintro _ rfl
      rw [horderLen, Prog.ok_bind]
      exact .pure trivial

/-- A build that needs more than its memory. -/
def MemoryExceeded (options : KeyIndexOptions) (e : Error) : Prop :=
  ∃ needed, e = .limitExceeded "key_index_build_memory_bytes" needed options.buildMemoryBytes

/-- A merge of several runs can only lack the memory to hold a record of two of them. -/
theorem mergeRuns_total (hI : LogInvariant I) {file : Bytes} {runs : List (List RunRecord)}
    (hpos : 0 < options.chunkBytes) (hfile : file = runsBytes runs) (hlen : file.length < u64Bound)
    (hfits : ∀ run ∈ runs, RunFits run) (hsorted : ∀ run ∈ runs, run.Pairwise (· ≤ ·))
    (hloads : ∀ record ∈ runs.flatten, record.Loads options.buildMemoryBytes)
    {maximumRecordBytes : Nat} (hmaximum : maximumRecordBytes + 177 < u64Bound)
    : Ensures w I
        (mergeRuns file runs.length runs.flatten.length maximumRecordBytes options)
        (fun _ => True)
        (fun e => Stopped w e ∨ 1 < runs.length
          ∧ options.buildMemoryBytes < 2 * (maximumRecordBytes + 177) ∧ MemoryExceeded options e) := by
  unfold mergeRuns
  split
  . next hzero =>
    rw [List.length_eq_zero_iff] at hzero
    subst hzero
    rw [failIf_of_not (fun h => h rfl), Prog.ok_bind]
    apply Ensures.mono (Q := fun _ => True) (E := Stopped w) _ (fun _ h => h) fun _ he => .inl he
    apply Ensures.bind (newOrderWriter_total hI hpos)
    intro order horder
    exact (SectionScratchWriter.intoSection_total hI horder .order).mono (fun _ _ => trivial)
      fun _ he => he
  . next hne =>
    have hbase : checkedAdd maximumRecordBytes (sizeOfRunCursor + sizeOfHeapRecord + 64)
        = some (maximumRecordBytes + 176) := by
      apply checkedAdd_of_lt
      change maximumRecordBytes + 176 < u64Bound
      omega
    rw [hbase, okOr_some, Prog.ok_bind, checkedAdd_of_lt (by omega), okOr_some, Prog.ok_bind]
    dsimp only
    apply Ensures.liftM_bind
    . intro e he
      rw [failIf_eq_error] at he
      obtain ⟨⟨hseveral, hfan⟩, rfl⟩ := he
      refine .inr ⟨hseveral, ?_, _, rfl⟩
      have hmin : 2 ≤ maxMergeFanIn := by decide
      rw [mergeFanIn] at hfan
      have hdiv : options.buildMemoryBytes / (maximumRecordBytes + 176 + 1) < 2 := by omega
      have := (Nat.div_lt_iff_lt_mul (Nat.succ_pos _)).mp hdiv
      omega
    . intro _ hfan
      rw [failIf_eq_ok] at hfan
      apply (mergePasses_total hI hpos hfile hlen (fun hnil => hne (by rw [hnil]; rfl)) hfits hsorted
        hloads (runReadBuffer_pos hpos _ _ _) (by omega)).mono (fun _ h => h)
      exact fun _ he => .inl he

end Passes

end Mdict.Persistent
