import Mdict.Lemmas.Fresh

/-!
This module contains the simulation of the iterators by random access: as long as nothing fails, an
iterator stands at an ordinal, and its next item is what a fresh handle answers for that ordinal.
-/

namespace Mdict

open Effect MdictFile

/-! ## Runs of iterators -/

/-- The first `count` items of an iterator. -/
def items {ι α : Type} (next : ι → Exec (Option (Except Error α) × ι))
    : (count : Nat) → ι → Exec (List (Option (Except Error α)))
  | 0, _ => return []
  | count + 1, iter => do
    let (item, iter) ← next iter
    let rest ← items next count iter
    return item :: rest

/--
The first `count` items that iterating from `ordinal` on should yield, when `access` is what random
access answers: its answers up to the first failure, that failure, and nothing from then on.
-/
def accessed {α : Type} (access : Nat → Except Error (Option α))
    : (count ordinal : Nat) → List (Option (Except Error α))
  | 0, _ => []
  | count + 1, ordinal =>
    match access ordinal with
    | .ok (some a) => some (.ok a) :: accessed access count (ordinal + 1)
    | .ok none => List.replicate (count + 1) none
    | .error e => some (.error e) :: List.replicate count none

/-- One step of an iterator that stands at an ordinal yields what random access answers there. -/
def StepsLike {ι α : Type} (w : World) (I : Session → Prop) (stands : Nat → ι → Prop)
    (isDone : ι → Prop) (next : ι → Exec (Option (Except Error α) × ι))
    (access : Nat → Except Error (Option α))
    : Prop :=
  ∀ ordinal iter s, stands ordinal iter → I s → ∃ iter' s',
    match access ordinal with
    | .ok (some a) =>
      next iter w s = (.ok (some (.ok a), iter'), s') ∧ stands (ordinal + 1) iter' ∧ I s'
    | .ok none => next iter w s = (.ok (none, iter'), s') ∧ isDone iter'
    | .error e => next iter w s = (.ok (some (.error e), iter'), s') ∧ isDone iter'

section Items

variable {ι α : Type} {w : World} {I : Session → Prop} {stands : Nat → ι → Prop}
variable {isDone : ι → Prop} {next : ι → Exec (Option (Except Error α) × ι)}
variable {access : Nat → Except Error (Option α)}

/-- An iterator that is done yields nothing more. -/
theorem items_of_done
    (hdone : ∀ iter s, isDone iter → ∃ iter' s',
      next iter w s = (.ok (none, iter'), s') ∧ isDone iter')
    (count : Nat) {iter : ι} (h : isDone iter) (s : Session)
    : ∃ s', items next count iter w s = (.ok (List.replicate count none), s') := by
  induction count generalizing iter s with
  | zero => exact ⟨s, rfl⟩
  | succ count ih =>
    obtain ⟨iter', s', hnext, hdone'⟩ := hdone iter s h
    obtain ⟨s'', hrest⟩ := ih hdone' s'
    refine ⟨s'', ?_⟩
    rw [items, Prog.bind_of_ok hnext]
    dsimp only
    rw [Prog.bind_of_ok hrest]
    rfl

/-- A run of an iterator is a walk over the ordinals up to the first failure. -/
theorem items_eq (hstep : StepsLike w I stands isDone next access)
    (hdone : ∀ iter s, isDone iter → ∃ iter' s',
      next iter w s = (.ok (none, iter'), s') ∧ isDone iter')
    (count : Nat) {ordinal : Nat} {iter : ι} {s : Session} (h : stands ordinal iter) (hs : I s)
    : ∃ s', items next count iter w s = (.ok (accessed access count ordinal), s') := by
  induction count generalizing ordinal iter s with
  | zero => exact ⟨s, rfl⟩
  | succ count ih =>
    obtain ⟨iter', s', hnext⟩ := hstep ordinal iter s h hs
    unfold items accessed
    cases haccess : access ordinal with
    | ok found =>
      cases found with
      | some a =>
        rw [haccess] at hnext
        obtain ⟨hnext, hstands, hs'⟩ := hnext
        obtain ⟨s'', hrest⟩ := ih hstands hs'
        refine ⟨s'', ?_⟩
        rw [Prog.bind_of_ok hnext]
        dsimp only
        rw [Prog.bind_of_ok hrest]
        rfl
      | none =>
        rw [haccess] at hnext
        obtain ⟨s'', hrest⟩ := items_of_done hdone count hnext.2 s'
        refine ⟨s'', ?_⟩
        rw [Prog.bind_of_ok hnext.1]
        dsimp only
        rw [Prog.bind_of_ok hrest]
        rfl
    | error e =>
      rw [haccess] at hnext
      obtain ⟨s'', hrest⟩ := items_of_done hdone count hnext.2 s'
      refine ⟨s'', ?_⟩
      rw [Prog.bind_of_ok hnext.1]
      dsimp only
      rw [Prog.bind_of_ok hrest]
      rfl

end Items

/-! ## Rows -/

variable {file : MdictFile} {p : Platform} {w : World}

/-- A fresh handle finds an ordinal in the block that covers it. -/
theorem outcome_keyEntryAtOrdinal {ordinal i : Nat} {block : KeyBlockDescriptor}
    (hblock : file.layout.keyBlocks[i]? = some block) (hlo : block.entryStartIndex ≤ ordinal)
    (hhi : ordinal < block.entryStartIndex + block.entryCount)
    : outcome p (file.keyEntryAtOrdinal ordinal)
        = (file.freshRows p i).map fun rows => some ⟨i, ordinal - block.entryStartIndex, rows⟩ := by
  have hlt : ordinal < file.len := by
    have hend := file.layoutVerified.entryEnd hblock
    have hsum := Search.start_le_sum file.layout.entryCounts (i + 1)
    rw [file.layoutVerified.totalEntries] at hsum
    rw [len]
    omega
  obtain ⟨j, other, hother, hlo', hhi', hposition⟩ := file.keyPosition_eq hlt
  obtain rfl := file.layoutVerified.keyBlock_unique hblock hother ⟨hlo, hhi⟩ ⟨hlo', hhi'⟩
  rw [hblock, Option.some.injEq] at hother
  subst hother
  obtain ⟨s', hrun, hs'⟩ := @decodeKeyBlock_replies file _ (World.calm_quiet p) i .fresh
    clean_fresh
  have hrows : (World.calm p).platform = p := rfl
  rw [hrows] at hrun
  rw [outcome, keyEntryAtOrdinal, if_neg (by omega), hposition, Prog.ok_bind_apply]
  dsimp only
  cases hfresh : file.freshRows p i with
  | ok rows =>
    rw [hfresh] at hrun
    have hit : file.IsHit p ordinal ⟨i, ordinal - block.entryStartIndex, rows⟩ :=
      ⟨hlt, hposition, hfresh⟩
    rw [Prog.bind_of_ok hrun, failIf_of_not (by have := hit.entryIndex_lt; dsimp only at this; omega)]
    rfl
  | error e =>
    rw [hfresh] at hrun
    rw [Prog.bind_of_error hrun]
    rfl

theorem outcome_keyEntryAtOrdinal_of_ge {ordinal : Nat} (h : file.len ≤ ordinal)
    : outcome p (file.keyEntryAtOrdinal ordinal) = .ok none := by
  rw [outcome, keyEntryAtOrdinal, if_pos h]
  rfl

theorem le_of_keyEntryAtOrdinal {ordinal : Nat} {s s' : Session}
    (h : file.keyEntryAtOrdinal ordinal w s = (.ok none, s'))
    : file.len ≤ ordinal := by
  unfold keyEntryAtOrdinal at h
  split at h
  . next hge => exact hge
  . simp only [Prog.bind_eq_ok, Prog.pure_apply, Prod.mk.injEq, Except.ok.injEq, reduceCtorEq,
      false_and, and_false, exists_false] at h

/-- No key is found exactly past the last ordinal. -/
theorem keyAtOrdinal_eq_none {ordinal : Nat} {s : Session}
    : (file.keyAtOrdinal ordinal w s).1 = .ok none ↔ file.len ≤ ordinal := by
  constructor
  . intro h
    have hrun := Prod.ext (x := file.keyAtOrdinal ordinal w s) (y := (.ok none, _)) h rfl
    simp only [keyAtOrdinal, Prog.bind_eq_ok] at hrun
    obtain ⟨hit, _, hentry, hkey⟩ := hrun
    have hmiss : hit = none := by
      cases hit with
      | none => rfl
      | some hit =>
        simp only [Prog.bind_eq_ok, Prog.pure_apply, Prod.mk.injEq, Except.ok.injEq,
          reduceCtorEq, false_and, and_false, exists_false] at hkey
    subst hmiss
    exact le_of_keyEntryAtOrdinal hentry
  . intro h
    rw [keyAtOrdinal, keyEntryAtOrdinal, if_pos h]
    rfl

theorem isHit_of_outcome {ordinal : Nat} {hit : KeyBlockHit}
    (h : outcome p (file.keyEntryAtOrdinal ordinal) = .ok (some hit))
    : file.IsHit p ordinal hit := by
  have hrun := (keyEntryAtOrdinal_ensures (w := .calm p) (file.invariant_sound p) ordinal).outcome
    (file.sound_fresh p)
  rcases hrun.2.1 _ h with ⟨h, -⟩ | ⟨hit', h, hhit⟩
  . contradiction
  . injection h with h
    exact h ▸ hhit

/-- The iterator over rows will decode or yield the row of this ordinal next. -/
structure RowIter.StandsAt (file : MdictFile) (p : Platform) (ordinal : Nat) (iter : RowIter)
    : Prop where
  running : iter.done = false
  fetched : ∀ rows, iter.currentBlock = some rows → file.freshRows p iter.blockIndex = .ok rows
    ∧ iter.entryIndex ≤ rows.length
    ∧ ordinal = Search.start file.layout.entryCounts iter.blockIndex + iter.entryIndex
  unfetched : iter.currentBlock = none →
    ordinal = Search.start file.layout.entryCounts iter.blockIndex

theorem RowIter.standsAt_new : RowIter.new.StandsAt file p 0 where
  running := rfl
  fetched := by
    intro rows h
    contradiction
  unfetched := fun _ => by rw [RowIter.new, Search.start_zero]

/-- Where the iterator stands after it has come to a row. -/
def RowIter.at (hit : KeyBlockHit) : RowIter where
  blockIndex := hit.blockIndex
  entryIndex := hit.entryIndex
  currentBlock := some hit.entries
  done := false

/-- Advancing from an ordinal comes to its row, unless its block fails on a fresh handle. -/
theorem RowIter.advance_run (hw : w.Quiet)
    (hpos : ∀ block ∈ file.layout.keyBlocks, 0 < block.entryCount) {ordinal : Nat}
    {iter : RowIter} {s : Session} (h : iter.StandsAt file w.platform ordinal)
    (hs : file.Clean w.platform s)
    : ∃ iter' s', match outcome w.platform (file.keyEntryAtOrdinal ordinal) with
        | .ok (some hit) =>
          iter.advance file w s
              = (.ok (some (.ok (hit.blockIndex, hit.entryIndex, hit.entries)), .at hit), s')
            ∧ file.Clean w.platform s'
        | .ok none => iter.advance file w s = (.ok (none, iter'), s') ∧ iter'.done = true
        | .error e =>
          iter.advance file w s = (.ok (some (.error e), iter'), s') ∧ iter'.done = true := by
  obtain ⟨blockIndex, entryIndex, currentBlock, done⟩ := iter
  obtain rfl : done = false := h.running
  induction hn : file.keyBlockCount - blockIndex using Nat.strongRecOn
    generalizing blockIndex entryIndex currentBlock with
  | ind n ih =>
    unfold RowIter.advance
    by_cases hend : blockIndex ≥ file.keyBlockCount
    . have hordinal : file.len ≤ ordinal := by
        cases currentBlock with
        | some rows =>
          obtain ⟨block, hblock, -⟩ := file.entryCount_of_freshRows _ (h.fetched rows rfl).1
          have := (List.getElem?_eq_some_iff.mp hblock).1
          rw [keyBlockCount] at hend
          dsimp only at this
          omega
        | none =>
          rw [h.unfetched rfl, len, ← file.layoutVerified.totalEntries, Search.start,
            List.take_of_length_le]
          rw [ValidatedLayout.entryCounts, List.length_map]
          exact hend
      rw [outcome_keyEntryAtOrdinal_of_ge hordinal]
      dsimp only
      rw [if_pos hend]
      exact ⟨_, s, rfl, rfl⟩
    . dsimp only
      rw [if_neg hend]
      obtain ⟨block, hblock⟩ : ∃ block, file.layout.keyBlocks[blockIndex]? = some block :=
        ⟨_, List.getElem?_eq_getElem (Nat.lt_of_not_ge hend)⟩
      have hstart := file.layoutVerified.entryStart _ block hblock
      have hstop := file.layoutVerified.entryEnd hblock
      -- A block of which a row is due is the one that random access goes to.
      have hfound (offset : Nat) (hoffset : offset < block.entryCount)
          (hordinal : ordinal = Search.start file.layout.entryCounts blockIndex + offset)
          := @outcome_keyEntryAtOrdinal _ w.platform ordinal _ _ hblock (by omega)
            (by omega)
      cases currentBlock with
      | some rows =>
        obtain ⟨hrows, hle, hordinal⟩ := h.fetched rows rfl
        dsimp only at hrows hle hordinal
        obtain ⟨other, hother, hlen, -⟩ := file.entryCount_of_freshRows _ hrows
        rw [hblock, Option.some.injEq] at hother
        subst hother
        dsimp only
        by_cases hlast : entryIndex ≥ rows.length
        . rw [if_pos hlast]
          apply ih (file.keyBlockCount - (blockIndex + 1)) (by omega) _ _ _ _ rfl
          exact ⟨rfl, fun _ h => by contradiction, fun _ => by dsimp only; omega⟩
        . rw [if_neg hlast, hfound entryIndex (by omega) hordinal, hrows]
          rw [show ordinal - block.entryStartIndex = entryIndex by omega]
          exact ⟨.new, s, rfl, hs⟩
      | none =>
        have hordinal := h.unfetched rfl
        dsimp only at hordinal
        have hcount := hpos block (List.mem_iff_getElem?.mpr ⟨_, hblock⟩)
        obtain ⟨s', hrun, hs'⟩ := decodeKeyBlock_replies hw blockIndex s hs
        rw [hfound 0 hcount hordinal, show ordinal - block.entryStartIndex = 0 by omega]
        dsimp only
        rw [Prog.attempt_bind_apply, hrun]
        cases hrows : file.freshRows w.platform blockIndex with
        | ok rows =>
          obtain ⟨-, -, -, hne⟩ := file.entryCount_of_freshRows _ hrows
          have hlen := List.length_pos_iff.mpr hne
          dsimp only
          rw [if_neg (by omega)]
          exact ⟨.new, s', rfl, hs' rows hrows⟩
        | error e => exact ⟨_, s', rfl, rfl⟩

/-- Past a row the iterator stands at the next ordinal. -/
theorem RowIter.standsAt_succ {ordinal : Nat} {hit : KeyBlockHit}
    (hhit : file.IsHit p ordinal hit)
    : RowIter.StandsAt file p (ordinal + 1)
        { RowIter.at hit with entryIndex := hit.entryIndex + 1 } where
  running := rfl
  fetched := by
    obtain ⟨block, hblock, hordinal, hlt, hlen⟩ := hhit.exists_block
    have hstart := file.layoutVerified.entryStart _ block hblock
    rintro _ ⟨⟩
    refine ⟨hhit.rows, ?_, ?_⟩
    . dsimp only
      omega
    . dsimp only [RowIter.at]
      omega
  unfetched := by
    intro h
    contradiction

/-- Past the last row of a block it stands at the first row of the next one. -/
theorem RowIter.standsAt_nextBlock {ordinal : Nat} {hit : KeyBlockHit}
    (hhit : file.IsHit p ordinal hit) (hlast : hit.entryIndex + 1 = hit.entries.length)
    : RowIter.StandsAt file p (ordinal + 1)
        { blockIndex := hit.blockIndex + 1, entryIndex := 0, currentBlock := none, done := false }
    where
  running := rfl
  fetched := by
    intro rows h
    contradiction
  unfetched := by
    obtain ⟨block, hblock, hordinal, hlt, hlen⟩ := hhit.exists_block
    have hstop := file.layoutVerified.entryEnd hblock
    intro _
    dsimp only
    omega

/-! ## Iterators -/

section Steps

variable (hw : w.Quiet) (hpos : ∀ block ∈ file.layout.keyBlocks, 0 < block.entryCount)
include hw hpos

/-- The key iterator goes through the keys in order. -/
theorem nextKey_steps
    : StepsLike w (file.Clean w.platform) (fun ordinal iter => iter.StandsAt file w.platform ordinal)
        (fun iter => iter.done = true) (KeyIter.next file)
        (fun ordinal => outcome w.platform (file.keyAtOrdinal ordinal)) := by
  intro ordinal iter s h hs
  obtain ⟨iter', s', hadvance⟩ := RowIter.advance_run hw hpos h hs
  dsimp only
  unfold keyAtOrdinal
  rw [Determined.outcome_bind (keyEntryAtOrdinal_determined ordinal) ?determined
    (@clean_fresh file w.platform)]
  case determined =>
    intro hit
    cases hit with
    | none => exact .pure
    | some hit => exact .bind (.liftM clean_events) fun _ => .pure
  unfold KeyIter.next
  rw [if_neg (by rw [h.running]; exact Bool.false_ne_true)]
  cases hentry : outcome w.platform (file.keyEntryAtOrdinal ordinal) with
  | ok found =>
    rw [hentry] at hadvance
    cases found with
    | some hit =>
      obtain ⟨hrun, hs'⟩ := hadvance
      have hhit := isHit_of_outcome hentry
      obtain ⟨block, hblock, hordinal, -⟩ := hhit.exists_block
      have hlt := hhit.lt
      have hbound := file.layoutVerified.totalEntries_lt
      have hadd : checkedAdd block.entryStartIndex hit.entryIndex = some ordinal := by
        rw [checkedAdd_eq_some]
        rw [len] at hlt
        omega
      have hrow := List.getElem?_eq_getElem hhit.entryIndex_lt
      rw [Prog.bind_of_ok hrun]
      refine ⟨{ RowIter.at hit with entryIndex := hit.entryIndex + 1 }, s', ?_⟩
      simp only [except_ok_bind, hrow, okOr_some, hblock, hadd]
      exact ⟨rfl, RowIter.standsAt_succ hhit, hs'⟩
    | none =>
      obtain ⟨hrun, hdone⟩ := hadvance
      rw [Prog.bind_of_ok hrun]
      exact ⟨iter', s', rfl, hdone⟩
  | error e =>
    rw [hentry] at hadvance
    obtain ⟨hrun, hdone⟩ := hadvance
    rw [Prog.bind_of_ok hrun]
    exact ⟨iter', s', rfl, hdone⟩

/-- The record iterator goes through the records in order. -/
theorem nextRecord_steps
    : StepsLike w (file.Clean w.platform) (fun ordinal iter => iter.StandsAt file w.platform ordinal)
        (fun iter => iter.done = true) (RecordIter.next file)
        (fun ordinal => outcome w.platform (file.recordAtOrdinal ordinal)) := by
  intro ordinal iter s h hs
  obtain ⟨iter', s', hadvance⟩ := RowIter.advance_run hw hpos h hs
  dsimp only
  unfold recordAtOrdinal
  rw [Determined.outcome_bind (keyEntryAtOrdinal_determined ordinal) ?determined
    (@clean_fresh file w.platform)]
  case determined =>
    intro hit
    cases hit with
    | none => exact .pure
    | some hit => exact .bind (recordDescriptorFromHit_determined hit) fun _ => .pure
  unfold RecordIter.next
  rw [if_neg (by rw [h.running]; exact Bool.false_ne_true)]
  cases hentry : outcome w.platform (file.keyEntryAtOrdinal ordinal) with
  | ok found =>
    rw [hentry] at hadvance
    cases found with
    | some hit =>
      obtain ⟨hrun, hs'⟩ := hadvance
      have hhit := isHit_of_outcome hentry
      obtain ⟨s'', hdescriptor, hs''⟩ :=
        (recordDescriptorFromHit_determined hit).replies clean_fresh hw s' hs'
      rw [Prog.bind_of_ok hrun]
      dsimp only
      rw [Prog.attempt_bind_apply, hdescriptor, except_ok_bind, Determined.outcome_bind
        (recordDescriptorFromHit_determined hit) (fun _ => .pure) clean_fresh]
      cases hresult : outcome w.platform (file.recordDescriptorFromHit hit) with
      | ok descriptor =>
        refine ⟨_, s'', rfl, ?_, hs'' descriptor hresult⟩
        dsimp only
        split
        . next hlast => exact RowIter.standsAt_nextBlock hhit hlast
        . exact RowIter.standsAt_succ hhit
      | error e => exact ⟨_, s'', rfl, rfl⟩
    | none =>
      obtain ⟨hrun, hdone⟩ := hadvance
      rw [Prog.bind_of_ok hrun]
      exact ⟨iter', s', rfl, hdone⟩
  | error e =>
    rw [hentry] at hadvance
    obtain ⟨hrun, hdone⟩ := hadvance
    rw [Prog.bind_of_ok hrun]
    exact ⟨iter', s', rfl, hdone⟩

end Steps

theorem nextKey_done (iter : RowIter) (s : Session) (h : iter.done = true)
    : ∃ iter' s', KeyIter.next file iter w s = (.ok (none, iter'), s') ∧ iter'.done = true := by
  unfold KeyIter.next
  rw [if_pos h]
  exact ⟨iter, s, rfl, h⟩

theorem nextRecord_done (iter : RowIter) (s : Session) (h : iter.done = true)
    : ∃ iter' s', RecordIter.next file iter w s = (.ok (none, iter'), s') ∧ iter'.done = true := by
  unfold RecordIter.next
  rw [if_pos h]
  exact ⟨iter, s, rfl, h⟩

/-! ## Entries and resources -/

section Read

variable {ι α : Type} {make : RowIter → Bool → ι}
variable {next : ι → Exec (Option (Except Error α) × ι)} {read : RecordDescriptor → Exec α}

/-- Reading the record of an ordinal. -/
def readAt (file : MdictFile) (read : RecordDescriptor → Exec α) (ordinal : Nat)
    : Exec (Option α) := do
  let descriptor ← file.recordAtOrdinal ordinal
  match descriptor with
  | none => return none
  | some descriptor =>
    let a ← read descriptor
    return some a

theorem readAt_determined {p : Platform}
    (hread : ∀ descriptor, Determined p (file.Clean p) (read descriptor)) (ordinal : Nat)
    : Determined p (file.Clean p) (readAt file read ordinal) := by
  refine .bind (recordAtOrdinal_determined ordinal) fun descriptor => ?_
  cases descriptor with
  | none => exact .pure
  | some descriptor => exact .bind (hread descriptor) fun _ => .pure

/-- Nothing is read exactly past the last ordinal. -/
theorem readAt_eq_none {ordinal : Nat} {s : Session}
    : (readAt file read ordinal w s).1 = .ok none ↔ file.len ≤ ordinal := by
  constructor
  . intro h
    have hrun := Prod.ext (x := readAt file read ordinal w s) (y := (.ok none, _)) h rfl
    simp only [readAt, recordAtOrdinal, Prog.bind_eq_ok] at hrun
    obtain ⟨descriptor, _, ⟨hit, _, hentry, hdescriptor⟩, hread⟩ := hrun
    have hnone : descriptor = none := by
      cases descriptor with
      | none => rfl
      | some descriptor =>
        simp only [Prog.bind_eq_ok, Prog.pure_apply, Prod.mk.injEq, Except.ok.injEq,
          reduceCtorEq, false_and, and_false, exists_false] at hread
    subst hnone
    have hmiss : hit = none := by
      cases hit with
      | none => rfl
      | some hit =>
        simp only [Prog.bind_eq_ok, Prog.pure_apply, Prod.mk.injEq, Except.ok.injEq,
          reduceCtorEq, false_and, and_false, exists_false] at hdescriptor
    subst hmiss
    exact le_of_keyEntryAtOrdinal hentry
  . intro h
    rw [readAt, recordAtOrdinal, keyEntryAtOrdinal, if_pos h]
    rfl

/-- An iterator that reads the records of the record iterator and is fused after a failure. -/
structure ReadsRecords (file : MdictFile) (make : RowIter → Bool → ι)
    (next : ι → Exec (Option (Except Error α) × ι)) (read : RecordDescriptor → Exec α) : Prop where
  fused : ∀ records, next (make records true) = pure (none, make records true)
  next_eq : ∀ records, next (make records false) = do
    let (descriptor, records) ← RecordIter.next file records
    match descriptor with
    | none => return (none, make records false)
    | some (.error error) => return (some (.error error), make records true)
    | some (.ok descriptor) =>
      let result ← Prog.attempt (read descriptor)
      return (some result, make records (result.isOk == false))

/-- Such an iterator goes through what is read at the ordinals in order. -/
theorem ReadsRecords.steps (h : ReadsRecords file make next read) (hw : w.Quiet)
    (hpos : ∀ block ∈ file.layout.keyBlocks, 0 < block.entryCount)
    (hread : ∀ descriptor, Determined w.platform (file.Clean w.platform) (read descriptor))
    : StepsLike w (file.Clean w.platform)
        (fun ordinal iter => ∃ records, iter = make records false
          ∧ records.StandsAt file w.platform ordinal)
        (fun iter => ∃ records done, iter = make records done ∧ (done = true ∨ records.done = true))
        next (fun ordinal => outcome w.platform (readAt file read ordinal)) := by
  rintro ordinal _ s ⟨records, rfl, hstands⟩ hs
  obtain ⟨records', s', hnext⟩ := nextRecord_steps hw hpos ordinal records s hstands hs
  have haccess := Determined.outcome_bind (recordAtOrdinal_determined ordinal)
    (fun descriptor => by
      cases descriptor with
      | none => exact .pure
      | some descriptor => exact .bind (hread descriptor) fun _ => .pure)
    (@clean_fresh file w.platform) (f := fun descriptor => match descriptor with
      | none => (return none : Exec (Option α))
      | some descriptor => do
        let a ← read descriptor
        return some a)
  change outcome w.platform (readAt file read ordinal) = _ at haccess
  dsimp only at hnext ⊢
  rw [haccess, h.next_eq]
  cases hrecord : outcome w.platform (file.recordAtOrdinal ordinal) with
  | ok found =>
    rw [hrecord] at hnext
    cases found with
    | some descriptor =>
      obtain ⟨hrun, hstands', hs'⟩ := hnext
      obtain ⟨s'', hresult, hs''⟩ := (hread descriptor).replies clean_fresh hw s' hs'
      rw [Prog.bind_of_ok hrun]
      dsimp only
      rw [Prog.attempt_bind_apply, hresult, except_ok_bind,
        Determined.outcome_bind (hread descriptor) (fun _ => .pure) clean_fresh]
      cases hr : outcome w.platform (read descriptor) with
      | ok a => exact ⟨_, s'', rfl, ⟨records', rfl, hstands'⟩, hs'' a hr⟩
      | error e => exact ⟨_, s'', rfl, records', true, rfl, .inl rfl⟩
    | none =>
      obtain ⟨hrun, hdone⟩ := hnext
      rw [Prog.bind_of_ok hrun]
      exact ⟨_, s', rfl, records', false, rfl, .inr hdone⟩
  | error e =>
    rw [hrecord] at hnext
    obtain ⟨hrun, hdone⟩ := hnext
    rw [Prog.bind_of_ok hrun]
    exact ⟨_, s', rfl, records', true, rfl, .inl rfl⟩

theorem ReadsRecords.done (h : ReadsRecords file make next read) (iter : ι) (s : Session)
    (hdone : ∃ records done, iter = make records done ∧ (done = true ∨ records.done = true))
    : ∃ iter' s', next iter w s = (.ok (none, iter'), s')
        ∧ ∃ records done, iter' = make records done ∧ (done = true ∨ records.done = true) := by
  obtain ⟨records, done, rfl, hdone⟩ := hdone
  cases done with
  | true =>
    rw [h.fused]
    exact ⟨_, s, rfl, records, true, rfl, .inl rfl⟩
  | false =>
    obtain ⟨records', s', hrun, hdone'⟩ := @nextRecord_done file w records s
      (hdone.resolve_left Bool.false_ne_true)
    rw [h.next_eq, Prog.bind_of_ok hrun]
    exact ⟨_, s', rfl, records', false, rfl, .inr hdone'⟩

end Read

theorem MdxEntryIter.readsRecords (mdx : MdxFile)
    : ReadsRecords mdx.inner MdxEntryIter.mk (MdxEntryIter.next mdx) mdx.readEntry where
  fused := fun _ => rfl
  next_eq := fun _ => rfl

theorem MddResourceIter.readsRecords (mdd : MddFile)
    : ReadsRecords mdd.inner MddResourceIter.mk (MddResourceIter.next mdd) mdd.readResource where
  fused := fun _ => rfl
  next_eq := fun _ => rfl

theorem MdxFile.entryAt_eq (mdx : MdxFile) (ordinal : Nat)
    : mdx.entryAt ordinal = readAt mdx.inner mdx.readEntry ordinal := rfl

/-- A resource is read at its ordinal; the span in between changes nothing. -/
theorem MddFile.resourceAt_eq (mdd : MddFile) (ordinal : Nat)
    : mdd.resourceAt ordinal = readAt mdd.inner mdd.readResource ordinal := by
  rw [resourceAt, spanAt, readAt, bind_assoc]
  congr 1
  funext descriptor
  cases descriptor with
  | none => rfl
  | some descriptor =>
    have hread : mdd.readResource descriptor = do
        let bytes ← mdd.inner.readRecordSpan descriptor.start descriptor.stop
        return { key := descriptor.key, bytes } := rfl
    dsimp only
    rw [bind_assoc, hread]
    cases hvalid : mdd.inner.validateRecordSpan descriptor.start descriptor.stop with
    | ok len =>
      rw [MddResourceSpan.new, hvalid]
      rfl
    | error e =>
      rw [MddResourceSpan.new, hvalid, readRecordSpan, materializedRecordSpanLen, hvalid]
      rfl

/-- A lookup is a search and then an access. -/
theorem MddFile.lookup_eq (mdd : MddFile) (query : Str)
    : mdd.lookup query = (do
        let found ← mdd.locate query
        match found with
        | none => return none
        | some found =>
          let first ← okOr (found.ordinalAt 0)
            (.panic "KeyMatches always contains at least one ordinal")
          mdd.resourceAt first) := by
  rw [lookup, lookupSpan, bind_assoc]
  congr 1
  funext found
  cases found with
  | none => rfl
  | some found =>
    rw [bind_assoc]
    rfl

end Mdict
