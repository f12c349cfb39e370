import Mdict.Lemmas.Sound

/-!
This module contains what the operations on single keys and blocks answer when the caches are
sound.
-/

namespace Mdict.MdictFile

open Effect

variable {file : MdictFile} {w : World} {I : Session → Prop}
variable {blocks : List (List DecodedKeyRow)}

/-! ## Blocks -/

/-- Decoding a key block answers with what a fresh handle finds in this block or before. -/
theorem decodeKeyBlock_ensures (hI : file.Invariant w.platform I) (index : Nat)
    : Ensures w I (file.decodeKeyBlock index)
        (fun rows => file.freshRows w.platform index = .ok rows)
        (fun e => Interrupted w e ∨
          ∃ origin, origin ≤ index ∧ file.freshRows w.platform origin = .error e) := by
  intro s hs
  obtain ⟨r, events, cache', hrun, hcache⟩ := file.decodeKeyBlock_run index w s
  obtain ⟨hsound, hok, herror⟩ := (hI.sound s hs).keyBlock.run hcache
  rw [hrun]
  have hs' := hI.events _ events (hI.keyBlock s cache' hs hsound)
  cases r with
  | ok rows => exact ⟨hs', hok rows rfl⟩
  | error e => exact ⟨hs', herror e rfl⟩

theorem decodeKeyBlock_answers (hI : file.Invariant w.platform I)
    (h : file.DecodesTo w.platform blocks) {index : Nat} {rows : List DecodedKeyRow}
    (hindex : blocks[index]? = some rows)
    : Answers w I (file.decodeKeyBlock index) (.ok rows) := by
  apply (decodeKeyBlock_ensures hI index).mono
  . intro rows' hrows'
    rw [h.freshRows index rows hindex] at hrows'
    exact hrows'
  . intro e he
    rcases he with he | ⟨origin, hle, he⟩
    . exact .inl he
    . have hlt : origin < blocks.length := by
        have := (List.getElem?_eq_some_iff.mp hindex).1
        omega
      rw [h.freshRows origin _ (List.getElem?_eq_getElem hlt)] at he
      contradiction

theorem decodeRecordBlock_answers (hI : file.Invariant w.platform I) (index : Nat)
    : Answers w I (file.decodeRecordBlock index) (file.ownRecords w.platform index) := by
  intro s hs
  obtain ⟨r, events, cache', hrun, hsound, hr⟩ :=
    file.decodeRecordBlock_run index w s (hI.sound s hs).recordBlock
  rw [hrun]
  have hs' := hI.events _ events (hI.recordBlock s cache' hs hsound)
  cases r with
  | ok data =>
    rcases hr with hr | ⟨e, -, he⟩
    . exact ⟨hs', hr⟩
    . contradiction
  | error e =>
    rcases hr with hr | ⟨e', he', he⟩
    . exact ⟨hs', .inr hr⟩
    . injection he with he
      exact ⟨hs', .inl (he ▸ he')⟩

/-! ## Keys -/

section Hits

variable (file) (p : Platform)

/-- The row of an ordinal in its decoded block. -/
structure IsHit (ordinal : Nat) (hit : KeyBlockHit) : Prop where
  lt : ordinal < file.len
  position : file.keyPosition ordinal = .ok (hit.blockIndex, hit.entryIndex)
  rows : file.freshRows p hit.blockIndex = .ok hit.entries

variable {file} {p}

theorem IsHit.exists_block {ordinal : Nat} {hit : KeyBlockHit} (h : file.IsHit p ordinal hit)
    : ∃ block, file.layout.keyBlocks[hit.blockIndex]? = some block
        ∧ block.entryStartIndex + hit.entryIndex = ordinal
        ∧ hit.entryIndex < block.entryCount
        ∧ hit.entries.length = block.entryCount := by
  obtain ⟨i, block, hblock, hlo, hhi, hposition⟩ := file.keyPosition_eq h.lt
  rw [h.position, Except.ok.injEq, Prod.mk.injEq] at hposition
  obtain ⟨hi, hj⟩ := hposition
  rw [← hi] at hblock
  obtain ⟨block', hblock', hlen, -⟩ :=
    file.ownRows_eq_ok p ((file.freshRows_eq_ok p).mp h.rows).1
  rw [hblock, Option.some.injEq] at hblock'
  subst hblock'
  exact ⟨block, hblock, by omega, by omega, hlen⟩

theorem IsHit.entryIndex_lt {ordinal : Nat} {hit : KeyBlockHit} (h : file.IsHit p ordinal hit)
    : hit.entryIndex < hit.entries.length := by
  obtain ⟨block, -, -, hlt, hlen⟩ := h.exists_block
  omega

theorem IsHit.unique {ordinal : Nat} {hit hit' : KeyBlockHit} (h : file.IsHit p ordinal hit)
    (h' : file.IsHit p ordinal hit')
    : hit = hit' := by
  have hposition := h.position
  rw [h'.position, Except.ok.injEq, Prod.mk.injEq] at hposition
  have hrows := h.rows
  rw [← hposition.1, h'.rows, Except.ok.injEq] at hrows
  cases hit
  cases hit'
  simp_all

theorem IsHit.block_eq {ordinal : Nat} {hit : KeyBlockHit} (h : file.IsHit p ordinal hit)
    (hblocks : file.DecodesTo p blocks)
    : blocks[hit.blockIndex]? = some hit.entries := by
  obtain ⟨block, hblock, -⟩ := h.exists_block
  have hlt : hit.blockIndex < blocks.length := by
    rw [hblocks.length_eq]
    exact (List.getElem?_eq_some_iff.mp hblock).1
  have hrows := List.getElem?_eq_getElem hlt
  have := hblocks.freshRows _ _ hrows
  rw [h.rows, Except.ok.injEq] at this
  rw [hrows, this]

/-- In a dictionary that decodes, the row of an ordinal is the one at its place in all rows. -/
theorem IsHit.row_eq {ordinal : Nat} {hit : KeyBlockHit} (h : file.IsHit p ordinal hit)
    (hblocks : file.DecodesTo p blocks)
    : hit.entries[hit.entryIndex]? = blocks.flatten[ordinal]? := by
  obtain ⟨i, j, rows, hposition, hi, -, heq⟩ := hblocks.keyPosition_eq h.lt
  rw [h.position, Except.ok.injEq, Prod.mk.injEq] at hposition
  rw [← hposition.1, h.block_eq hblocks, Option.some.injEq] at hi
  rw [← heq, hi, hposition.2]

/-- A failure that a fresh handle meets in the block of an ordinal or in one before. -/
structure FailsAt (file : MdictFile) (p : Platform) (ordinal : Nat) (e : Error) : Prop where
  lt : ordinal < file.len
  origin : ∃ i j origin, file.keyPosition ordinal = .ok (i, j) ∧ origin ≤ i
    ∧ file.freshRows p origin = .error e

theorem DecodesTo.not_failsAt (h : file.DecodesTo p blocks) {ordinal : Nat} {e : Error}
    : ¬file.FailsAt p ordinal e := by
  rintro ⟨hlt, i, j, origin, hposition, hle, he⟩
  obtain ⟨i', j', rows, hposition', hi, -⟩ := h.keyPosition_eq hlt
  rw [hposition, Except.ok.injEq, Prod.mk.injEq] at hposition'
  have hlt' : origin < blocks.length := by
    have := (List.getElem?_eq_some_iff.mp hi).1
    omega
  rw [h.freshRows origin _ (List.getElem?_eq_getElem hlt')] at he
  contradiction

end Hits

/-- A key that is found is the one that a fresh handle finds; a failure is one of its blocks'. -/
theorem keyEntryAtOrdinal_ensures (hI : file.Invariant w.platform I) (ordinal : Nat)
    : Ensures w I (file.keyEntryAtOrdinal ordinal)
        (fun found => (found = none ∧ file.len ≤ ordinal)
          ∨ ∃ hit, found = some hit ∧ file.IsHit w.platform ordinal hit)
        (fun e => Interrupted w e ∨ file.FailsAt w.platform ordinal e) := by
  unfold keyEntryAtOrdinal
  split
  . next hge => exact .pure (.inl ⟨rfl, hge⟩)
  . next hlt =>
    have hlt : ordinal < file.len := by omega
    obtain ⟨i, block, hblock, hlo, hhi, hposition⟩ := file.keyPosition_eq hlt
    rw [hposition]
    apply Ensures.bind (.liftM (fun position hok => hok) (fun e he => by contradiction))
    rintro ⟨_, _⟩ heq
    cases heq
    dsimp only
    apply Ensures.bind
    . apply (decodeKeyBlock_ensures hI i).mono (fun _ h => h)
      rintro e (he | ⟨origin, hle, he⟩)
      . exact .inl he
      . exact .inr ⟨hlt, i, _, origin, hposition, hle, he⟩
    . intro rows hrows
      have hit : file.IsHit w.platform ordinal ⟨i, ordinal - block.entryStartIndex, rows⟩ :=
        ⟨hlt, hposition, hrows⟩
      rw [failIf_of_not (by have := hit.entryIndex_lt; dsimp only at this; omega)]
      apply Ensures.bind (R := fun _ => True) (.liftM (fun _ _ => trivial) (fun e he => by contradiction))
      intro _ _
      exact .pure (.inr ⟨_, rfl, hit⟩)

/-- In a dictionary that decodes, every ordinal has its row. -/
theorem keyEntryAtOrdinal_answers (hI : file.Invariant w.platform I)
    (h : file.DecodesTo w.platform blocks) {ordinal : Nat} (hlt : ordinal < file.len)
    : ∃ hit, file.IsHit w.platform ordinal hit
        ∧ Answers w I (file.keyEntryAtOrdinal ordinal) (.ok (some hit)) := by
  obtain ⟨i, j, rows, hposition, hi, hj, -⟩ := h.keyPosition_eq hlt
  have hhit : file.IsHit w.platform ordinal ⟨i, j, rows⟩ :=
    ⟨hlt, hposition, h.freshRows i rows hi⟩
  refine ⟨_, hhit, (keyEntryAtOrdinal_ensures hI ordinal).mono ?_ ?_⟩
  . rintro found (⟨-, hge⟩ | ⟨hit, rfl, hhit'⟩)
    . omega
    . rw [hhit.unique hhit']
  . rintro e (he | he)
    . exact .inl he
    . exact absurd he h.not_failsAt

/-- The key of an ordinal: what a fresh handle answers. -/
def HasKey (file : MdictFile) (p : Platform) (ordinal : Nat) (key : Str) : Prop :=
  ∃ hit row, file.IsHit p ordinal hit ∧ hit.entries[hit.entryIndex]? = some row ∧ row.key = key

theorem HasKey.unique {p : Platform} {ordinal : Nat} {key key' : Str}
    (h : file.HasKey p ordinal key) (h' : file.HasKey p ordinal key')
    : key = key' := by
  obtain ⟨hit, row, hhit, hrow, rfl⟩ := h
  obtain ⟨hit', row', hhit', hrow', rfl⟩ := h'
  rw [hhit.unique hhit', hrow', Option.some.injEq] at hrow
  rw [hrow]

theorem HasKey.lt {p : Platform} {ordinal : Nat} {key : Str} (h : file.HasKey p ordinal key)
    : ordinal < file.len := by
  obtain ⟨hit, row, hhit, -⟩ := h
  exact hhit.lt

theorem DecodesTo.hasKey_iff {p : Platform} (h : file.DecodesTo p blocks) {ordinal : Nat}
    {key : Str}
    : file.HasKey p ordinal key ↔ (keysOf blocks)[ordinal]? = some key := by
  rw [keysOf, List.getElem?_map, Option.map_eq_some_iff]
  constructor
  . rintro ⟨hit, row, hhit, hrow, hkey⟩
    exact ⟨row, by rw [← hhit.row_eq h, hrow], hkey⟩
  . rintro ⟨row, hrow, hkey⟩
    have hlt : ordinal < file.len := by
      rw [← h.length_flatten]
      exact (List.getElem?_eq_some_iff.mp hrow).1
    obtain ⟨i, j, rows, hposition, hi, -, heq⟩ := h.keyPosition_eq hlt
    exact ⟨⟨i, j, rows⟩, row, ⟨hlt, hposition, h.freshRows i rows hi⟩, by rw [← hrow, ← heq], hkey⟩

theorem keyAtOrdinal_ensures (hI : file.Invariant w.platform I) (ordinal : Nat)
    : Ensures w I (file.keyAtOrdinal ordinal)
        (fun found => (found = none ∧ file.len ≤ ordinal)
          ∨ ∃ key, found = some ⟨ordinal, key⟩ ∧ file.HasKey w.platform ordinal key)
        (fun e => Interrupted w e ∨ file.FailsAt w.platform ordinal e) := by
  apply Ensures.bind (keyEntryAtOrdinal_ensures hI ordinal)
  rintro found (⟨rfl, hge⟩ | ⟨hit, rfl, hhit⟩)
  . exact .pure (.inl ⟨rfl, hge⟩)
  . have hlt := hhit.entryIndex_lt
    have hrow := List.getElem?_eq_getElem hlt
    dsimp only
    rw [hrow, okOr_some]
    apply Ensures.bind (R := fun row => row = hit.entries[hit.entryIndex])
    . exact .liftM (fun row heq => by injection heq with heq; exact heq.symm)
        (fun e he => by contradiction)
    . rintro _ rfl
      exact .pure (.inr ⟨_, rfl, hit, _, hhit, hrow, rfl⟩)

theorem keyAtOrdinal_answers (hI : file.Invariant w.platform I)
    (h : file.DecodesTo w.platform blocks) (ordinal : Nat)
    : Answers w I (file.keyAtOrdinal ordinal)
        (.ok ((keysOf blocks)[ordinal]?.map fun key => ⟨ordinal, key⟩)) := by
  apply (keyAtOrdinal_ensures hI ordinal).mono
  . rintro found (⟨rfl, hge⟩ | ⟨key, rfl, hkey⟩)
    . rw [List.getElem?_eq_none (by rw [h.length_keysOf]; exact hge)]
      rfl
    . rw [h.hasKey_iff.mp hkey]
      rfl
  . rintro e (he | he)
    . exact .inl he
    . exact absurd he h.not_failsAt

end Mdict.MdictFile
