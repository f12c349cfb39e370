import Mdict.Lemmas.Dictionary

/-!
This module contains that the iterators over a file whose blocks decode step through the entries of
its dictionary, whatever other calls come in between, and with this the refinement as a whole.
-/

namespace Mdict

open Effect MdictFile

/-- In a world in which nothing goes wrong, a caught failure is part of the answer. -/
theorem Answers.attempt {α : Type} {w : World} {I : Session → Prop} {x : Exec α}
    {r : Except Error α} (hw : w.Quiet) (h : Answers w I x r)
    : Answers w I (Prog.attempt x) (.ok r) := by
  apply Ensures.attempt
  apply h.mono
  . intro a ha
    exact congrArg Except.ok ha
  . rintro e (he | he)
    . exact absurd he (not_interrupted hw)
    . exact congrArg Except.ok he

variable {file : MdictFile} {w : World} {I : Session → Prop} {p : Platform}
variable {blocks : List (List DecodedKeyRow)} {decoded : List Bytes}

/-! ## Rows -/

/-- Advancing from an ordinal comes to its row, or to the end. -/
theorem RowIter.advance_answers (hw : w.Quiet) (hI : file.Invariant w.platform I)
    (hblocks : file.DecodesTo w.platform blocks) {ordinal : Nat} {iter : RowIter}
    (h : iter.StandsAt file w.platform ordinal)
    : (∃ hit, file.IsHit w.platform ordinal hit
        ∧ Answers w I (iter.advance file)
            (.ok (some (.ok (hit.blockIndex, hit.entryIndex, hit.entries)), .at hit)))
      ∨ file.len ≤ ordinal ∧ ∃ iter', iter'.done = true
        ∧ Answers w I (iter.advance file) (.ok (none, iter')) := by
  obtain ⟨blockIndex, entryIndex, currentBlock, done⟩ := iter
  obtain rfl : done = false := h.running
  induction hn : file.keyBlockCount - blockIndex using Nat.strongRecOn
    generalizing blockIndex entryIndex currentBlock with
  | ind n ih =>
    unfold RowIter.advance
    by_cases hend : blockIndex ≥ file.keyBlockCount
    . right
      dsimp only
      rw [if_pos hend]
      refine ⟨?_, _, rfl, .pure⟩
      cases currentBlock with
      | some rows =>
        obtain ⟨block, hblock, -⟩ := file.entryCount_of_freshRows _ (h.fetched rows rfl).1
        have := (List.getElem?_eq_some_iff.mp hblock).1
        rw [keyBlockCount] at hend
        dsimp only at this
        omega
      | none =>
        rw [h.unfetched rfl, len, ← file.layoutVerified.totalEntries, Search.start,
          List.take_of_length_le]
        rw [ValidatedLayout.entryCounts, List.length_map]
        exact hend
    . dsimp only
      rw [if_neg hend]
      obtain ⟨rows, hindex⟩ : ∃ rows, blocks[blockIndex]? = some rows :=
        ⟨_, List.getElem?_eq_getElem (by rw [hblocks.length_eq]; omega)⟩
      have hrows := hblocks.freshRows _ _ hindex
      obtain ⟨block, hblock, hlen, hne⟩ := file.entryCount_of_freshRows _ hrows
      have hstart := file.layoutVerified.entryStart _ block hblock
      have hstop := file.layoutVerified.entryEnd hblock
      -- A block of which a row is due is the one that random access goes to.
      have hhit (offset : Nat) (hoffset : offset < rows.length)
          (hordinal : ordinal = Search.start file.layout.entryCounts blockIndex + offset)
          : file.IsHit w.platform ordinal ⟨blockIndex, offset, rows⟩ := by
        apply isHit_of_outcome
        rw [outcome_keyEntryAtOrdinal hblock (by omega) (by omega), hrows,
          show ordinal - block.entryStartIndex = offset by omega]
        rfl
      cases currentBlock with
      | some rows' =>
        obtain ⟨hrows', hle, hordinal⟩ := h.fetched rows' rfl
        dsimp only at hrows' hle hordinal
        obtain rfl : rows = rows' := by
          rw [hrows, Except.ok.injEq] at hrows'
          exact hrows'
        dsimp only
        by_cases hlast : entryIndex ≥ rows.length
        . rw [if_pos hlast]
          apply ih (file.keyBlockCount - (blockIndex + 1)) (by omega) _ _ _ _ rfl
          exact ⟨rfl, fun _ h => by contradiction, fun _ => by dsimp only; omega⟩
        . rw [if_neg hlast]
          exact .inl ⟨_, hhit entryIndex (by omega) hordinal, .pure⟩
      | none =>
        have hpos := List.length_pos_iff.mpr hne
        left
        refine ⟨_, hhit 0 hpos (h.unfetched rfl), ?_⟩
        apply (Answers.attempt hw (decodeKeyBlock_answers hI hblocks hindex)).bind_ok
        dsimp only
        rw [if_neg (by omega)]
        exact .pure

/-! ## Iterators and their places -/

/-- Where an iterator stands: at an ordinal, or at the end. -/
def IsAt {ι : Type} (stands : Nat → ι → Prop) (isDone : ι → Prop)
    : (place : Option Nat) → (iter : ι) → Prop
  | some ordinal, iter => stands ordinal iter
  | none, iter => isDone iter

/-- An iterator that is at a place steps through what `read` finds at the ordinals. -/
def StepsThrough {ι α : Type} (w : World) (I : Session → Prop) (isAt : Option Nat → ι → Prop)
    (next : ι → Exec (Option (Except Error α) × ι)) (read : Nat → Except Error (Option α))
    : Prop :=
  ∀ place iter, isAt place iter →
    ∃ iter', Answers w I (next iter) (.ok ((stepPlace read place).1, iter'))
      ∧ isAt (stepPlace read place).2 iter'

theorem forall₂_set {α β : Type} {R : α → β → Prop} {xs : List α} {ys : List β}
    (h : List.Forall₂ R xs ys) {x : α} {y : β} (hxy : R x y) (i : Nat)
    : List.Forall₂ R (xs.set i x) (ys.set i y) := by
  induction h generalizing i with
  | nil => exact .nil
  | cons hhead htail ih =>
    cases i with
    | zero => exact .cons hxy htail
    | succ i => exact .cons hhead (ih i)

/-- A step of one of many iterators keeps all of them at their places. -/
theorem StepsThrough.stepAt {ι α : Type} {isAt : Option Nat → ι → Prop}
    {next : ι → Exec (Option (Except Error α) × ι)} {read : Nat → Except Error (Option α)}
    (h : StepsThrough w I isAt next read) {places : List (Option Nat)} {iters : List ι}
    (hat : List.Forall₂ isAt places iters) (iterator : Nat)
    : ∃ iters', Answers w I (Mdict.stepAt next iters iterator)
          (.ok ((stepPlaceAt read places iterator).1, iters'))
        ∧ List.Forall₂ isAt (stepPlaceAt read places iterator).2 iters' := by
  unfold Mdict.stepAt stepPlaceAt
  have hlength := hat.length_eq
  by_cases hlt : iterator < places.length
  . have hplace := List.getElem?_eq_getElem hlt
    have hiter := List.getElem?_eq_getElem (hlength ▸ hlt)
    rw [hplace, hiter]
    obtain ⟨iter', hnext, hat'⟩ := h _ _ ((List.forall₂_iff_get.mp hat).2 iterator hlt (hlength ▸ hlt))
    exact ⟨_, hnext.bind_ok .pure, forall₂_set hat hat' iterator⟩
  . rw [List.getElem?_eq_none (by omega), List.getElem?_eq_none (by omega)]
    exact ⟨iters, .pure, hat⟩

/-- What an iterator at a place yields. -/
def placeItems {α : Type} (read : Nat → Except Error (Option α)) (count : Nat)
    : (place : Option Nat) → List (Option (Except Error α))
  | some ordinal => accessed read count ordinal
  | none => List.replicate count none

theorem placeItems_succ {α : Type} {read : Nat → Except Error (Option α)} {count : Nat}
    {place : Option Nat}
    : placeItems read (count + 1) place
        = (stepPlace read place).1 :: placeItems read count (stepPlace read place).2 := by
  cases place with
  | none => rfl
  | some ordinal =>
    rw [placeItems, accessed, stepPlace]
    cases read ordinal with
    | error e => rfl
    | ok found => cases found <;> rfl

/-- A run of an iterator yields what is found from its place on. -/
theorem StepsThrough.items {ι α : Type} {isAt : Option Nat → ι → Prop}
    {next : ι → Exec (Option (Except Error α) × ι)} {read : Nat → Except Error (Option α)}
    (h : StepsThrough w I isAt next read) (count : Nat) {place : Option Nat} {iter : ι}
    (hat : isAt place iter)
    : Answers w I (Mdict.items next count iter) (.ok (placeItems read count place)) := by
  induction count generalizing place iter with
  | zero =>
    cases place with
    | none => exact .pure
    | some ordinal => exact .pure
  | succ count ih =>
    obtain ⟨iter', hnext, hat'⟩ := h place iter hat
    rw [placeItems_succ]
    exact hnext.bind_ok ((ih hat').bind_ok .pure)

/-- Where an iterator over rows stands. -/
abbrev RowIter.IsAt (file : MdictFile) (p : Platform) : Option Nat → RowIter → Prop :=
  Mdict.IsAt (fun ordinal iter => iter.StandsAt file p ordinal) (fun iter => iter.done = true)

theorem nextKey_stepsThrough (hw : w.Quiet) (hI : file.Invariant w.platform I)
    (hblocks : file.DecodesTo w.platform blocks)
    : StepsThrough w I (RowIter.IsAt file w.platform) (KeyIter.next file)
        (fun ordinal => .ok ((file.dictionary blocks decoded).keyAt ordinal)) := by
  intro place iter hat
  unfold KeyIter.next
  cases place with
  | none =>
    have hdone : iter.done = true := hat
    rw [if_pos hdone]
    exact ⟨iter, .pure, hat⟩
  | some ordinal =>
    have hrunning := RowIter.StandsAt.running hat
    rw [if_neg (by rw [hrunning]; exact Bool.false_ne_true)]
    dsimp only [stepPlace]
    rw [keyAt_dictionary]
    rcases RowIter.advance_answers hw hI hblocks hat with
      ⟨hit, hhit, hadvance⟩ | ⟨hge, iter', hdone, hadvance⟩
    . obtain ⟨block, hblock, hordinal, -⟩ := hhit.exists_block
      have hlt := hhit.lt
      have hbound := file.layoutVerified.totalEntries_lt
      have hadd : checkedAdd block.entryStartIndex hit.entryIndex = some ordinal := by
        rw [checkedAdd_eq_some]
        rw [len] at hlt
        omega
      obtain ⟨row, hrow⟩ : ∃ row, hit.entries[hit.entryIndex]? = some row :=
        ⟨_, List.getElem?_eq_getElem hhit.entryIndex_lt⟩
      have hkey : (keysOf blocks)[ordinal]? = some row.key := by
        rw [keysOf, List.getElem?_map, ← hhit.row_eq hblocks, hrow]
        rfl
      rw [hkey]
      refine ⟨{ RowIter.at hit with entryIndex := hit.entryIndex + 1 }, ?_,
        RowIter.standsAt_succ hhit⟩
      apply hadvance.bind_ok
      simp only [except_ok_bind, hrow, okOr_some, hblock, hadd]
      exact .pure
    . rw [List.getElem?_eq_none (by rw [hblocks.length_keysOf]; exact hge)]
      exact ⟨iter', hadvance.bind_ok .pure, hdone⟩

/-- The record iterator steps through the descriptors of the records. -/
theorem nextRecord_stepsThrough (hw : w.Quiet) (hI : file.Invariant w.platform I)
    (hblocks : file.DecodesTo w.platform blocks)
    : StepsThrough w I (RowIter.IsAt file w.platform) (RecordIter.next file)
        (fun ordinal =>
          .ok (descriptorsOf file.layout.totalDecodedRecordLen blocks.flatten)[ordinal]?) := by
  intro place iter hat
  unfold RecordIter.next
  cases place with
  | none =>
    have hdone : iter.done = true := hat
    rw [if_pos hdone]
    exact ⟨iter, .pure, hat⟩
  | some ordinal =>
    have hrunning := RowIter.StandsAt.running hat
    rw [if_neg (by rw [hrunning]; exact Bool.false_ne_true)]
    dsimp only [stepPlace]
    rw [descriptorsOf, List.getElem?_mapIdx]
    rcases RowIter.advance_answers hw hI hblocks hat with
      ⟨hit, hhit, hadvance⟩ | ⟨hge, iter', hdone, hadvance⟩
    . have hrow := hhit.row_eq hblocks
      rw [List.getElem?_eq_getElem hhit.entryIndex_lt] at hrow
      rw [← hrow]
      have hdescriptor := Answers.attempt hw
        (recordDescriptorFromHit_answers hI hblocks hhit hrow.symm)
      by_cases hlast : hit.entryIndex + 1 = hit.entries.length
      . refine ⟨_, ?_, RowIter.standsAt_nextBlock hhit hlast⟩
        apply hadvance.bind_ok
        apply hdescriptor.bind_ok
        dsimp only
        rw [if_pos hlast]
        exact .pure
      . refine ⟨_, ?_, RowIter.standsAt_succ hhit⟩
        apply hadvance.bind_ok
        apply hdescriptor.bind_ok
        dsimp only
        rw [if_neg hlast]
        exact .pure
    . rw [List.getElem?_eq_none (by rw [hblocks.length_flatten]; exact hge)]
      exact ⟨iter', hadvance.bind_ok .pure, hdone⟩

section Read

variable {ι α : Type} {make : RowIter → Bool → ι}
variable {next : ι → Exec (Option (Except Error α) × ι)} {read : RecordDescriptor → Exec α}
variable {reads : KeyEntry → Bytes → Except Error α}

/-- Where an iterator that reads the records of the record iterator stands. -/
abbrev RecordsAt (make : RowIter → Bool → ι) (file : MdictFile) (p : Platform)
    : Option Nat → ι → Prop :=
  IsAt (fun ordinal iter => ∃ records, iter = make records false ∧ records.StandsAt file p ordinal)
    (fun iter => ∃ records done, iter = make records done ∧ (done = true ∨ records.done = true))

/-- Such an iterator steps through what is read of the entries. -/
theorem ReadsRecords.stepsThrough (h : ReadsRecords file make next read) (hw : w.Quiet)
    (hI : file.Invariant w.platform I) (hblocks : file.DecodesTo w.platform blocks)
    (hdecoded : file.RecordsDecodeTo w.platform decoded)
    (hread : ∀ descriptor, descriptor.start ≤ descriptor.stop →
      descriptor.stop ≤ decoded.flatten.length →
        Answers w I (read descriptor) (reads descriptor.key
          (Search.slice decoded.flatten descriptor.start descriptor.stop)))
    : StepsThrough w I (RecordsAt make file w.platform) next
        ((file.dictionary blocks decoded).readAt reads) := by
  have hrecords := nextRecord_stepsThrough hw hI hblocks
  rintro (_ | ordinal) iter hat
  . obtain ⟨records, done, rfl, hdone⟩ := hat
    cases done with
    | true =>
      rw [h.fused]
      exact ⟨_, .pure, records, true, rfl, .inl rfl⟩
    | false =>
      obtain ⟨records', hnext, hat'⟩ :=
        hrecords none records (hdone.resolve_left Bool.false_ne_true)
      rw [h.next_eq]
      exact ⟨_, hnext.bind_ok .pure, records', false, rfl, .inr hat'⟩
  . obtain ⟨records, rfl, hstands⟩ := hat
    obtain ⟨records', hnext, hat'⟩ := hrecords (some ordinal) records hstands
    rw [h.next_eq]
    dsimp only [stepPlace, Dictionary.readAt] at hnext hat' ⊢
    rw [entries_dictionary]
    cases hdescriptor :
        (descriptorsOf file.layout.totalDecodedRecordLen blocks.flatten)[ordinal]? with
    | none =>
      rw [hdescriptor] at hnext hat'
      exact ⟨_, hnext.bind_ok .pure, records', false, rfl, .inr hat'⟩
    | some descriptor =>
      rw [hdescriptor] at hnext hat'
      obtain ⟨row, hrow, rfl⟩ := descriptorsOf_eq_some hdescriptor
      obtain ⟨hle, hstop⟩ := le_stopOf hblocks.startsFrom hrow
      generalize stopOf file.layout.totalDecodedRecordLen blocks.flatten ordinal = stop at *
      have hresult := Answers.attempt hw (hread ⟨⟨ordinal, row.key⟩, row.recordStart, stop⟩ hle
        (hstop.trans_eq hdecoded.length_flatten.symm))
      dsimp only [Option.map_some] at hnext hresult ⊢
      cases hr : reads ⟨ordinal, row.key⟩ (Search.slice decoded.flatten row.recordStart stop) with
      | ok a =>
        rw [hr] at hresult
        exact ⟨_, hnext.bind_ok (hresult.bind_ok .pure), records', rfl, hat'⟩
      | error e =>
        rw [hr] at hresult
        exact ⟨_, hnext.bind_ok (hresult.bind_ok .pure), records', true, rfl, .inl rfl⟩

end Read

/-! ## The refinement -/

/-- The session is sound, and the iterators stand at the places that the caller knows. -/
structure Desk.Serves (file : MdictFile) (p : Platform) (I : Session → Prop) (desk : Desk)
    (places : Places)
    : Prop where
  session : I desk.session
  keys : List.Forall₂ (RowIter.IsAt file p) places.keys desk.keys
  entries : List.Forall₂ (RecordsAt MdxEntryIter.mk file p) places.entries desk.entries
  resources : List.Forall₂ (RecordsAt MddResourceIter.mk file p) places.resources desk.resources

theorem Desk.serves_new {s : Session} (hs : I s) : Desk.Serves file p I (.new s) .none where
  session := hs
  keys := .nil
  entries := .nil
  resources := .nil

theorem Desk.call_of_ok {α : Type} {x : Exec α} {desk : Desk} {a : α} {s : Session}
    (h : x w desk.session = (.ok a, s))
    : Desk.call x w desk = (.ok a, { desk with session := s }) := by
  rw [Desk.call, h]

theorem Desk.step_of_ok {ι α : Type} {held : Desk → List ι} {hold : Desk → List ι → Desk}
    {next : ι → Exec (Option (Except Error α) × ι)} {iterator : Nat} {desk : Desk} {iters : List ι}
    {item : Option (Except Error α)} {s : Session}
    (h : stepAt next (held desk) iterator w desk.session = (.ok (item, iters), s))
    : Desk.step held hold next iterator w desk
        = (.ok item, hold { desk with session := s } iters) := by
  rw [Desk.step, Prog.get_bind_apply, Prog.bind_of_ok (Desk.call_of_ok h)]
  rfl

namespace Desk.Serves

variable {desk : Desk} {places : Places} {α : Type} {x : Exec α} {r : Except Error α}

/-- A call answers and moves no iterator. -/
theorem call (h : desk.Serves file p I places) (hw : w.Quiet) (hx : Answers w I x r)
    : (Desk.call x w desk).1 = r ∧ (Desk.call x w desk).2.Serves file p I places := by
  obtain ⟨s', hrun, hs'⟩ := hx.quiet hw h.session
  rw [Desk.call, hrun]
  exact ⟨rfl, hs', h.keys, h.entries, h.resources⟩

end Desk.Serves

/-- A file whose blocks decode refines the dictionary of its entries. -/
theorem MdictFile.Represents.refines {d : Dictionary} (h : file.Represents w.platform d)
    (hw : w.Quiet) (hI : file.Invariant w.platform I)
    : Client.Refines w (Desk.Serves file w.platform I)
        (fun _ question => question.Within d w.platform) file.answer (d.answer w.platform) := by
  obtain ⟨blocks, decoded, hblocks, hdecoded, rfl⟩ := h
  intro α question desk places hwithin hserves
  cases question with
  | len =>
    have hlen := congrArg List.length (@keys_dictionary file blocks decoded)
    rw [Dictionary.keys, List.length_map, hblocks.length_keysOf] at hlen
    exact ⟨congrArg Except.ok hlen.symm, hserves⟩
  | keyAt ordinal =>
    have hkey := keyAtOrdinal_answers hI hblocks ordinal
    rw [← @keyAt_dictionary file blocks decoded] at hkey
    exact hserves.call hw hkey
  | keysAt ordinals =>
    have hkeys := keysAtOrdinals_answers hI hblocks ordinals
    have hmap : (fun ordinal => (keysOf blocks)[ordinal]?.map (KeyEntry.mk ordinal))
        = (file.dictionary blocks decoded).keyAt :=
      funext fun ordinal => (keyAt_dictionary ordinal).symm
    rw [hmap] at hkeys
    exact hserves.call hw hkeys
  | entryAt ordinal => exact hserves.call hw (entryAt_dictionary hI hblocks hdecoded ordinal)
  | resourceAt ordinal =>
    exact hserves.call hw (resourceAt_dictionary hI hblocks hdecoded ordinal)
  | copyResourceAt ordinal destination =>
    exact hserves.call hw (copyResourceAt_dictionary hI hblocks hdecoded ordinal destination)
  | locate query mode =>
    exact hserves.call hw (locateWithMode_dictionary hI hblocks mode hwithin)
  | locatePage query offset limit mode =>
    exact hserves.call hw (locatePageWithMode_dictionary hI hblocks offset limit mode hwithin)
  | prefixKeys keyPrefix limit => exact hserves.call hw (prefixKeys_dictionary hI hblocks hwithin)
  | scanNormalizedKeys visit acc =>
    exact hserves.call hw (scanNormalizedKeys_dictionary hI hblocks hwithin visit acc)
  | lookupEntry query =>
    exact hserves.call hw
      (lookup_dictionary hI hblocks hwithin (entryAt_dictionary hI hblocks hdecoded))
  | lookupResource query =>
    have hlookup := lookup_dictionary hI hblocks hwithin
      (resourceAt_dictionary hI hblocks hdecoded)
    have heq : MddFile.lookup ⟨file⟩ query = _ := MddFile.lookup_eq ⟨file⟩ query
    exact hserves.call hw (heq ▸ hlookup)
  | keys =>
    exact ⟨congrArg Except.ok hserves.keys.length_eq.symm, hserves.session,
      List.rel_append hserves.keys (.cons RowIter.standsAt_new .nil), hserves.entries,
      hserves.resources⟩
  | nextKey iterator =>
    obtain ⟨iters, hnext, hat⟩ :=
      (@nextKey_stepsThrough _ _ _ _ decoded hw hI hblocks).stepAt hserves.keys iterator
    obtain ⟨s', hrun, hs'⟩ := hnext.quiet hw hserves.session
    rw [answer, Desk.step_of_ok hrun]
    exact ⟨rfl, hs', hat, hserves.entries, hserves.resources⟩
  | entries =>
    exact ⟨congrArg Except.ok hserves.entries.length_eq.symm, hserves.session, hserves.keys,
      List.rel_append hserves.entries (.cons ⟨.new, rfl, RowIter.standsAt_new⟩ .nil),
      hserves.resources⟩
  | nextEntry iterator =>
    obtain ⟨iters, hnext, hat⟩ := ((MdxEntryIter.readsRecords ⟨file⟩).stepsThrough hw hI hblocks
      hdecoded (readEntry_dictionary hI hdecoded)).stepAt hserves.entries iterator
    obtain ⟨s', hrun, hs'⟩ := hnext.quiet hw hserves.session
    rw [answer, Desk.step_of_ok hrun]
    exact ⟨rfl, hs', hserves.keys, hat, hserves.resources⟩
  | resources =>
    exact ⟨congrArg Except.ok hserves.resources.length_eq.symm, hserves.session, hserves.keys,
      hserves.entries, List.rel_append hserves.resources
        (.cons ⟨.new, rfl, RowIter.standsAt_new⟩ .nil)⟩
  | nextResource iterator =>
    obtain ⟨iters, hnext, hat⟩ := ((MddResourceIter.readsRecords ⟨file⟩).stepsThrough hw hI hblocks
      hdecoded (readResource_dictionary hI hdecoded)).stepAt hserves.resources iterator
    obtain ⟨s', hrun, hs'⟩ := hnext.quiet hw hserves.session
    rw [answer, Desk.step_of_ok hrun]
    exact ⟨rfl, hs', hserves.keys, hserves.entries, hat⟩

end Mdict
