import Mdict.Lemmas.Iter
import Mdict.Lemmas.Sample

/-!
This module contains how far the key block cache is transparent. A failure that a block inherits
from its predecessor is kept for the block itself, and reaches the next one from there.
-/

namespace Mdict

open Effect MdictFile

namespace MdictFile

variable {file : MdictFile} {p : Platform} {w : World} {s : Session}

/-- The rows of a block do not start before the last row of the block before. -/
def Joins (before rows : List DecodedKeyRow) : Prop :=
  ∀ last first, before.getLast? = some last → rows.head? = some first →
    last.recordStart ≤ first.recordStart

/--
Three blocks in a row of which the second and the third decode on their own and join, while the
first does not decode on its own or does not join the second.
-/
def LeaksAt (file : MdictFile) (p : Platform) (index : Nat) : Prop :=
  ∃ rows rows', file.ownRows p (index + 1) = .ok rows ∧ file.ownRows p (index + 2) = .ok rows'
    ∧ Joins rows rows' ∧ ¬∃ before, file.ownRows p index = .ok before ∧ Joins before rows

theorem freshRows_succ_eq_ok {index : Nat} {rows : List DecodedKeyRow}
    : file.freshRows p (index + 1) = .ok rows ↔ file.ownRows p (index + 1) = .ok rows
        ∧ ∃ before, file.ownRows p index = .ok before ∧ Joins before rows := by
  rw [freshRows_eq_ok]
  constructor
  . intro h
    exact ⟨h.1, h.2 index rfl⟩
  . intro h
    refine ⟨h.1, ?_⟩
    rintro previous heq
    obtain rfl : previous = index := by omega
    exact h.2

/-- Where nothing leaks, a block fails on a fresh handle when one before it does. -/
theorem freshRows_error_of_le (h : ∀ index, ¬file.LeaksAt p index) {origin index : Nat} {e : Error}
    (hle : origin ≤ index) (he : file.freshRows p origin = .error e)
    : ∃ e, file.freshRows p index = .error e := by
  induction index, hle using Nat.le_induction with
  | base => exact ⟨e, he⟩
  | succ index _ ih =>
    obtain ⟨e', he'⟩ := ih
    cases hnext : file.freshRows p (index + 1) with
    | error e => exact ⟨e, rfl⟩
    | ok rows' =>
      obtain ⟨hown', rows, hown, hjoins⟩ := freshRows_succ_eq_ok.mp hnext
      exfalso
      cases index with
      | zero =>
        rw [(file.freshRows_eq_ok p).mpr ⟨hown, fun _ h => by contradiction⟩] at he'
        contradiction
      | succ index =>
        refine h index ⟨rows, rows', hown, hown', hjoins, ?_⟩
        intro hbefore
        rw [freshRows_succ_eq_ok.mpr ⟨hown, hbefore⟩] at he'
        contradiction

/-- A key is not found when its block fails. -/
theorem keyAtOrdinal_error {ordinal i j : Nat} {e : Error} {s' : Session}
    (hlt : ordinal < file.len) (hposition : file.keyPosition ordinal = .ok (i, j))
    (hrun : file.decodeKeyBlock i w s = (.error e, s'))
    : file.keyAtOrdinal ordinal w s = (.error e, s') := by
  rw [keyAtOrdinal, keyEntryAtOrdinal, if_neg (by omega), hposition, bind_assoc,
    Prog.ok_bind_apply]
  dsimp only
  rw [bind_assoc, Prog.bind_of_error hrun]

/-- The first ordinal of a block that decodes on its own is at position 0 of the block. -/
theorem exists_ordinal {index : Nat} {rows : List DecodedKeyRow}
    (h : file.ownRows p index = .ok rows)
    : ∃ ordinal, ordinal < file.len ∧ file.keyPosition ordinal = .ok (index, 0) := by
  obtain ⟨block, hblock, hlen, hne, -⟩ := file.ownRows_eq_ok p h
  have hpos := List.length_pos_iff.mpr hne
  have hstop := file.layoutVerified.entryEnd hblock
  have hsum := Search.start_le_sum file.layout.entryCounts (index + 1)
  rw [file.layoutVerified.totalEntries] at hsum
  have hlt : block.entryStartIndex < file.len := by
    rw [len]
    omega
  refine ⟨block.entryStartIndex, hlt, ?_⟩
  obtain ⟨i, other, hother, hlo, hhi, hposition⟩ := file.keyPosition_eq hlt
  obtain rfl := file.layoutVerified.keyBlock_unique hblock hother ⟨Nat.le_refl _, by omega⟩ ⟨hlo, hhi⟩
  rw [hblock, Option.some.injEq] at hother
  subst hother
  rw [hposition, Nat.sub_self]

/-- A failure on a fresh handle is kept for the block that was asked for. -/
theorem decodeKeyBlock_keeps (hw : w.Quiet) {index : Nat} {e : Error}
    (he : file.freshRows w.platform index = .error e)
    : ∃ events failure, file.decodeKeyBlock index w .fresh
        = (.error e, { Session.fresh with
            events, keyBlockCache := some (index, .failed failure) }) := by
  obtain ⟨r, events, cache', hrun, hcache⟩ := file.decodeKeyBlock_run index w .fresh
  have hmiss : file.missResult w.platform index Session.fresh.keyBlockCache = .error e := by
    rw [← he, freshRows_eq]
    rfl
  cases hcache with
  | hit value hit => contradiction
  | kept value miss result =>
    rw [hmiss] at result
    cases value with
    | ready rows => contradiction
    | failed failure => exact ⟨events, failure, by rw [hrun, result]⟩
  | dropped error cache' cache'_eq cause unkept =>
    rcases cause with cause | cause
    . exact absurd cause (not_interrupted hw)
    . rw [hmiss, Except.error.injEq] at cause
      exact absurd hw (unkept (cause ▸ file.freshRows_settles w.platform index e he))

/-- The next block then fails too, whatever its own rows are. -/
theorem decodeKeyBlock_leaks {index : Nat} {failure : CachedFailureKind}
    (hcache : s.keyBlockCache = some (index, .failed failure))
    : ∃ e s', file.decodeKeyBlock (index + 1) w s = (.error e, s') := by
  obtain ⟨r, events, cache', hrun, hkey⟩ := file.decodeKeyBlock_run (index + 1) w s
  have hmiss : ∃ e, file.missResult w.platform (index + 1) s.keyBlockCache = .error e := by
    by_cases hblock : file.layout.keyBlocks[index + 1]? = none
    . refine ⟨.invalidFormat "key block index out of range", ?_⟩
      simp only [missResult, failIf, if_pos hblock, except_error_bind]
    . refine ⟨failure.replay, ?_⟩
      simp only [missResult, failIf_of_not hblock, previousStart, previousResult, hcache, if_pos,
        CachedValue.result, except_ok_bind, except_error_bind]
  obtain ⟨e, he⟩ := hmiss
  cases hkey with
  | hit value hit =>
    rw [hcache] at hit
    simp only [Option.some.injEq, Prod.mk.injEq] at hit
    omega
  | kept value miss result => exact ⟨e, _, by rw [hrun, result, he]⟩
  | dropped error cache' cache'_eq cause unkept => exact ⟨error, _, hrun⟩

end MdictFile

variable {file : MdictFile} {p : Platform}

/--
The key block cache is transparent exactly when no failure leaks: after every history without
interference every key is found as on a fresh handle, if and only if there are no three blocks in a
row of which the last two decode on their own and join while the first one fails or does not join.
-/
theorem keyAt_transparent_iff
    : (∀ (w : World) (index : Option PersistentKeyIndex) (s : Session) (ordinal : Nat),
        w.Quiet → w.platform = p → Reachable file (fun w => w.Quiet ∧ w.platform = p) index s →
          let here := (file.keyAtOrdinal ordinal w s).1
          let fresh := (file.keyAtOrdinal ordinal w .fresh).1
          here.isOk = fresh.isOk ∧ ∀ key, here = .ok key → fresh = .ok key)
      ↔ ∀ index, ¬file.LeaksAt p index := by
  constructor
  . rintro h index ⟨rows, rows', hown, hown', hjoins, hbefore⟩
    obtain ⟨ordinal, hlt, hposition⟩ := exists_ordinal hown
    obtain ⟨ordinal', hlt', hposition'⟩ := exists_ordinal hown'
    have hw := World.calm_quiet p
    have hfails : ∃ e, file.freshRows p (index + 1) = .error e := by
      cases hrows : file.freshRows p (index + 1) with
      | error e => exact ⟨e, rfl⟩
      | ok rows1 =>
        obtain ⟨hown1, hbefore1⟩ := freshRows_succ_eq_ok.mp hrows
        rw [hown, Except.ok.injEq] at hown1
        exact absurd (hown1 ▸ hbefore1) hbefore
    obtain ⟨e, he⟩ := hfails
    obtain ⟨events, failure, hrun⟩ := decodeKeyBlock_keeps hw he
    -- Asking for a key of the middle block leaves its failure in the cache.
    have hkey := keyAtOrdinal_error hlt hposition hrun
    have hreach : Reachable file (fun w => w.Quiet ∧ w.platform = p) none
        (file.keyAtOrdinal ordinal (.calm p) .fresh).2 :=
      .call (.opened []) ⟨hw, rfl⟩ (.keyAt ordinal)
    rw [hkey] at hreach
    obtain ⟨e', s', hleak⟩ := @decodeKeyBlock_leaks file (.calm p)
      { Session.fresh with events, keyBlockCache := some (index + 1, .failed failure) } _ _ rfl
    have hlater := keyAtOrdinal_error hlt' hposition' hleak
    have hnext : file.freshRows p (index + 2) = .ok rows' :=
      freshRows_succ_eq_ok.mpr ⟨hown', rows, hown, hjoins⟩
    have hhit : file.IsHit p ordinal' ⟨index + 2, 0, rows'⟩ := ⟨hlt', hposition', hnext⟩
    have hhasKey : file.HasKey p ordinal' _ :=
      ⟨_, _, hhit, List.getElem?_eq_getElem hhit.entryIndex_lt, rfl⟩
    have hagree := (h (.calm p) none _ ordinal' hw rfl hreach).1
    have hfresh : (file.keyAtOrdinal ordinal' (.calm p) .fresh).1 = _ := hhasKey.outcome_eq
    rw [hlater, hfresh] at hagree
    contradiction
  . rintro h w index s ordinal hw rfl hreach
    have hsound := (hreach.allSound fun _ hw => hw.2).1
    obtain ⟨-, hok, herror⟩ :=
      (keyAtOrdinal_ensures (@file_invariant_allSound _ index _) ordinal).outcome hsound
    obtain ⟨s', hfresh, -⟩ :=
      (@keyAtOrdinal_determined file _ ordinal).replies clean_fresh hw .fresh clean_fresh
    cases hhere : (file.keyAtOrdinal ordinal w s).1 with
    | ok found =>
      have heq : (file.keyAtOrdinal ordinal w .fresh).1 = .ok found := by
        rcases hok found hhere with ⟨rfl, hge⟩ | ⟨key, rfl, hkey⟩
        . exact keyAtOrdinal_eq_none.mpr hge
        . rw [hfresh, hkey.outcome_eq]
      rw [heq]
      exact ⟨rfl, fun key hkey => hkey⟩
    | error e =>
      rcases herror e hhere with he | ⟨hlt, i, j, origin, hposition, hle, he⟩
      . exact absurd he (not_interrupted hw)
      . obtain ⟨e', he'⟩ := freshRows_error_of_le h hle he
        obtain ⟨s'', hrun, -⟩ := decodeKeyBlock_replies hw i .fresh (@clean_fresh file _)
        rw [he'] at hrun
        rw [keyAtOrdinal_error hlt hposition hrun]
        exact ⟨rfl, fun key hkey => by contradiction⟩

/--
The damaged sample dictionary: once the second key was asked for, the third one is no longer found,
although a fresh handle finds it.
-/
theorem keyAt_leaks
    : let s := (Sample.damaged.keyAtOrdinal 1 Sample.world .fresh).2
      Reachable Sample.damaged (fun w => w.Quiet ∧ w.platform = Sample.platform) none s
        ∧ (Sample.damaged.keyAtOrdinal 2 Sample.world .fresh).1 = .ok (some ⟨2, ['b']⟩)
        ∧ (Sample.damaged.keyAtOrdinal 2 Sample.world s).1.isOk = false := by
  refine ⟨.call (.opened []) ⟨Sample.quiet, rfl⟩ (.keyAt 1), ?_, ?_⟩
  . decide +kernel
  . decide +kernel

end Mdict
