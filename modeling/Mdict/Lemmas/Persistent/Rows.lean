import Mdict.Lemmas.Locate
import Mdict.Lemmas.Persistent.Reads

/-!
This module contains what the searches of a key index answer, as a function of the bytes of the
index, and what the verification of a row against the source ensures.
-/

namespace Mdict

open Effect Persistent

/-! ## Searching -/

namespace PersistentKeyIndex

section Values

variable (index : PersistentKeyIndex)

/-- Where the search for `query` ends. -/
def lowerBoundOf (query : Bytes) (inclusiveEnd : Bool) : Nat :=
  Search.bisect (fun position =>
    !goesLeft query (index.textOf (index.orderOf position)) inclusiveEnd) 0 index.len

/-- The range that the search for `query` finds. -/
def rangeOf (query : Bytes) : Option (Nat × Nat) :=
  if index.lowerBoundOf query false < index.lowerBoundOf query true then
    some (index.lowerBoundOf query false, index.lowerBoundOf query true)
  else
    none

/-- The rows in a range of the order. -/
def rowsIn (start stop : Nat) : List Nat := (MdictFile.positions start stop).map index.orderOf

/-- Every row and every position of the order can be read. -/
structure Readable : Prop where
  complete : index.Complete
  rows : ∀ ordinal < index.len, index.RowFits ordinal
  order : ∀ position < index.len, index.orderOf position < index.len

end Values

variable {index : PersistentKeyIndex} {w : World} {I : Session → Prop}

/-- The row at which the search ends has been read, unless it ends where it started. -/
theorem lowerBoundFrom_ensures (hI : index.Invariant I) (hpos : 0 < index.header.chunkBytes)
    (query : Bytes) (inclusiveEnd : Bool) (left right : Nat) (hright : right ≤ index.len)
    : Ensures w I (index.lowerBoundFrom query inclusiveEnd left right)
        (fun position => position = Search.bisect (fun position =>
          !goesLeft query (index.textOf (index.orderOf position)) inclusiveEnd) left right
          ∧ (position < right → index.Short (index.orderOf position)))
        (index.ReadFails w index.Readable) := by
  induction hn : right - left using Nat.strongRecOn generalizing left right with
  | ind n ih =>
    unfold lowerBoundFrom Search.bisect
    split
    . next hlt =>
      apply Ensures.bind
      . apply (orderAt_ensures hI hpos _).mono (fun _ h => h)
        exact fun e he => he.mono fun h => ⟨h.complete, by omega⟩
      rintro _ ⟨rfl, hmiddle⟩
      apply Ensures.bind
      . apply (rowText_ensures hI hpos _).mono (fun _ h => h)
        exact fun e he => he.mono fun h => ⟨h.complete, h.rows _ (h.order _ hmiddle)⟩
      rintro _ ⟨rfl, -, hshort⟩
      dsimp only
      cases hleft : goesLeft query
        (index.textOf (index.orderOf (left + (right - left) / 2))) inclusiveEnd with
      | true =>
        apply (ih _ (by omega) left _ (by omega) rfl).mono _ (fun _ h => h)
        rintro position ⟨hposition, hread⟩
        refine ⟨hposition, fun _ => ?_⟩
        by_cases hlt : position < left + (right - left) / 2
        . exact hread hlt
        . have hle : position ≤ left + (right - left) / 2 := by
            rw [hposition]
            exact Search.bisect_le _ _ _ (by omega)
          rw [show position = left + (right - left) / 2 by omega]
          exact hshort
      | false => exact ih _ (by omega) _ right hright rfl
    . next hge => exact .pure ⟨rfl, fun hlt => absurd hlt hge⟩

theorem lowerBound_ensures (hI : index.Invariant I) (hpos : 0 < index.header.chunkBytes)
    (query : Bytes) (inclusiveEnd : Bool)
    : Ensures w I (index.lowerBound query inclusiveEnd)
        (fun position => position = index.lowerBoundOf query inclusiveEnd)
        (index.ReadFails w index.Readable) :=
  (lowerBoundFrom_ensures hI hpos query inclusiveEnd 0 index.len (Nat.le_refl _)).mono
    (fun _ h => h.1) (fun _ h => h)

/-- A search that ends at a row that is too long does not come to its end. -/
theorem lowerBound_stops (hI : index.Invariant I) (hpos : 0 < index.header.chunkBytes)
    {query : Bytes} {inclusiveEnd : Bool}
    (hlt : index.lowerBoundOf query inclusiveEnd < index.len)
    (hlong : ¬index.Short (index.orderOf (index.lowerBoundOf query inclusiveEnd)))
    : Ensures w I (index.lowerBound query inclusiveEnd) (fun _ => False)
        (index.ReadFails w index.Readable) := by
  apply (lowerBoundFrom_ensures hI hpos query inclusiveEnd 0 index.len (Nat.le_refl _)).mono _
    (fun _ h => h)
  rintro _ ⟨rfl, hshort⟩
  exact hlong (hshort hlt)

theorem equalRange_ensures (hI : index.Invariant I) (hpos : 0 < index.header.chunkBytes)
    (query : Bytes)
    : Ensures w I (index.equalRange query) (fun range => range = index.rangeOf query)
        (index.ReadFails w index.Readable) := by
  apply Ensures.bind (lowerBound_ensures hI hpos query false)
  rintro _ rfl
  apply Ensures.bind (lowerBound_ensures hI hpos query true)
  rintro _ rfl
  exact .pure rfl

theorem ordinalsIn_ensures (hI : index.Invariant I) (hpos : 0 < index.header.chunkBytes)
    {start stop : Nat} (hle : start ≤ stop)
    : Ensures w I (index.ordinalsIn start stop)
        (fun ordinals => ordinals = index.rowsIn start stop)
        (index.ReadFails w (index.Readable ∧ stop ≤ min index.len u64Max)) := by
  have hbound : u64Max + 1 = u64Bound := by decide
  unfold ordinalsIn
  apply ensures_checkedSub_bind
  . intro h
    omega
  intro _
  apply ensures_checkedUsize_bind
  . intro h e
    right
    omega
  intro _
  rw [rowsIn, MdictFile.positions]
  induction hn : stop - start generalizing start with
  | zero => exact .pure rfl
  | succ n ih =>
    rw [List.range'_succ, List.mapM_cons, List.map_cons]
    apply Ensures.bind
    . apply (orderAt_ensures hI hpos start).mono (fun _ h => h)
      exact fun e he => he.mono fun h => ⟨h.1.complete, by omega⟩
    rintro _ ⟨rfl, -⟩
    apply Ensures.bind (ih (by omega) (by omega) (by omega) (by omega))
    rintro _ rfl
    exact .pure rfl

end PersistentKeyIndex

/-! ## The source of the index -/

namespace MdictFile

/-- What an identity says of a dictionary holds, and the file system keeps saying so. -/
structure Unchanged (file : MdictFile) (w : World) (identity : KeyIndexSourceIdentity) : Prop where
  sourceLen : file.source.len = identity.sourceBytes
  len : ∀ events, (w.identity events).len = identity.sourceBytes
  modified : ∀ events, (w.identity events).modifiedUnixNanos = identity.sourceModifiedUnixNanos
  keyCount : file.len = identity.keyCount

variable {file : MdictFile} {w : World} {I : Session → Prop}

theorem currentIdentity_ensures (hI : LogInvariant I)
    : Ensures w I FileSource.currentIdentity (fun identity => ∃ events, identity = w.identity events)
        (Interrupted w) := by
  apply Ensures.bind
  . apply (Yields.log.ensures rfl hI).mono (fun _ h => h)
    rintro e (he | he)
    . exact he
    . contradiction
  rintro _ -
  apply Ensures.bind
  . apply (Yields.io.ensures rfl hI).mono (fun _ h => h)
    rintro e (he | he)
    . exact he
    . contradiction
  rintro _ -
  intro s hs
  exact ⟨hs, s.events, rfl⟩

theorem validateDictionaryIdentity_ensures (hI : LogInvariant I)
    (identity : KeyIndexSourceIdentity)
    : Ensures w I (file.validateDictionaryIdentity identity)
        (fun _ => file.len = identity.keyCount)
        (fun e => Interrupted w e ∨ (e.isTransient = true ∧ ¬file.Unchanged w identity)) := by
  unfold validateDictionaryIdentity
  apply Ensures.bind
  . apply (currentIdentity_ensures hI).mono (fun _ h => h)
    exact fun e he => .inl he
  rintro _ ⟨events, rfl⟩
  apply ensures_failIf_bind
  . intro h
    right
    refine ⟨rfl, fun hunchanged => ?_⟩
    rcases h with h | h
    . exact h hunchanged.sourceLen
    . exact h (hunchanged.len events)
  intro _
  apply ensures_failIf_bind
  . intro h
    right
    exact ⟨rfl, fun hunchanged => h (hunchanged.modified events)⟩
  intro _
  apply Ensures.liftM
  . rintro _ h
    simpa using h
  . intro e he
    right
    obtain ⟨hne, rfl⟩ := failIf_eq_error.mp he
    exact ⟨rfl, fun hunchanged => hne hunchanged.keyCount⟩

/-! ## Verified rows -/

/-- The key that a fresh handle finds at an ordinal. -/
def freshKey (file : MdictFile) (p : Platform) (ordinal : Nat) : Option Str :=
  match outcome p (file.keyAtOrdinal ordinal) with
  | .ok (some entry) => some entry.key
  | _ => none

/-- A fresh handle answers with the key of the ordinal. -/
theorem HasKey.outcome_eq {p : Platform} {ordinal : Nat} {key : Str}
    (h : file.HasKey p ordinal key)
    : outcome p (file.keyAtOrdinal ordinal) = .ok (some ⟨ordinal, key⟩) := by
  obtain ⟨hit, row, hhit, hrow, rfl⟩ := h
  have hdecode : ∃ s, file.decodeKeyBlock hit.blockIndex (.calm p) .fresh = (.ok hit.entries, s) :=
    ⟨(file.decodeKeyBlock hit.blockIndex (.calm p) .fresh).2, by rw [← hhit.rows]; rfl⟩
  obtain ⟨s, hdecode⟩ := hdecode
  have hlt := hhit.entryIndex_lt
  have hentry : file.keyEntryAtOrdinal ordinal (.calm p) .fresh = (.ok (some hit), s) := by
    rw [keyEntryAtOrdinal, if_neg (by have := hhit.lt; omega), hhit.position, Prog.ok_bind_apply]
    dsimp only
    rw [Prog.bind_of_ok hdecode, failIf_of_not (by omega), Prog.ok_bind_apply]
    rfl
  rw [outcome, keyAtOrdinal, Prog.bind_of_ok hentry]
  dsimp only
  rw [hrow, okOr_some, Prog.ok_bind_apply]
  rfl

theorem HasKey.freshKey_eq {p : Platform} {ordinal : Nat} {key : Str}
    (h : file.HasKey p ordinal key)
    : file.freshKey p ordinal = some key := by
  rw [freshKey, h.outcome_eq]

/-- A row of the index has the normalized text `text` and agrees with the source, where it is `key`. -/
structure Verified (file : MdictFile) (p : Platform) (index : PersistentKeyIndex) (ordinal : Nat)
    (text : Bytes) (key : Str)
    : Prop where
  hasKey : file.HasKey p ordinal key
  keyText : file.keyText p key = text
  row : index.textOf ordinal = text
  digest : index.digestOf ordinal = rawDigest key

/-- What it takes for the verification of a row not to fail. -/
structure Verifies (file : MdictFile) (p : Platform) (index : PersistentKeyIndex) (ordinal : Nat)
    (text : Bytes)
    : Prop where
  readable : index.Readable
  lt : ordinal < index.len
  text_lt : text.length < u64Bound
  decodes : ∀ e, ¬file.FailsAt p ordinal e
  verified : ∃ key, file.Verified p index ordinal text key

variable {index : PersistentKeyIndex}

theorem verifiedSourceKey_ensures (hI : file.Invariant w.platform I) (hI' : index.Invariant I)
    (hpos : 0 < index.header.chunkBytes) (ordinal : Nat) (text : Bytes)
    : Ensures w I (file.verifiedSourceKey index ordinal text)
        (fun entry => entry.ordinal = ordinal
          ∧ file.Verified w.platform index ordinal text entry.key)
        (index.ReadFails w (file.Verifies w.platform index ordinal text)) := by
  unfold verifiedSourceKey
  apply Ensures.bind
  . apply (keyAtOrdinal_ensures hI ordinal).mono (fun _ h => h)
    rintro e (he | he)
    . exact .inl (.inl he)
    . exact .inr fun h => h.2.decodes e he
  intro found hfound
  apply ensures_okOr_bind
  . rintro rfl
    right
    rintro ⟨-, hverifies⟩
    obtain ⟨key, hverified⟩ := hverifies.verified
    have := hverified.hasKey.lt
    rcases hfound with ⟨-, hge⟩ | ⟨_, h, -⟩
    . omega
    . contradiction
  rintro entry rfl
  rcases hfound with ⟨h, -⟩ | ⟨key, h, hkey⟩
  . contradiction
  injection h with h
  subst h
  -- The key that was found is the one that the row is verified for, if there is one.
  have hverified (h : file.Verifies w.platform index ordinal text)
      : file.Verified w.platform index ordinal text key := by
    obtain ⟨key', hverified⟩ := h.verified
    rw [hkey.unique hverified.hasKey]
    exact hverified
  dsimp only
  apply ensures_platform_bind
  apply Ensures.liftM_bind
  . intro e he
    right
    rintro ⟨-, hverifies⟩
    have hlt := hverifies.text_lt
    rw [← (hverified hverifies).keyText] at hlt
    rw [KeyNormalizer.normalize_of_lt _ _ hlt] at he
    contradiction
  intro normalized hnormalized
  have hnormalized := KeyNormalizer.normalize_eq_ok _ _ hnormalized
  subst hnormalized
  apply ensures_failIf_bind
  . intro h
    right
    exact fun hverifies => h (hverified hverifies.2).keyText
  intro htext
  apply Ensures.bind
  . apply (PersistentKeyIndex.rowText_ensures hI' hpos ordinal).mono (fun _ h => h)
    intro e he
    apply he.mono
    exact fun hverifies =>
      ⟨hverifies.readable.complete, hverifies.readable.rows _ hverifies.lt⟩
  rintro _ ⟨rfl, hlt, -⟩
  apply ensures_failIf_bind
  . intro h
    right
    rintro ⟨-, hverifies⟩
    apply h
    rw [(hverified hverifies).row, ← (hverified hverifies).keyText]
    rfl
  intro hrow
  apply Ensures.bind
  . apply (PersistentKeyIndex.rawDigestAt_ensures hI' hpos ordinal).mono (fun _ h => h)
    exact fun e he => he.mono fun hverifies => ⟨hverifies.readable.complete, hlt⟩
  rintro _ ⟨rfl, -⟩
  apply ensures_failIf_bind
  . intro h
    right
    exact fun hverifies => h (hverified hverifies.2).digest
  intro hdigest
  simp only [ne_eq, not_not] at htext hrow hdigest
  apply Ensures.pure
  exact ⟨rfl, hkey, htext, hrow.trans htext, hdigest⟩

end MdictFile

end Mdict
