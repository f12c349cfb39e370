import Mdict.Core.Records
import Mdict.Lemmas.Keys

/-!
This module contains the theory of the record block cache. Record blocks stand on their own, so
what the cache answers is what the bytes of the block decode to.
-/

namespace Mdict

open Effect

/-- What a cache of one record block can hold. -/
abbrev RecordBlockCache := Option (Nat × CachedValue Bytes)

namespace MdictFile

variable (file : MdictFile) (p : Platform)

theorem decodeRecordBlockUncached_steady (index : Nat)
    : Steady p (file.decodeRecordBlockUncached index) :=
  .bind (.liftM (.okOr rfl)) fun _ => .bind (.liftM .checkedUsize) fun _ =>
    .bind (.liftM .checkedUsize) fun _ => .bind .reserve fun _ => .bind .reserve fun _ =>
    .bind .readExactAt fun _ => decodeBlock_steady

/-- What the bytes of record block `index` decode to. -/
def ownRecords (index : Nat) : Except Error Bytes :=
  outcome p (file.decodeRecordBlockUncached index)

/-- A record block that decodes has its declared size. -/
theorem ownRecords_eq_ok {index : Nat} {data : Bytes} (h : file.ownRecords p index = .ok data)
    : ∃ block, file.layout.recordBlocks[index]? = some block ∧ data.length = block.decompSize := by
  have hrun : file.decodeRecordBlockUncached index (.calm p) .fresh
      = (.ok data, (file.decodeRecordBlockUncached index (.calm p) .fresh).2) := by
    rw [← h]
    rfl
  simp only [decodeRecordBlockUncached, Prog.bind_eq_ok, liftM_eq_ok, okOr_eq_ok,
    checkedUsize_eq_ok] at hrun
  obtain ⟨block, _, ⟨hblock, -⟩, _, _, -, decompSize, _, ⟨⟨rfl, -⟩, -⟩, hrun⟩ := hrun
  obtain ⟨_, _, -, _, _, -, _, _, -, hdecode⟩ := hrun
  exact ⟨block, hblock, length_of_decodeBlock hdecode⟩

/-- The record block cache holds what its block decodes to. -/
def RecordCacheSound (cache : RecordBlockCache) : Prop :=
  ∀ index value, cache = some (index, value) → file.ownRecords p index = value.result

theorem RecordCacheSound.none : file.RecordCacheSound p none := by
  intro index value h
  contradiction

theorem decodeAndCacheRecordBlock_run (index : Nat) (w : World) (s : Session)
    : ∃ r events cache',
        file.decodeAndCacheRecordBlock index w s
            = (r, { s with events, recordBlockCache := cache' })
          ∧ file.RecordCacheSound w.platform cache'
          ∧ (file.ownRecords w.platform index = r ∨ ∃ e, Interrupted w e ∧ r = .error e) := by
  rw [decodeAndCacheRecordBlock, Prog.modify_bind_apply, Prog.attempt_bind_apply]
  obtain ⟨events, h | ⟨e, he, h⟩⟩ :=
    (file.decodeRecordBlockUncached_steady w.platform index).yields w
      { s with recordBlockCache := none } rfl
  . rw [h]
    change ∃ _, _
    cases hown : outcome w.platform (file.decodeRecordBlockUncached index) with
    | ok data =>
      refine ⟨.ok data, events, some (index, .ready data), rfl, ?_, .inl hown⟩
      rintro _ _ ⟨⟩
      exact hown
    | error e =>
      obtain ⟨kept, events', hcapture, hsome, -⟩ := CachedFailureKind.capture_run e w
        { s with events, recordBlockCache := none }
      dsimp only
      rw [Prog.bind_of_ok hcapture, Prog.modify_bind_apply, Prog.fail_apply]
      cases kept with
      | none => exact ⟨.error e, events', none, rfl, .none file w.platform, .inl hown⟩
      | some failure =>
        refine ⟨.error e, events', some (index, .failed failure), rfl, ?_, .inl hown⟩
        rintro _ _ ⟨⟩
        rw [CachedValue.result, (hsome failure rfl).1]
        exact hown
  . rw [h]
    obtain ⟨kept, events', hcapture, hsome, -⟩ := CachedFailureKind.capture_run e w
      { s with events, recordBlockCache := none }
    dsimp only
    rw [Prog.bind_of_ok hcapture, Prog.modify_bind_apply, Prog.fail_apply]
    cases kept with
    | none => exact ⟨.error e, events', none, rfl, .none file w.platform, .inr ⟨e, he, rfl⟩⟩
    | some failure =>
      have := (hsome failure rfl).2
      simp [Error.isSettled, he.1] at this

/-- What one decode of a record block does. -/
theorem decodeRecordBlock_run (index : Nat) (w : World) (s : Session)
    (hs : file.RecordCacheSound w.platform s.recordBlockCache)
    : ∃ r events cache',
        file.decodeRecordBlock index w s = (r, { s with events, recordBlockCache := cache' })
          ∧ file.RecordCacheSound w.platform cache'
          ∧ (file.ownRecords w.platform index = r ∨ ∃ e, Interrupted w e ∧ r = .error e) := by
  rw [decodeRecordBlock, Prog.get_bind_apply]
  cases hcache : s.recordBlockCache with
  | none => exact file.decodeAndCacheRecordBlock_run index w s
  | some cached =>
    obtain ⟨cachedIndex, value⟩ := cached
    dsimp only
    by_cases hindex : cachedIndex = index
    . rw [if_pos hindex]
      subst hindex
      refine ⟨value.result, s.events, s.recordBlockCache, ?_, hs, .inl (hs _ _ hcache)⟩
      cases value with
      | ready data => rfl
      | failed failure => rfl
    . rw [if_neg hindex]
      exact file.decodeAndCacheRecordBlock_run index w s

end MdictFile

end Mdict
