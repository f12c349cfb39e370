import Mdict.Lemmas.Layout
import Mdict.Lemmas.Policy
import Mdict.Theorems.KeyCache

/-!
This module contains in how far a dictionary that skips the verification of checksums answers as one
that verifies them.
-/

namespace Mdict

open Effect MdictFile

namespace MdictFile

variable {file : MdictFile} {w : World} {s : Session}

/-- There is an ordinal for the first row of every block that declares rows. -/
theorem exists_ordinal_of_pos {index : Nat} {block : KeyBlockDescriptor}
    (hblock : file.layout.keyBlocks[index]? = some block) (hpos : 0 < block.entryCount)
    : ∃ ordinal, ordinal < file.len ∧ file.keyPosition ordinal = .ok (index, 0) := by
  have hstop := file.layoutVerified.entryEnd hblock
  have hsum := Search.start_le_sum file.layout.entryCounts (index + 1)
  rw [file.layoutVerified.totalEntries] at hsum
  have hlt : block.entryStartIndex < file.len := by
    rw [len]
    omega
  refine ⟨block.entryStartIndex, hlt, ?_⟩
  obtain ⟨i, other, hother, hlo, hhi, hposition⟩ := file.keyPosition_eq hlt
  obtain rfl := file.layoutVerified.keyBlock_unique hblock hother ⟨Nat.le_refl _, by omega⟩ ⟨hlo, hhi⟩
  rw [hblock, Option.some.injEq] at hother
  subst hother
  rw [hposition, Nat.sub_self]

/-- A failure in the cache becomes that of the next block when it is asked for. -/
theorem decodeKeyBlock_inherits (hw : w.Quiet) (hs : file.Sound w.platform s) {index : Nat}
    {failure : CachedFailureKind} (hcache : s.keyBlockCache = some (index, .failed failure))
    (hlt : index + 1 < file.keyBlockCount)
    : ∃ e events failure', file.decodeKeyBlock (index + 1) w s
        = (.error e, { s with events, keyBlockCache := some (index + 1, .failed failure') }) := by
  obtain ⟨r, events, cache', hrun, hkey⟩ := file.decodeKeyBlock_run (index + 1) w s
  have hmiss : file.missResult w.platform (index + 1) s.keyBlockCache = .error failure.replay := by
    have hblock : ¬file.layout.keyBlocks[index + 1]? = none := by
      rw [List.getElem?_eq_none_iff]
      exact Nat.not_le_of_lt hlt
    simp only [missResult, failIf_of_not hblock, previousStart, previousResult, hcache, if_pos,
      CachedValue.result, except_ok_bind, except_error_bind]
  cases hkey with
  | hit value hit =>
    rw [hcache] at hit
    simp only [Option.some.injEq, Prod.mk.injEq] at hit
    omega
  | kept value miss result =>
    rw [hmiss] at result
    cases value with
    | ready rows => contradiction
    | failed failure' => exact ⟨_, events, failure', hrun⟩
  | dropped error cache' cache'_eq cause unkept =>
    rcases cause with cause | cause
    . exact absurd cause (not_interrupted hw)
    . exact absurd hw (unkept
        (file.missResult_settles w.platform (index + 1) hs.keyBlock.settled error cause))

/-- Asking for key after key carries the failure of one block to every later one. -/
theorem exists_poisoned (hw : w.Quiet) {worlds : World → Prop} (hworld : worlds w)
    (hworlds : ∀ w', worlds w' → w'.platform = w.platform)
    (hpos : ∀ block ∈ file.layout.keyBlocks, 0 < block.entryCount) {origin index : Nat} {e : Error}
    (he : file.freshRows w.platform origin = .error e) (hle : origin ≤ index)
    (hlt : index < file.keyBlockCount)
    : ∃ s failure, Reachable file worlds none s
        ∧ s.keyBlockCache = some (index, .failed failure) := by
  have hordinal {i : Nat} (hi : i < file.keyBlockCount)
      : ∃ ordinal, ordinal < file.len ∧ file.keyPosition ordinal = .ok (i, 0) :=
    exists_ordinal_of_pos (List.getElem?_eq_getElem hi) (hpos _ (List.getElem_mem hi))
  induction index, hle using Nat.le_induction with
  | base =>
    obtain ⟨ordinal, hordinal, hposition⟩ := hordinal hlt
    obtain ⟨events, failure, hrun⟩ := decodeKeyBlock_keeps hw he
    have hkey := keyAtOrdinal_error hordinal hposition hrun
    have hreach : Reachable file worlds none (file.keyAtOrdinal ordinal w .fresh).2 :=
      .call (.opened []) hworld (.keyAt ordinal)
    rw [hkey] at hreach
    exact ⟨_, failure, hreach, rfl⟩
  | succ index _ ih =>
    obtain ⟨s, failure, hreach, hcache⟩ := ih (Nat.lt_of_succ_lt hlt)
    obtain ⟨ordinal, hordinal, hposition⟩ := hordinal hlt
    obtain ⟨e', events, failure', hrun⟩ :=
      decodeKeyBlock_inherits hw (hreach.allSound hworlds).1.file hcache hlt
    have hkey := keyAtOrdinal_error hordinal hposition hrun
    have hreach' : Reachable file worlds none (file.keyAtOrdinal ordinal w s).2 :=
      .call hreach hworld (.keyAt ordinal)
    rw [hkey] at hreach'
    exact ⟨_, failure', hreach', rfl⟩

/-- After some history the failure of one block hides the keys of a later one. -/
theorem exists_hidden (hw : w.Quiet) {worlds : World → Prop} (hworld : worlds w)
    (hworlds : ∀ w', worlds w' → w'.platform = w.platform)
    (hpos : ∀ block ∈ file.layout.keyBlocks, 0 < block.entryCount) {origin index ordinal j : Nat}
    {e : Error} (he : file.freshRows w.platform origin = .error e) (hlt : origin < index)
    (hordinal : ordinal < file.len) (hposition : file.keyPosition ordinal = .ok (index, j))
    : ∃ s, Reachable file worlds none s ∧ ∃ e, (file.keyAtOrdinal ordinal w s).1 = .error e := by
  have hcount : index < file.keyBlockCount := by
    obtain ⟨i, block, hblock, -, -, hposition'⟩ := file.keyPosition_eq hordinal
    rw [hposition, Except.ok.injEq, Prod.mk.injEq] at hposition'
    rw [hposition'.1]
    exact (List.getElem?_eq_some_iff.mp hblock).1
  obtain ⟨before, rfl⟩ : ∃ before, index = before + 1 := ⟨index - 1, by omega⟩
  obtain ⟨s, failure, hreach, hcache⟩ :=
    exists_poisoned hw hworld hworlds hpos he (by omega : origin ≤ before)
      (Nat.lt_of_succ_lt hcount)
  obtain ⟨e', s', hleak⟩ := @decodeKeyBlock_leaks file w s before failure hcache
  exact ⟨s, hreach, e', by rw [keyAtOrdinal_error hordinal hposition hleak]⟩

end MdictFile

/--
The calls on an open dictionary with the same call on the dictionary that skips verification, and the
answers that are none of a failure.
-/
inductive SameCall (file : MdictFile) : {α : Type} → Exec α → Exec α → (α → Prop) → Prop
  | keyAt (ordinal : Nat)
    : SameCall file (file.keyAtOrdinal ordinal) (file.skipping.keyAtOrdinal ordinal) fun _ => True
  | keysAt (ordinals : List Nat)
    : SameCall file (file.keysAtOrdinals ordinals) (file.skipping.keysAtOrdinals ordinals)
        fun _ => True
  | entryAt (ordinal : Nat)
    : SameCall file (MdxFile.entryAt ⟨file⟩ ordinal) (MdxFile.entryAt ⟨file.skipping⟩ ordinal)
        fun _ => True
  | resourceAt (ordinal : Nat)
    : SameCall file (MddFile.resourceAt ⟨file⟩ ordinal) (MddFile.resourceAt ⟨file.skipping⟩ ordinal)
        fun _ => True
  | locate (query : Str)
    : SameCall file (file.locateKeys query) (file.skipping.locateKeys query) fun _ => True
  | locateWithMode (query : Str) (mode : MatchMode)
    : SameCall file (MdxFile.locateWithMode ⟨file⟩ query mode)
        (MdxFile.locateWithMode ⟨file.skipping⟩ query mode) fun _ => True
  | locatePage (query : Str) (offset limit : Nat)
    : SameCall file (file.locateKeyPage query offset limit)
        (file.skipping.locateKeyPage query offset limit) fun _ => True
  | locatePageWithMode (query : Str) (offset limit : Nat) (mode : MatchMode)
    : SameCall file (MdxFile.locatePageWithMode ⟨file⟩ query offset limit mode)
        (MdxFile.locatePageWithMode ⟨file.skipping⟩ query offset limit mode) fun _ => True
  | prefixKeys (keyPrefix : Str) (limit : Nat)
    : SameCall file (MdxFile.prefixKeys ⟨file⟩ keyPrefix limit)
        (MdxFile.prefixKeys ⟨file.skipping⟩ keyPrefix limit) fun _ => True
  | scanNormalizedKeys {β : Type} (visit : β → Nat → Bytes → β × Bool) (acc : β)
    : SameCall file (file.scanNormalizedKeys visit acc) (file.skipping.scanNormalizedKeys visit acc)
        fun _ => True
  | lookupEntry (query : Str)
    : SameCall file (MdxFile.lookup ⟨file⟩ query) (MdxFile.lookup ⟨file.skipping⟩ query)
        fun _ => True
  | lookupResource (query : Str)
    : SameCall file (MddFile.lookup ⟨file⟩ query) (MddFile.lookup ⟨file.skipping⟩ query)
        fun _ => True
  | nextKey (iter : RowIter)
    : SameCall file (KeyIter.next file iter) (KeyIter.next file.skipping iter) Stepped
  | nextEntry (iter : MdxEntryIter)
    : SameCall file (MdxEntryIter.next ⟨file⟩ iter) (MdxEntryIter.next ⟨file.skipping⟩ iter) Stepped
  | nextResource (iter : MddResourceIter)
    : SameCall file (MddResourceIter.next ⟨file⟩ iter) (MddResourceIter.next ⟨file.skipping⟩ iter)
        Stepped

variable {file : MdictFile} {w w' : World} {p : Platform} {I J : Session → Prop}

theorem SameCall.follows {α : Type} {x y : Exec α} {G : α → Prop} (hcall : SameCall file x y G)
    (h : file.SkipGround w w' I J)
    : Follows w w' I J G x y := by
  cases hcall with
  | keyAt ordinal => exact keyAtOrdinal_follows h ordinal
  | keysAt ordinals => exact keysAtOrdinals_follows h ordinals
  | entryAt ordinal => exact MdxFile.entryAt_follows h ordinal
  | resourceAt ordinal => exact MddFile.resourceAt_follows h ordinal
  | locate query => exact locateKeys_follows h query
  | locateWithMode query mode => exact MdxFile.locateWithMode_follows h query mode
  | locatePage query offset limit => exact locateKeyPage_follows h query offset limit
  | locatePageWithMode query offset limit mode =>
    exact MdxFile.locatePageWithMode_follows h query offset limit mode
  | prefixKeys keyPrefix limit => exact MdxFile.prefixKeys_follows h keyPrefix limit
  | scanNormalizedKeys visit acc => exact scanNormalizedKeys_follows h visit acc
  | lookupEntry query => exact MdxFile.lookup_follows h query
  | lookupResource query => exact MddFile.lookup_follows h query
  | nextKey iter => exact KeyIter.next_follows h iter
  | nextEntry iter => exact MdxEntryIter.next_follows h iter
  | nextResource iter => exact MddResourceIter.next_follows h iter

/--
What opens also opens without verification, to the same layout. After any histories of the two
dictionaries, whatever answer the first one gives the second one gives, if and only if without
verification every block decodes that comes before a block that decodes on a fresh handle.
-/
theorem skipping_answers_iff {bytes : Bytes} {kind : ContainerKind} {options : OpenOptions}
    {s₀ s₁ : Session} (hp : w.platform.IgnoresChecksum)
    (hopen : MdictFile.open bytes kind options w s₀ = (.ok file, s₁))
    : (∀ (w' : World) (t : Session), w'.platform = w.platform → w'.Quiet →
        ∃ skipping t', MdictFile.open bytes kind { options with checksumPolicy := .skip } w' t
            = (.ok skipping, t')
          ∧ skipping = { file with checksumPolicy := .skip })
      ∧ ((∀ (v w' : World) (index index' : Option PersistentKeyIndex) (s t : Session),
          v.platform = w.platform → w'.platform = w.platform → w'.Quiet →
          Reachable file (fun v => v.platform = w.platform) index s →
          Reachable file.skipping (fun v => v.platform = w.platform) index' t →
          ∀ {α : Type} {x y : Exec α} {G : α → Prop}, SameCall file x y G →
            ∀ a, (x v s).1 = .ok a → G a → (y w' t).1 = .ok a)
        ↔ ∀ index rows, file.freshRows w.platform index = .ok rows →
            ∀ origin < index, ∃ rows, file.skipping.freshRows w.platform origin = .ok rows) := by
  refine ⟨?_, ?_, ?_⟩
  . intro w' t hw' hquiet
    obtain ⟨t', hopen'⟩ := open_skipping hp hw' hquiet hopen t
    exact ⟨_, t', hopen', rfl⟩
  . intro hfollows index rows hrows origin hlt
    by_contra hfails
    have hpos : ∀ block ∈ file.layout.keyBlocks, 0 < block.entryCount := fun block hblock =>
      ((OpenedFrom.wellFormed ⟨kind, w, s₀, s₁, hopen⟩).keyBlockSizes block hblock).1
    obtain ⟨e, he⟩ : ∃ e, file.skipping.freshRows w.platform origin = .error e := by
      cases hresult : file.skipping.freshRows w.platform origin with
      | error e => exact ⟨e, rfl⟩
      | ok rows => exact absurd ⟨rows, hresult⟩ hfails
    obtain ⟨ordinal, hordinal, hposition⟩ :=
      exists_ordinal ((file.freshRows_eq_ok w.platform).mp hrows).1
    have hcalm := World.calm_quiet w.platform
    obtain ⟨t, hreach, e', hkey⟩ := @exists_hidden file.skipping (.calm w.platform) hcalm
      (fun v => v.platform = w.platform) rfl (fun _ h => h) hpos origin index ordinal 0 e he hlt
      hordinal ((keyPosition_skipping file ordinal).trans hposition)
    have hhit : file.IsHit w.platform ordinal ⟨index, 0, rows⟩ := ⟨hordinal, hposition, hrows⟩
    have hhasKey : file.HasKey w.platform ordinal _ :=
      ⟨_, _, hhit, List.getElem?_eq_getElem hhit.entryIndex_lt, rfl⟩
    have hsame := hfollows (.calm w.platform) (.calm w.platform) none none .fresh t rfl rfl hcalm
      (.opened []) hreach (.keyAt ordinal) _ hhasKey.outcome_eq trivial
    rw [hkey] at hsame
    contradiction
  . intro hkept v w' index index' s t hv hw' hquiet hs ht α x y G hcall a hx ha
    have hsound := (hs.allSound fun _ h => h).1
    have hsound' := (ht.allSound fun _ h => h).1
    rw [← hv] at hsound hkept hp
    rw [← hw'] at hsound'
    have hground : file.SkipGround v w' (AllSound file v.platform index)
        (AllSound file.skipping w'.platform index') := {
      platform_eq := hw'.trans hv.symm
      quiet := hquiet
      left := file_invariant_allSound.events
      right := file_invariant_allSound.events
      checksum := hp
      sound := file_invariant_allSound
      skipSound := file_invariant_allSound
      kept := hkept
    }
    obtain ⟨-, t', hrun, -⟩ := hcall.follows hground s t a (x v s).2 hsound hsound'
      (Prod.ext hx rfl) ha
    rw [hrun]

/-- A file whose checksums are right opens in both ways, to the same dictionary. -/
theorem skipping_answers_iff_sample
    : ∃ file skipping s t,
        MdictFile.open Sample.checkedContainer .mdx Sample.verifying Sample.world .fresh
            = (.ok file, s)
          ∧ MdictFile.open Sample.checkedContainer .mdx
              { Sample.verifying with checksumPolicy := .skip } Sample.world .fresh
            = (.ok skipping, t)
          ∧ skipping = { file with checksumPolicy := .skip } := by
  obtain ⟨file, s, hopen⟩ := Sample.checked_opens
  obtain ⟨skipping, t, hskip, heq⟩ :=
    (skipping_answers_iff (w := Sample.world) Sample.ignoresChecksum hopen).1 Sample.world .fresh rfl Sample.quiet
  exact ⟨file, skipping, s, t, hopen, hskip, heq⟩

end Mdict
