import Mdict.Lemmas.Persistent.Build
import Mdict.Lemmas.Persistent.Open
import Mdict.Lemmas.Persistent.Queries
import Mdict.Lemmas.Preserved

/-!
This module contains the histories of one open dictionary, and that the caches are sound after each
of them.
-/

namespace Mdict

open Effect

/-- The public calls on an open dictionary and on the key index that is open with it. -/
inductive Call (file : MdictFile) (index : Option PersistentKeyIndex) : {α : Type} → Exec α → Prop
  | keyAt (ordinal : Nat) : Call file index (file.keyAtOrdinal ordinal)
  | keysAt (ordinals : List Nat) : Call file index (file.keysAtOrdinals ordinals)
  | nextKey (iter : RowIter) : Call file index (KeyIter.next file iter)
  | locate (query : Str) : Call file index (file.locateKeys query)
  | locatePage (query : Str) (offset limit : Nat)
    : Call file index (file.locateKeyPage query offset limit)
  | entryAt (ordinal : Nat) : Call file index (MdxFile.entryAt ⟨file⟩ ordinal)
  | nextEntry (iter : MdxEntryIter) : Call file index (MdxEntryIter.next ⟨file⟩ iter)
  | locateWithMode (query : Str) (mode : MatchMode)
    : Call file index (MdxFile.locateWithMode ⟨file⟩ query mode)
  | locatePageWithMode (query : Str) (offset limit : Nat) (mode : MatchMode)
    : Call file index (MdxFile.locatePageWithMode ⟨file⟩ query offset limit mode)
  | prefixKeys (keyPrefix : Str) (limit : Nat)
    : Call file index (MdxFile.prefixKeys ⟨file⟩ keyPrefix limit)
  | scanNormalizedKeys {β : Type} (visit : β → Nat → Bytes → β × Bool) (acc : β)
    : Call file index (file.scanNormalizedKeys visit acc)
  | lookupEntry (query : Str) : Call file index (MdxFile.lookup ⟨file⟩ query)
  | spanAt (ordinal : Nat) : Call file index (MddFile.spanAt ⟨file⟩ ordinal)
  | readSpan (span : MddResourceSpan) (source : span.source = file) : Call file index span.read
  | copySpanTo (span : MddResourceSpan) (source : span.source = file) (destination : Bytes)
    : Call file index (span.copyTo destination)
  | resourceAt (ordinal : Nat) : Call file index (MddFile.resourceAt ⟨file⟩ ordinal)
  | nextResource (iter : MddResourceIter) : Call file index (MddResourceIter.next ⟨file⟩ iter)
  | lookupSpan (query : Str) : Call file index (MddFile.lookupSpan ⟨file⟩ query)
  | lookupResource (query : Str) : Call file index (MddFile.lookup ⟨file⟩ query)
  | keyIndexSourceIdentity : Call file index (MdxFile.keyIndexSourceIdentity ⟨file⟩)
  | buildKeyIndex (destination : Persistent.Destination) (options : KeyIndexOptions)
    : Call file index (MdxFile.buildKeyIndex ⟨file⟩ destination options)
  | buildKeyIndexToPath (options : KeyIndexOptions)
    : Call file index (MdxFile.buildKeyIndexToPath ⟨file⟩ options)
  | locateWithKeyIndex (opened : PersistentKeyIndex) (isOpen : index = some opened) (query : Str)
    : Call file index (MdxFile.locateWithKeyIndex ⟨file⟩ opened query)
  | locateWithKeyIndexAndMode (opened : PersistentKeyIndex) (isOpen : index = some opened)
    (query : Str) (mode : MatchMode)
    : Call file index (MdxFile.locateWithKeyIndexAndMode ⟨file⟩ opened query mode)
  | locatePageWithKeyIndex (opened : PersistentKeyIndex) (isOpen : index = some opened)
    (query : Str) (offset limit : Nat)
    : Call file index (MdxFile.locatePageWithKeyIndex ⟨file⟩ opened query offset limit)
  | locatePageWithKeyIndexAndMode (opened : PersistentKeyIndex) (isOpen : index = some opened)
    (query : Str) (offset limit : Nat) (mode : MatchMode)
    : Call file index
        (MdxFile.locatePageWithKeyIndexAndMode ⟨file⟩ opened query offset limit mode)
  | prefixKeysWithIndex (opened : PersistentKeyIndex) (isOpen : index = some opened)
    (keyPrefix : Str) (limit : Nat)
    : Call file index (MdxFile.prefixKeysWithIndex ⟨file⟩ opened keyPrefix limit)
  | scanNormalizedKeysWithIndex {β : Type} (opened : PersistentKeyIndex)
    (isOpen : index = some opened) (visit : β → Nat → Bytes → β × Bool) (acc : β)
    : Call file index (MdxFile.scanNormalizedKeysWithIndex ⟨file⟩ opened visit acc)

/--
The states that a history of calls can lead to, each of them in one of `worlds`. A call may fail.
With the state comes the key index that was opened last.
-/
inductive Reachable (file : MdictFile) (worlds : World → Prop)
    : Option PersistentKeyIndex → Session → Prop
  | opened (events : List Event) : Reachable file worlds none { Session.fresh with events }
  | call {index : Option PersistentKeyIndex} {s : Session} {α : Type} {x : Exec α} {w : World}
    (before : Reachable file worlds index s) (world : worlds w) (isCall : Call file index x)
    : Reachable file worlds index (x w s).2
  | openKeyIndex {index : Option PersistentKeyIndex} {s s' : Session} {w : World} {bytes : Bytes}
    {expected : KeyIndexSourceIdentity} {options : KeyIndexOptions} {opened : PersistentKeyIndex}
    (before : Reachable file worlds index s) (world : worlds w)
    (run : PersistentKeyIndex.openFile bytes file expected options w s = (.ok opened, s'))
    : Reachable file worlds (some opened) s'
  | openKeyIndexFails {index : Option PersistentKeyIndex} {s s' : Session} {w : World}
    {bytes : Bytes} {expected : KeyIndexSourceIdentity} {options : KeyIndexOptions} {e : Error}
    (before : Reachable file worlds index s) (world : worlds w)
    (run : PersistentKeyIndex.openFile bytes file expected options w s = (.error e, s'))
    : Reachable file worlds index s'

/-! ## Invariants -/

/-- The caches of the dictionary and of the index that is open are sound. -/
structure AllSound (file : MdictFile) (p : Platform) (index : Option PersistentKeyIndex)
    (s : Session)
    : Prop where
  file : file.Sound p s
  index : ∀ opened, index = some opened → opened.CacheSound s

variable {file : MdictFile} {index : Option PersistentKeyIndex} {p : Platform}
variable {w : World} {worlds : World → Prop} {s : Session}

theorem file_invariant_allSound : file.Invariant p (AllSound file p index) where
  sound := fun _ h => h.file
  events := fun s events h => ⟨(file.invariant_sound p).events s events h.file,
    fun opened ho => opened.invariant_cacheSound.events s events (h.index opened ho)⟩
  keyBlock := fun s cache h hcache => ⟨(file.invariant_sound p).keyBlock s cache h.file hcache,
    fun opened ho => ⟨(h.index opened ho).chunk, (h.index opened ho).checksum⟩⟩
  recordBlock := fun s cache h hcache =>
    ⟨(file.invariant_sound p).recordBlock s cache h.file hcache,
      fun opened ho => ⟨(h.index opened ho).chunk, (h.index opened ho).checksum⟩⟩
  locator := fun s locator h hlocator =>
    ⟨(file.invariant_sound p).locator s locator h.file hlocator,
      fun opened ho => ⟨(h.index opened ho).chunk, (h.index opened ho).checksum⟩⟩

theorem index_invariant_allSound {opened : PersistentKeyIndex} (ho : index = some opened)
    : opened.Invariant (AllSound file p index) := by
  subst ho
  have hfile {s s' : Session} (h : file.Sound p s) (hkey : s'.keyBlockCache = s.keyBlockCache)
      (hrecord : s'.recordBlockCache = s.recordBlockCache) (hlocator : s'.locator = s.locator)
      : file.Sound p s' :=
    ⟨hkey ▸ h.keyBlock, hrecord ▸ h.recordBlock, hlocator ▸ h.locator⟩
  constructor
  . exact fun s h => h.index opened rfl
  . exact file_invariant_allSound.events
  . intro s kind slot h hslot
    refine ⟨hfile h.file rfl rfl rfl, ?_⟩
    rintro _ ⟨⟩
    exact opened.invariant_cacheSound.chunk s kind slot (h.index opened rfl) hslot
  . intro s slot h hslot
    refine ⟨hfile h.file rfl rfl rfl, ?_⟩
    rintro _ ⟨⟩
    exact opened.invariant_cacheSound.checksum s slot (h.index opened rfl) hslot

/-- Every call keeps every invariant that asks no more of the caches than to be sound. -/
theorem Call.preserves {α : Type} {x : Exec α} {I : Session → Prop} (h : Call file index x)
    (hI : file.Invariant w.platform I)
    (hindex : ∀ opened, index = some opened →
      opened.Invariant I ∧ 0 < opened.header.chunkBytes)
    : Preserves w I x := by
  have hlocateWithIndex (opened : PersistentKeyIndex) (ho : index = some opened) (query : Str)
      : Preserves w I (file.locateWithIndex opened query) :=
    .of_ensures (MdictFile.locateWithIndex_ensures hI (hindex opened ho).1 (hindex opened ho).2 query)
  have hpageWithIndex (opened : PersistentKeyIndex) (ho : index = some opened) (query : Str)
      (offset limit : Nat)
      : Preserves w I (file.locatePageWithIndex opened query offset limit) :=
    .of_ensures (MdictFile.locatePageWithIndex_ensures hI (hindex opened ho).1
      (hindex opened ho).2 query offset limit)
  have hvariantsWithIndex (opened : PersistentKeyIndex) (ho : index = some opened) (query : Str)
      (offset limit : Nat)
      : Preserves w I (file.locateCaseVariantsWithIndex opened query offset limit) :=
    .of_ensures (MdictFile.locateCaseVariantsWithIndex_ensures hI (hindex opened ho).1
      (hindex opened ho).2 query offset limit)
  cases h with
  | keyAt ordinal => exact .of_ensures (MdictFile.keyAtOrdinal_ensures hI ordinal)
  | keysAt ordinals => exact .of_ensures (MdictFile.keysAtOrdinals_ensures hI ordinals)
  | nextKey iter => exact MdictFile.nextKey_preserves hI iter
  | locate query => exact .of_ensures (MdictFile.locateKeys_ensures hI query)
  | locatePage query offset limit =>
    exact .of_ensures (MdictFile.locateKeyPage_ensures hI query offset limit)
  | entryAt ordinal => exact MdxFile.entryAt_preserves hI ordinal
  | nextEntry iter => exact MdxFile.nextEntry_preserves hI iter
  | locateWithMode query mode => exact MdxFile.locateWithMode_preserves hI query mode
  | locatePageWithMode query offset limit mode =>
    exact MdxFile.locatePageWithMode_preserves hI query offset limit mode
  | prefixKeys keyPrefix limit => exact MdxFile.prefixKeys_preserves hI keyPrefix limit
  | scanNormalizedKeys visit acc =>
    exact .of_ensures (MdictFile.scanNormalizedKeys_ensures hI visit acc)
  | lookupEntry query => exact MdxFile.lookup_preserves hI query
  | spanAt ordinal => exact .of_ensures (MddFile.spanAt_ensures hI ordinal)
  | readSpan span source =>
    subst source
    exact MddResourceSpan.read_preserves hI
  | copySpanTo span source destination =>
    subst source
    exact MddResourceSpan.copyTo_preserves hI destination
  | resourceAt ordinal => exact MddFile.resourceAt_preserves hI ordinal
  | nextResource iter => exact MddFile.nextResource_preserves hI iter
  | lookupSpan query => exact .of_ensures (MddFile.lookupSpan_ensures hI query)
  | lookupResource query => exact MddFile.lookup_preserves hI query
  | keyIndexSourceIdentity => exact .of_ensures (MdictFile.sourceIdentity_gives hI.events)
  | buildKeyIndex destination options =>
    exact .of_ensures (MdictFile.buildToWriter_gives hI destination)
  | buildKeyIndexToPath options => exact .of_ensures (MdictFile.buildToPath_gives hI)
  | locateWithKeyIndex opened isOpen query => exact hlocateWithIndex opened isOpen query
  | locateWithKeyIndexAndMode opened isOpen query mode =>
    unfold MdxFile.locateWithKeyIndexAndMode
    split
    . refine .bind (hvariantsWithIndex opened isOpen query _ _) fun page => ?_
      cases page with
      | none => exact hlocateWithIndex opened isOpen query
      | some page => exact .pure
    . exact hlocateWithIndex opened isOpen query
  | locatePageWithKeyIndex opened isOpen query offset limit =>
    exact hpageWithIndex opened isOpen query offset limit
  | locatePageWithKeyIndexAndMode opened isOpen query offset limit mode =>
    unfold MdxFile.locatePageWithKeyIndexAndMode
    split
    . refine .bind (hvariantsWithIndex opened isOpen query _ _) fun page => ?_
      cases page with
      | none => exact hpageWithIndex opened isOpen query offset limit
      | some page => exact .pure
    . exact hpageWithIndex opened isOpen query offset limit
  | prefixKeysWithIndex opened isOpen keyPrefix limit =>
    exact .of_ensures (MdictFile.prefixWithIndex_ensures hI (hindex opened isOpen).1
      (hindex opened isOpen).2 keyPrefix limit)
  | scanNormalizedKeysWithIndex opened isOpen visit acc =>
    exact .of_ensures (MdictFile.scanWithIndex_ensures hI (hindex opened isOpen).1
      (hindex opened isOpen).2 visit acc)

/-- After every history the caches are sound, and the index that is open was accepted. -/
theorem Reachable.allSound (h : Reachable file worlds index s)
    (hworlds : ∀ w, worlds w → w.platform = p)
    : AllSound file p index s
        ∧ ∀ opened, index = some opened → ∃ bytes options, opened.Opened bytes options := by
  have hchunk {opened : PersistentKeyIndex} {bytes : Bytes} {options : KeyIndexOptions}
      (ho : opened.Opened bytes options) : 0 < opened.header.chunkBytes :=
    (PersistentKeyIndex.parsed_of_parseHeader ho.header).chunkBytes_pos
  induction h with
  | opened events =>
    refine ⟨⟨(file.invariant_sound p).events _ events (file.sound_fresh p), ?_⟩, ?_⟩
    . intro opened ho
      contradiction
    . intro opened ho
      contradiction
  | call before world isCall ih =>
    obtain ⟨hsound, hopened⟩ := ih
    have hw := hworlds _ world
    refine ⟨?_, hopened⟩
    rw [← hw] at hsound ⊢
    apply isCall.preserves file_invariant_allSound _ _ hsound
    intro opened ho
    obtain ⟨bytes, options, hopen⟩ := hopened opened ho
    exact ⟨index_invariant_allSound ho, hchunk hopen⟩
  | openKeyIndex before world run ih =>
    obtain ⟨hopen, -, s', hs', rfl⟩ :=
      PersistentKeyIndex.openFile_ok file_invariant_allSound.events ih.1 run
    refine ⟨⟨⟨hs'.file.keyBlock, hs'.file.recordBlock, hs'.file.locator⟩, ?_⟩, ?_⟩
    . rintro _ ⟨⟩
      exact ⟨fun _ => PersistentKeyIndex.slotSound_none _, fun page h => by contradiction⟩
    . rintro _ ⟨⟩
      exact ⟨_, _, hopen⟩
  | openKeyIndexFails before world run ih =>
    exact ⟨PersistentKeyIndex.openFile_error file_invariant_allSound.events ih.1 run, ih.2⟩

end Mdict
