import Mdict.Theorems.Agreement

/-!
This module contains what the reader of a key index makes of long rows: a build writes every row that
its memory has room for, but the reader takes rows no longer than a decoded block may be.
-/

namespace Mdict

open Effect Persistent MdictFile

variable {mdx : MdxFile} {p : Platform} {identity : KeyIndexSourceIdentity}
variable {options : KeyIndexOptions} {bytes : Bytes} {index : PersistentKeyIndex} {query : Str}

/-- Some lookup in memory of this query comes to an answer. -/
def AnswersInMemory (mdx : MdxFile) (p : Platform) (query : Str) : Prop :=
  ∃ w other s located t, w.platform = p ∧ Reachable mdx.inner (·.platform = p) other s
    ∧ mdx.locate query w s = (.ok located, t)

theorem answersInMemory_fresh {w : World} (h : (mdx.locate query w .fresh).1.isOk = true)
    : AnswersInMemory mdx w.platform query := by
  generalize hrun : mdx.locate query w .fresh = run at h
  obtain ⟨e | located, t⟩ := run
  . contradiction
  . exact ⟨w, none, .fresh, located, t, rfl, .opened [], hrun⟩

/-- No lookup on the index fails by the limit of a row where one in memory comes to an answer. -/
def ReadsRows (mdx : MdxFile) (p : Platform) (index : PersistentKeyIndex) : Prop :=
  ∀ query, AnswersInMemory mdx p query → ∀ w s e t, w.platform = p →
    Reachable mdx.inner (·.platform = p) (some index) s →
    mdx.locateWithKeyIndex index query w s = (.error e, t) → e.isRowLimit = false

/-- A dictionary in which one lookup in memory comes to an answer has a locator within limits. -/
theorem AnswersInMemory.locatorFits (h : AnswersInMemory mdx p query)
    : ∃ blocks, mdx.inner.DecodesTo p blocks ∧ mdx.inner.LocatorFits p (keysOf blocks) := by
  obtain ⟨w, other, s, located, t, rfl, hreach, hrun⟩ := h
  have hsound := (hreach.allSound fun _ hw => hw).1
  change mdx.inner.locateKeys query w s = _ at hrun
  unfold locateKeys at hrun
  rw [Prog.bind_eq_ok] at hrun
  obtain ⟨locator, s1, hlocator, -⟩ := hrun
  have hensures : Ensures w (AllSound mdx.inner w.platform other) mdx.inner.keyLocator _ _ :=
    keyLocator_ensures file_invariant_allSound
  have hbuilt := hensures s hsound
  rw [hlocator] at hbuilt
  obtain ⟨-, blocks, hblocks, hfits, -⟩ := hbuilt
  exact ⟨blocks, hblocks, hfits⟩

theorem queryFits_of_key {file : MdictFile} {keys : List Str} (hfits : file.LocatorFits p keys)
    {row : Nat} {key : Str} (hkey : keys[row]? = some key)
    : file.QueryFits p key := by
  have hle : (file.keyText p key).length ≤ (keys.flatMap (file.keyText p)).length := by
    rw [List.flatMap_def]
    apply List.Sublist.length_le
    apply List.sublist_flatten_of_mem
    exact List.mem_map_of_mem (List.mem_of_getElem? hkey)
  have hmax : u32Bound ≤ u64Max := by decide
  have := hfits.bytes
  have := hfits.text
  rw [QueryFits]
  omega

/-- The keys of a dictionary whose locator is within limits are found in memory. -/
theorem answersInMemory_of_key {blocks : List (List DecodedKeyRow)}
    (hblocks : mdx.inner.DecodesTo p blocks) (hfits : mdx.inner.LocatorFits p (keysOf blocks))
    {row : Nat} {key : Str} (hkey : (keysOf blocks)[row]? = some key)
    : AnswersInMemory mdx p key := by
  have hensures : Ensures (.calm p) (AllSound mdx.inner p none) (mdx.inner.locateKeys key) _ _ :=
    locateKeys_ensures file_invariant_allSound key
  have hrun := hensures .fresh ((Reachable.opened []).allSound fun _ hw => hw).1
  generalize hresult : mdx.inner.locateKeys key (.calm p) .fresh = run at hrun
  obtain ⟨e | located, t⟩ := run
  . rcases hrun.2 with he | he
    . exact absurd he (not_interrupted (World.calm_quiet p))
    . exact absurd ⟨hfits, queryFits_of_key hfits hkey⟩ (he blocks hblocks)
  . exact ⟨.calm p, none, .fresh, located, t, rfl, .opened [], hresult⟩

/-- A world in which nothing goes wrong and the file system knows this identity. -/
def knows (p : Platform) (identity : KeyIndexSourceIdentity) : World :=
  { World.calm p with
    identity := fun _ =>
      ⟨identity.sourceBytes % u64Bound, identity.sourceModifiedUnixNanos,
        Nat.mod_lt _ (by decide)⟩ }

theorem quiet_knows : (knows p identity).Quiet :=
  ⟨fun _ => rfl, fun _ => rfl, fun _ => show 0 < u64Max by decide⟩

theorem MdictFile.OwnIdentity.unchanged {file : MdictFile} (h : file.OwnIdentity identity)
    : file.Unchanged (knows p identity) identity where
  sourceLen := h.sourceBytes.symm
  len := fun _ => Nat.mod_eq_of_lt h.sourceBytes_lt
  modified := fun _ => rfl
  keyCount := h.keyCount.symm

/-- Only rows that are too long make a lookup fail by the limit of a row. -/
theorem readsRows_of_short {blocks : List (List DecodedKeyRow)}
    (h : index.Represents mdx.inner p blocks) (hshort : ∀ row < index.len, index.Short row)
    : ReadsRows mdx p index := by
  rintro query ⟨w', other, s', located, t', hw', -, hmemory⟩ w s e t rfl hreach hrun
  have hfits : mdx.inner.QueryFits w.platform query := by
    rw [← hw']
    exact queryFits_of_run hmemory
  have hensures : Ensures w (AllSound mdx.inner w.platform (some index))
      (mdx.inner.locateWithIndex index query) _ _ :=
    locateWithIndex_ensures file_invariant_allSound (index_invariant_allSound rfl)
      h.intact.chunkBytes_pos query
  replace hensures := hensures s (hreach.allSound fun _ hw => hw).1
  change mdx.inner.locateWithIndex index query w s = _ at hrun
  rw [hrun] at hensures
  cases hensures.2 with
  | stopped h =>
    rcases h with h | ⟨-, row, hrow, hlong⟩
    . exact Error.isRowLimit_of_isTransient h.1
    . exact absurd (hshort row hrow) hlong
  | matchLimit _ hrow => exact hrow
  | changed h _ => exact Error.isRowLimit_of_isTransient h
  | unfit hunfit => exact absurd ⟨⟨blocks, h⟩, hfits⟩ hunfit

/-- A key whose row is too long is found in memory, but its lookup on the index fails. -/
theorem short_of_readsRows {blocks : List (List DecodedKeyRow)}
    (h : index.Represents mdx.inner p blocks) (hown : mdx.inner.OwnIdentity index.sourceIdentity)
    (hfits : mdx.inner.LocatorFits p (keysOf blocks)) {s : Session}
    (hreach : Reachable mdx.inner (·.platform = p) (some index) s)
    (hreads : ReadsRows mdx p index) {row : Nat} (hrow : row < index.len)
    : index.Short row := by
  obtain ⟨key, hkey⟩ := h.exists_key hrow
  rw [h.short_iff hrow, h.text row key hkey]
  by_contra hlong
  obtain ⟨hlt, htext⟩ := h.lowerBoundOf_keyText hkey
  have hlong' : ¬index.Short (index.orderOf
      (index.lowerBoundOf (mdx.inner.keyText p key) false)) := by
    rwa [h.short_iff (h.orderOf_lt hlt), htext]
  have hstops : Ensures (knows p index.sourceIdentity) (AllSound mdx.inner p (some index))
      (mdx.inner.locateWithIndex index key) _ _ :=
    locateWithIndex_stops file_invariant_allSound (index_invariant_allSound rfl)
      h.intact.chunkBytes_pos hlt hlong'
  replace hstops := hstops s (hreach.allSound fun _ hw => hw).1
  generalize hrun : mdx.inner.locateWithIndex index key (knows p index.sourceIdentity) s = run
    at hstops
  obtain ⟨e | located, t⟩ := run
  . have hlimit := hreads key (answersInMemory_of_key h.decodes hfits hkey) _ _ _ _ rfl hreach hrun
    rcases hstops.2 with (he | ⟨he, -⟩) | he
    . exact not_interrupted quiet_knows he
    . rw [hlimit] at he
      contradiction
    . exact he ⟨⟨blocks, h⟩, hown.unchanged, queryFits_of_key hfits hkey⟩
  . exact hstops.2

/--
Lookups on an index that was built of a dictionary and opened again fail by the limit of a row
unless all normalized keys are as short as the decoded blocks must be.
-/
theorem readsRows_iff (hartifact : IsArtifact mdx p identity options bytes)
    (hopen : IsReopened mdx p options bytes index) (hmemory : AnswersInMemory mdx p query)
    : ReadsRows mdx p index
        ↔ ∀ ordinal < mdx.inner.len,
          (mdx.inner.textAt p ordinal).length ≤ mdx.inner.limits.decompressedBlockBytes := by
  obtain ⟨blocks, h, hidentity⟩ := hopen.represents hartifact
  obtain ⟨_, built, hbuilt, hown, -⟩ := hartifact.built
  obtain ⟨blocks', hblocks', hfits⟩ := hmemory.locatorFits
  obtain rfl := hblocks'.unique h.decodes
  have hshort (row : Nat) (hrow : row < index.len)
      : index.Short row
        ↔ (mdx.inner.textAt p row).length ≤ mdx.inner.limits.decompressedBlockBytes := by
    rw [h.short_iff hrow, h.textOf_eq hrow, row_eq_textAt h.decodes (h.len_eq ▸ hrow),
      hopen.maxRowBytes]
  rw [← h.len_eq]
  constructor
  . intro hreads row hrow
    obtain ⟨s, hreach⟩ := hopen.reachable
    rw [← hshort row hrow]
    refine short_of_readsRows h ?_ hfits hreach hreads hrow
    rw [hidentity, ← hown]
    exact hbuilt.identity
  . intro hrows
    exact readsRows_of_short h fun row hrow => (hshort row hrow).mpr (hrows row hrow)

/-- The keys of the dictionary with one key are short enough. -/
theorem readsRows_iff_sample
    : ∃ bytes index,
        IsReopened ⟨Sample.single⟩ (Sample.worldOf Sample.single).platform
          { KeyIndexOptions.new with buildMemoryBytes := 2 ^ 20 } bytes index
        ∧ ReadsRows ⟨Sample.single⟩ (Sample.worldOf Sample.single).platform index := by
  obtain ⟨bytes, index, s, hartifact, hopen, -⟩ := Sample.exists_index
    (show Sample.rebuilds Sample.single ⟨Sample.single.source.len, 0, 1⟩
      { KeyIndexOptions.new with buildMemoryBytes := 2 ^ 20 } (fun _ _ => true) = true by
      decide +kernel)
  obtain ⟨hlocates, hshort⟩ : (MdxFile.locate ⟨Sample.single⟩ ['a']
        (Sample.worldOf Sample.single) .fresh).1.isOk = true
      ∧ ∀ ordinal < Sample.single.len,
        (Sample.single.textAt (Sample.worldOf Sample.single).platform ordinal).length
          ≤ Sample.single.limits.decompressedBlockBytes := by
    decide +kernel
  generalize Sample.worldOf Sample.single = w at *
  generalize Sample.single = single at *
  have hmemory := answersInMemory_fresh hlocates
  exact ⟨bytes, index, hopen, (readsRows_iff hartifact hopen hmemory).mpr hshort⟩

namespace Sample

/-- The bytes of the key of `wide`: seven times the character 4E2D in UTF-16LE. -/
def wideKey : Bytes := (List.replicate 7 [0x2D, 0x4E]).flatten

/-- A version 1 file with this key, whose only key block has 20 bytes without the envelope. -/
def wideContainer : Bytes :=
  headerBytes "<Dictionary GeneratedByEngineVersion=\"1.2\" Encoding=\"UTF-16\"/>".toList
    ++ [0, 0, 0, 1, 0, 0, 0, 1, 0, 0, 0, 42, 0, 0, 0, 28]
    ++ [0, 0, 0, 1, 7] ++ wideKey ++ [7] ++ wideKey ++ [0, 0, 0, 28, 0, 0, 0, 20]
    ++ envelope ([0, 0, 0, 0] ++ wideKey ++ [0, 0])
    ++ [0, 0, 0, 1, 0, 0, 0, 1, 0, 0, 0, 8, 0, 0, 0, 10]
    ++ [0, 0, 0, 10, 0, 0, 0, 2]
    ++ envelope [120, 0]

/-- A dictionary with blocks of at most 20 bytes; the only key takes 21 bytes in UTF-8. -/
def wide : MdictFile :=
  opened wideContainer
    { OpenOptions.new with limits := { Limits.new with decompressedBlockBytes := 20 } }

end Sample

/-- A key of 20 bytes with its offset is written as a row of 21 bytes, which no lookup gets past. -/
theorem readsRows_counterexample
    : ∃ bytes index,
        IsArtifact ⟨Sample.wide⟩ (Sample.worldOf Sample.wide).platform
          ⟨Sample.wide.source.len, 0, 1⟩
          { KeyIndexOptions.new with buildMemoryBytes := 2 ^ 20 } bytes
        ∧ IsReopened ⟨Sample.wide⟩ (Sample.worldOf Sample.wide).platform
          { KeyIndexOptions.new with buildMemoryBytes := 2 ^ 20 } bytes index
        ∧ ¬ReadsRows ⟨Sample.wide⟩ (Sample.worldOf Sample.wide).platform index := by
  obtain ⟨bytes, index, s, hartifact, hopen, hreach, hfails⟩ := Sample.exists_index
    (show Sample.rebuilds Sample.wide ⟨Sample.wide.source.len, 0, 1⟩
      { KeyIndexOptions.new with buildMemoryBytes := 2 ^ 20 } (fun index s =>
        Sample.failsWith
          (MdxFile.locateWithKeyIndex ⟨Sample.wide⟩ index ['a'] (Sample.worldOf Sample.wide) s).1
          (.limitExceeded "key_index_row_bytes" 21 20)) = true by
      decide +kernel)
  have hlocates : (MdxFile.locate ⟨Sample.wide⟩ ['a'] (Sample.worldOf Sample.wide) .fresh).1.isOk
      = true := by
    decide +kernel
  generalize Sample.worldOf Sample.wide = w at *
  generalize Sample.wide = wide at *
  have hfails := Sample.eq_of_failsWith hfails
  refine ⟨bytes, index, hartifact, hopen, fun hreads => ?_⟩
  have hlimit := hreads ['a'] (answersInMemory_fresh hlocates) _ s _ _ rfl hreach
    (Prod.ext hfails rfl)
  exact absurd hlimit (by decide)

end Mdict
