import Mdict.Core.Locator
import Mdict.Lemmas.RecordBlocks

/-!
This module contains the invariant of the state of one open dictionary: each cache holds what a
fresh handle would find out. Every operation is proved against any invariant that asks no more of
the caches than this.
-/

namespace Mdict

open Effect

/-- The locator of a list of normalized texts and raw digests. -/
def KeyLocator.ofTexts (texts : List Bytes) (digests : List Nat) : KeyLocator :=
  let bounds := (List.range (texts.length + 1)).map (Search.start (texts.map List.length))
  { text := texts.flatten
    bounds
    order := (List.range texts.length).mergeSort fun left right =>
      (compareRows texts.flatten bounds left right).isLE
    rawDigest := digests }

namespace MdictFile

variable (file : MdictFile) (p : Platform)

/-- All key blocks decode on a fresh handle, to these rows. -/
structure DecodesTo (blocks : List (List DecodedKeyRow)) : Prop where
  length_eq : blocks.length = file.keyBlockCount
  freshRows : ∀ index rows, blocks[index]? = some rows → file.freshRows p index = .ok rows

/-- The normalized text of a key, as the locator stores it. -/
def keyText (raw : Str) : Bytes := Unicode.utf8 (file.normalizer.normalizeText p raw)

/-- The locator of these physical keys. -/
def locatorOf (keys : List Str) : KeyLocator :=
  .ofTexts (keys.map (file.keyText p)) (keys.map rawDigest)

/-- The keys in the rows of all blocks. -/
def keysOf (blocks : List (List DecodedKeyRow)) : List Str := blocks.flatten.map (·.key)

/-- The locator of these physical keys is within the limits that its construction enforces. -/
structure LocatorFits (keys : List Str) : Prop where
  entries : keys.length ≤ min file.limits.locatorEntries u32Max
  bytes : (keys.length + 1 + keys.length * 2) * 4 + (keys.flatMap (file.keyText p)).length
    ≤ file.limits.locatorBytes
  text : (keys.flatMap (file.keyText p)).length < u32Bound

/-- The locator of a dictionary is that of its keys; it fails only where it does not fit. -/
structure LocatorSound (locator : Option (CachedValue KeyLocator)) : Prop where
  ready : ∀ l, locator = some (.ready l) →
    ∃ blocks, file.DecodesTo p blocks ∧ file.LocatorFits p (keysOf blocks)
      ∧ l = file.locatorOf p (keysOf blocks)
  failed : ∀ failure, locator = some (.failed failure) →
    ∀ blocks, file.DecodesTo p blocks → ¬file.LocatorFits p (keysOf blocks)

/-- Every cache holds what a fresh handle would find out. -/
structure Sound (s : Session) : Prop where
  keyBlock : file.KeyCacheSound p s.keyBlockCache
  recordBlock : file.RecordCacheSound p s.recordBlockCache
  locator : file.LocatorSound p s.locator

/-- An invariant that asks no more of the caches of the dictionary than to be sound. -/
structure Invariant (I : Session → Prop) : Prop where
  sound : ∀ s, I s → file.Sound p s
  events : LogInvariant I
  keyBlock : ∀ s cache, I s → file.KeyCacheSound p cache → I { s with keyBlockCache := cache }
  recordBlock : ∀ s cache, I s → file.RecordCacheSound p cache →
    I { s with recordBlockCache := cache }
  locator : ∀ s locator, I s → file.LocatorSound p locator → I { s with locator }

theorem sound_fresh : file.Sound p .fresh where
  keyBlock := .none
  recordBlock := .none file p
  locator := ⟨by simp [Session.fresh], by simp [Session.fresh]⟩

theorem invariant_sound : file.Invariant p (file.Sound p) where
  sound := fun _ h => h
  events := fun _ _ h => ⟨h.keyBlock, h.recordBlock, h.locator⟩
  keyBlock := fun _ _ h hcache => ⟨hcache, h.recordBlock, h.locator⟩
  recordBlock := fun _ _ h hcache => ⟨h.keyBlock, hcache, h.locator⟩
  locator := fun _ _ h hlocator => ⟨h.keyBlock, h.recordBlock, hlocator⟩

/-! ## Decoded dictionaries -/

theorem entryCount_of_freshRows {i : Nat} {rows : List DecodedKeyRow}
    (hi : file.freshRows p i = .ok rows)
    : ∃ block, file.layout.keyBlocks[i]? = some block ∧ rows.length = block.entryCount
        ∧ rows ≠ [] := by
  obtain ⟨block, hblock, hlen, hne, -⟩ :=
    file.ownRows_eq_ok p ((file.freshRows_eq_ok p).mp hi).1
  exact ⟨block, hblock, hlen, hne⟩

/-- The first blocks hold as many rows as the layout declares. -/
theorem lengths_of_freshRows {done : List (List DecodedKeyRow)}
    (h : ∀ i rows, done[i]? = some rows → file.freshRows p i = .ok rows)
    : done.map List.length = file.layout.entryCounts.take done.length := by
  apply List.ext_getElem?
  intro i
  rw [List.getElem?_map, List.getElem?_take, ValidatedLayout.entryCounts, List.getElem?_map]
  split
  . next hi =>
    have hrows := List.getElem?_eq_getElem hi
    obtain ⟨block, hblock, hlen, -⟩ := file.entryCount_of_freshRows p (h i _ hrows)
    rw [hrows, hblock, Option.map_some, Option.map_some, hlen]
  . rw [List.getElem?_eq_none (by omega)]
    rfl

/-- One more block has been decoded. -/
theorem freshRows_concat {done : List (List DecodedKeyRow)} {rows : List DecodedKeyRow}
    (h : ∀ i rows, done[i]? = some rows → file.freshRows p i = .ok rows)
    (hrows : file.freshRows p done.length = .ok rows)
    : ∀ i rows', (done ++ [rows])[i]? = some rows' → file.freshRows p i = .ok rows' := by
  intro i rows' hi
  rw [List.getElem?_append] at hi
  split at hi
  . exact h i rows' hi
  . rw [List.getElem?_singleton] at hi
    split at hi
    . cases hi
      have : i = done.length := by omega
      exact this ▸ hrows
    . contradiction

namespace DecodesTo

variable {file} {p} {blocks : List (List DecodedKeyRow)}

theorem unique (h : file.DecodesTo p blocks) {blocks' : List (List DecodedKeyRow)}
    (h' : file.DecodesTo p blocks')
    : blocks = blocks' := by
  apply List.ext_getElem (h.length_eq.trans h'.length_eq.symm)
  intro i hi hi'
  have h1 := h.freshRows i _ (List.getElem?_eq_getElem hi)
  have h2 := h'.freshRows i _ (List.getElem?_eq_getElem hi')
  rw [h1] at h2
  injection h2

theorem entryCount (h : file.DecodesTo p blocks) {i : Nat} {rows : List DecodedKeyRow}
    (hi : blocks[i]? = some rows)
    : ∃ block, file.layout.keyBlocks[i]? = some block ∧ rows.length = block.entryCount
        ∧ rows ≠ [] :=
  file.entryCount_of_freshRows p (h.freshRows i rows hi)

/-- The blocks hold as many rows as the layout declares. -/
theorem lengths_eq (h : file.DecodesTo p blocks)
    : blocks.map List.length = file.layout.entryCounts := by
  rw [file.lengths_of_freshRows p h.freshRows]
  apply List.take_of_length_le
  rw [ValidatedLayout.entryCounts, List.length_map, h.length_eq]
  exact Nat.le_refl _

theorem length_flatten (h : file.DecodesTo p blocks) : blocks.flatten.length = file.len := by
  rw [List.length_flatten, h.lengths_eq, file.layoutVerified.totalEntries]
  rfl

theorem length_keysOf (h : file.DecodesTo p blocks) : (keysOf blocks).length = file.len := by
  rw [keysOf, List.length_map, h.length_flatten]

/-- The place of an ordinal in the blocks is its place in all rows. -/
theorem keyPosition_eq (h : file.DecodesTo p blocks) {ordinal : Nat} (hordinal : ordinal < file.len)
    : ∃ i j rows, file.keyPosition ordinal = .ok (i, j) ∧ blocks[i]? = some rows
        ∧ j < rows.length ∧ rows[j]? = blocks.flatten[ordinal]? := by
  obtain ⟨i, block, hblock, hlo, hhi, hposition⟩ := file.keyPosition_eq hordinal
  have hi : i < blocks.length := by
    rw [h.length_eq]
    exact (List.getElem?_eq_some_iff.mp hblock).1
  have hrows := List.getElem?_eq_getElem hi
  obtain ⟨block', hblock', hlen, -⟩ := h.entryCount hrows
  rw [hblock, Option.some.injEq] at hblock'
  subst hblock'
  refine ⟨i, ordinal - block.entryStartIndex, blocks[i], hposition, hrows, by omega, ?_⟩
  rw [← Search.getElem?_flatten hrows (by omega), h.lengths_eq,
    ← file.layoutVerified.entryStart i block hblock]
  congr 1
  omega

/-- Record starts are ordered over the whole dictionary. -/
theorem startsFrom (h : file.DecodesTo p blocks)
    : StartsFrom file.layout.totalDecodedRecordLen 0 blocks.flatten := by
  have hown (i : Nat) (rows : List DecodedKeyRow) (hi : blocks[i]? = some rows) :=
    (file.ownRows_eq_ok p ((file.freshRows_eq_ok p).mp (h.freshRows i rows hi)).1).choose_spec.2.2
  -- Adjacent blocks are checked against each other; the rest follows by transitivity.
  have hadjacent (i : Nat) (before rows : List DecodedKeyRow) (hi : blocks[i]? = some before)
      (hi' : blocks[i + 1]? = some rows)
      : ∀ a ∈ before, ∀ b ∈ rows, a.recordStart ≤ b.recordStart := by
    intro a ha b hb
    obtain ⟨-, hprevious⟩ := (file.freshRows_eq_ok p).mp (h.freshRows _ rows hi')
    obtain ⟨before', hbefore', hle⟩ := hprevious i rfl
    rw [((file.freshRows_eq_ok p).mp (h.freshRows i before hi)).1, Except.ok.injEq] at hbefore'
    subst hbefore'
    obtain ⟨hne, -, hsorted⟩ := hown i before hi
    obtain ⟨hne', -, hsorted'⟩ := hown (i + 1) rows hi'
    have hlast : a.recordStart ≤ (before.getLast hne).recordStart := by
      have := hsorted
      rw [← List.dropLast_append_getLast hne, List.pairwise_append] at this
      rw [← List.dropLast_append_getLast hne, List.mem_append, List.mem_singleton] at ha
      rcases ha with ha | rfl
      . exact this.2.2 a ha _ (List.mem_singleton.mpr rfl)
      . exact Nat.le_refl _
    have hfirst : (rows.head hne').recordStart ≤ b.recordStart := by
      have := hsorted'
      rw [← List.cons_head_tail hne', List.pairwise_cons] at this
      rw [← List.cons_head_tail hne', List.mem_cons] at hb
      rcases hb with rfl | hb
      . exact Nat.le_refl _
      . exact this.1 b hb
    have := hle _ _ (List.getLast?_eq_some_getLast hne) (List.head?_eq_some_head hne')
    omega
  constructor
  . intro row hrow
    obtain ⟨rows, hrows, hrow⟩ := List.mem_flatten.mp hrow
    obtain ⟨i, hi⟩ := List.mem_iff_getElem?.mp hrows
    exact (hown i rows hi).2.1 row hrow
  . rw [List.pairwise_flatten]
    refine ⟨?_, ?_⟩
    . intro rows hrows
      obtain ⟨i, hi⟩ := List.mem_iff_getElem?.mp hrows
      exact (hown i rows hi).2.2
    . have hfar (i d : Nat) : ∀ before rows, blocks[i]? = some before →
          blocks[i + d + 1]? = some rows → ∀ a ∈ before, ∀ b ∈ rows,
            a.recordStart ≤ b.recordStart := by
        induction d with
        | zero => exact fun before rows hi hi' => hadjacent i before rows hi hi'
        | succ d ih =>
          intro before rows hi hi' a ha b hb
          have hlt : i + d + 1 < blocks.length := by
            have := (List.getElem?_eq_some_iff.mp hi').1
            omega
          have hmiddle := List.getElem?_eq_getElem hlt
          obtain ⟨hne, -⟩ := hown _ _ hmiddle
          have h1 := ih before _ hi hmiddle a ha _ (List.head_mem hne)
          have h2 := hadjacent (i + d + 1) _ rows hmiddle hi' _ (List.head_mem hne) b hb
          omega
      rw [List.pairwise_iff_getElem]
      intro i j hi hj hij
      obtain ⟨d, rfl⟩ := Nat.exists_eq_add_of_lt hij
      exact hfar i d _ _ (List.getElem?_eq_getElem hi) (List.getElem?_eq_getElem hj)

end DecodesTo

end MdictFile

end Mdict
