import Mdict.Lemmas.Sample

/-!
This module contains the soundness of lookups with a key index: whatever bytes were accepted as the
index of a dictionary, what a lookup returns agrees with the source.
-/

namespace Mdict

open Effect MdictFile

variable {file : MdictFile} {p : Platform} {w : World} {I : Session → Prop} {s : Session}
variable {index : PersistentKeyIndex} {query : Str}

/--
The keys of these ordinals are normalized like the query; as raw matches they are the query, and as
normalized matches they are not.
-/
def MatchesQuery (file : MdictFile) (p : Platform) (query : Str) (basis : LocatorBasis)
    (ordinals : List Nat) : Prop :=
  ∀ ordinal ∈ ordinals, ordinal < file.len ∧ ∃ key, file.freshKey p ordinal = some key
    ∧ file.normalizer.normalizeText p key = file.normalizer.normalizeText p query
    ∧ (basis = .rawExact → key = query) ∧ (basis = .headerNormalized → key ≠ query)

theorem MatchesQuery.subset {basis : LocatorBasis} {ordinals ordinals' : List Nat}
    (h : MatchesQuery file p query basis ordinals) (hsubset : ordinals' ⊆ ordinals)
    : MatchesQuery file p query basis ordinals' :=
  fun ordinal hordinal => h ordinal (hsubset hordinal)

/-- A verified row is normalized like the query whose text it has. -/
theorem MdictFile.Verified.normalizeText_eq {ordinal : Nat} {key : Str}
    (h : file.Verified p index ordinal (file.keyText p query) key)
    : file.normalizer.normalizeText p key = file.normalizer.normalizeText p query :=
  Unicode.utf8_inj.mp h.keyText

/-- What is found in the index and verified matches the query. -/
theorem matchesQuery_indexFound {basis : LocatorBasis} {ordinals : List Nat}
    (hfound : file.indexFound p index query = some (basis, ordinals))
    (hverified : file.FoundVerified p index query (file.indexFound p index query))
    : MatchesQuery file p query basis ordinals := by
  intro ordinal hordinal
  obtain ⟨key, hkey⟩ := hverified basis ordinals hfound ordinal hordinal
  have hfresh := hkey.hasKey.freshKey_eq
  refine ⟨hkey.hasKey.lt, key, hfresh, hkey.normalizeText_eq, ?_⟩
  -- The digest of a verified row is that of its key, so the prefilter loses no exact match.
  have hexact : file.isExactRow p index query ordinal = true ↔ key = query := by
    rw [isExactRow, hfresh, hkey.digest]
    constructor
    . intro h
      simpa using (Bool.and_eq_true_iff.mp h).2
    . rintro rfl
      simp
  unfold indexFound at hfound
  split at hfound
  . contradiction
  . next start stop hrange =>
    dsimp only at hfound
    split at hfound
    . next hne =>
      rw [Option.some.injEq, Prod.mk.injEq] at hfound
      obtain ⟨rfl, rfl⟩ := hfound
      refine ⟨fun _ => hexact.mp (List.mem_filter.mp hordinal).2, fun h => by contradiction⟩
    . next hnil =>
      rw [Option.some.injEq, Prod.mk.injEq] at hfound
      obtain ⟨rfl, rfl⟩ := hfound
      refine ⟨fun h => by contradiction, ?_⟩
      rintro - rfl
      apply hnil
      intro hempty
      have hmem := List.mem_filter.mpr ⟨hordinal, hexact.mpr rfl⟩
      rw [hempty] at hmem
      contradiction

/-- What a page of exact matches and case variants shows matches the query. -/
theorem matchesQuery_indexVariantsPage {page : LocatedKeyPage} {offset limit : Nat}
    (hpage : file.indexVariantsPage p index query offset limit = some page)
    (hverified : ∀ row ∈ file.indexRows p index query,
      ∃ key, file.Verified p index row (file.keyText p query) key)
    : MatchesQuery file p query page.basis page.ordinals := by
  rw [indexVariantsPage, CaseVariants.pageOf] at hpage
  split at hpage
  . contradiction
  . rw [Option.some.injEq] at hpage
    subst hpage
    intro ordinal hordinal
    have hmem := List.mem_of_mem_drop (List.mem_of_mem_take hordinal)
    rw [List.mem_append] at hmem
    have hrow : ordinal ∈ file.indexRows p index query := by
      rcases hmem with hmem | hmem
      . exact (List.mem_filter.mp hmem).1
      . exact (List.mem_filter.mp hmem).1
    obtain ⟨key, hkey⟩ := hverified ordinal hrow
    have hfresh := hkey.hasKey.freshKey_eq
    refine ⟨hkey.hasKey.lt, key, hfresh, hkey.normalizeText_eq, ?_, ?_⟩
    . intro hbasis
      dsimp only at hbasis
      split at hbasis
      . next hnone =>
        have hexact := hmem.resolve_right (by
          rw [List.length_eq_zero_iff.mp hnone]
          exact List.not_mem_nil)
        have hmatch := (List.mem_filter.mp hexact).2
        rw [hfresh, Option.any_some, beq_iff_eq] at hmatch
        exact hmatch
      . contradiction
    . intro hbasis
      dsimp only at hbasis
      split at hbasis <;> contradiction

section Ensures

variable {mdx : MdxFile} (hI : mdx.inner.Invariant w.platform I) (hindex : index.Invariant I)
variable (hpos : 0 < index.header.chunkBytes)
include hI hindex hpos

theorem locateWithKeyIndex_matches (query : Str)
    : Ensures w I (mdx.locateWithKeyIndex index query)
        (fun found => ∀ located, found = some located →
          MatchesQuery mdx.inner w.platform query located.basis located.iter)
        (fun _ => True) := by
  apply (locateWithIndex_ensures hI hindex hpos query).mono _ (fun _ _ => trivial)
  rintro found ⟨hview, hverified⟩ located rfl
  exact matchesQuery_indexFound hview.symm hverified

theorem locatePageWithKeyIndex_matches (query : Str) (offset limit : Nat)
    : Ensures w I (mdx.locatePageWithKeyIndex index query offset limit)
        (fun found => ∀ page, found = some page →
          MatchesQuery mdx.inner w.platform query page.basis page.ordinals)
        (fun _ => True) := by
  apply (locatePageWithIndex_ensures hI hindex hpos query offset limit).mono _ (fun _ _ => trivial)
  rintro found ⟨hview, hverified⟩ page rfl
  rw [Option.map_some, eq_comm, Option.map_eq_some_iff] at hview
  obtain ⟨⟨basis, ordinals⟩, hfound, hpage⟩ := hview
  simp only [LocatedKeyPage.of, LocatedKeyPage.view, Prod.mk.injEq] at hpage
  obtain ⟨rfl, -, hordinals⟩ := hpage
  apply (matchesQuery_indexFound hfound hverified).subset
  rw [← hordinals]
  exact fun _ h => List.mem_of_mem_drop (List.mem_of_mem_take h)

theorem locateCaseVariantsWithIndex_matches (query : Str) (offset limit : Nat)
    : Ensures w I (mdx.inner.locateCaseVariantsWithIndex index query offset limit)
        (fun found => ∀ page, found = some page →
          MatchesQuery mdx.inner w.platform query page.basis page.ordinals)
        (fun _ => True) := by
  apply (locateCaseVariantsWithIndex_ensures hI hindex hpos query offset limit).mono _
    (fun _ _ => trivial)
  rintro _ ⟨hpage, hverified⟩ page rfl
  exact matchesQuery_indexVariantsPage hpage.symm hverified

theorem locateWithKeyIndexAndMode_matches (query : Str) (mode : MatchMode)
    : Ensures w I (mdx.locateWithKeyIndexAndMode index query mode)
        (fun found => ∀ located, found = some located →
          MatchesQuery mdx.inner w.platform query located.basis located.iter)
        (fun _ => True) := by
  unfold MdxFile.locateWithKeyIndexAndMode
  split
  . apply Ensures.bind (locateCaseVariantsWithIndex_matches hI hindex hpos query 0 usizeMax)
    intro found hfound
    cases found with
    | none => exact locateWithKeyIndex_matches hI hindex hpos query
    | some page =>
      apply Ensures.pure
      intro located hlocated
      rw [LocatedKeyPage.intoMatches, LocatedKeys.fromOwned] at hlocated
      split at hlocated
      . contradiction
      . rw [Option.some.injEq] at hlocated
        subst hlocated
        rw [LocatedKeys.iter_owned]
        exact hfound page rfl
  . exact locateWithKeyIndex_matches hI hindex hpos query

theorem locatePageWithKeyIndexAndMode_matches (query : Str) (offset limit : Nat) (mode : MatchMode)
    : Ensures w I (mdx.locatePageWithKeyIndexAndMode index query offset limit mode)
        (fun found => ∀ page, found = some page →
          MatchesQuery mdx.inner w.platform query page.basis page.ordinals)
        (fun _ => True) := by
  unfold MdxFile.locatePageWithKeyIndexAndMode
  split
  . apply Ensures.bind (locateCaseVariantsWithIndex_matches hI hindex hpos query offset limit)
    intro found hfound
    cases found with
    | none => exact locatePageWithKeyIndex_matches hI hindex hpos query offset limit
    | some page => exact .pure hfound
  . exact locatePageWithKeyIndex_matches hI hindex hpos query offset limit

theorem prefixKeysWithIndex_matches (keyPrefix : Str) (limit : Nat)
    : Ensures w I (mdx.prefixKeysWithIndex index keyPrefix limit)
        (fun entries => ∀ entry ∈ entries,
          mdx.inner.freshKey w.platform entry.ordinal = some entry.key
            ∧ mdx.inner.normalizer.normalizeText w.platform keyPrefix
              <+: mdx.inner.normalizer.normalizeText w.platform entry.key)
        (fun _ => True) := by
  apply (prefixWithIndex_ensures hI hindex hpos keyPrefix limit).mono _ (fun _ _ => trivial)
  rintro entries ⟨hordinals, hverified⟩ entry hentry
  have hkey := hverified entry hentry
  refine ⟨hkey.hasKey.freshKey_eq, ?_⟩
  have hrow : entry.ordinal ∈ rowsWithPrefix index (mdx.inner.keyText w.platform keyPrefix)
      (index.lowerBoundOf (mdx.inner.keyText w.platform keyPrefix) false) := by
    apply List.mem_of_mem_take (i := limit)
    rw [← hordinals]
    exact List.mem_map_of_mem hentry
  have hbegins := List.mem_takeWhile_imp hrow
  rw [← hkey.keyText, List.isPrefixOf_iff_prefix] at hbegins
  exact Unicode.utf8_isPrefix_iff.mp hbegins

end Ensures

/-- A visitor that collects what it sees, as long as `stop` lets it. -/
def collect (stop : List (Nat × Bytes) → Bool) (seen : List (Nat × Bytes)) (ordinal : Nat)
    (text : Bytes) : List (Nat × Bytes) × Bool :=
  (seen ++ [(ordinal, text)], stop (seen ++ [(ordinal, text)]))

/-- What such a visitor has collected are the rows that it got to see. -/
theorem visitTexts_collect (stop : List (Nat × Bytes) → Bool) (first : Nat) (texts : List Bytes)
    (seen : List (Nat × Bytes))
    : visitTexts (collect stop) first texts seen
        = seen ++ visitedTexts (collect stop) first texts seen := by
  induction texts generalizing first seen with
  | nil => rw [visitTexts, visitedTexts, List.append_nil]
  | cons text texts ih =>
    rw [visitTexts, visitedTexts]
    cases hstop : stop (seen ++ [(first, text)]) with
    | true => rw [collect, hstop]
    | false =>
      rw [collect, hstop]
      dsimp only
      rw [ih, List.append_assoc, List.singleton_append]

/--
Whatever bytes were accepted as a key index, after any history, a lookup with it that succeeds
returns nothing wrong: matches agree with the query, prefix matches are source keys with the
prefix, and a scan shows the normalized texts of the source keys.
-/
theorem keyIndex_sound {mdx : MdxFile} {opened : PersistentKeyIndex}
    (h : Reachable mdx.inner (·.platform = w.platform) (some opened) s)
    : (∀ query found s', mdx.locateWithKeyIndex opened query w s = (.ok (some found), s') →
          MatchesQuery mdx.inner w.platform query found.basis found.iter)
      ∧ (∀ query mode found s',
          mdx.locateWithKeyIndexAndMode opened query mode w s = (.ok (some found), s') →
            MatchesQuery mdx.inner w.platform query found.basis found.iter)
      ∧ (∀ query offset limit page s',
          mdx.locatePageWithKeyIndex opened query offset limit w s = (.ok (some page), s') →
            MatchesQuery mdx.inner w.platform query page.basis page.ordinals)
      ∧ (∀ query offset limit mode page s',
          mdx.locatePageWithKeyIndexAndMode opened query offset limit mode w s
              = (.ok (some page), s') →
            MatchesQuery mdx.inner w.platform query page.basis page.ordinals)
      ∧ (∀ keyPrefix limit entries s',
          mdx.prefixKeysWithIndex opened keyPrefix limit w s = (.ok entries, s') →
            ∀ entry ∈ entries, mdx.inner.freshKey w.platform entry.ordinal = some entry.key
              ∧ mdx.inner.normalizer.normalizeText w.platform keyPrefix
                <+: mdx.inner.normalizer.normalizeText w.platform entry.key)
      ∧ ∀ stop seen s',
          mdx.scanNormalizedKeysWithIndex opened (collect stop) [] w s = (.ok seen, s') →
            ∀ row ∈ seen, ∃ key, mdx.inner.freshKey w.platform row.1 = some key
              ∧ row.2 = Unicode.utf8 (mdx.inner.normalizer.normalizeText w.platform key) := by
  obtain ⟨hsound, hopened⟩ := h.allSound fun _ hw => hw
  obtain ⟨bytes, options, hopen⟩ := hopened opened rfl
  have hpos := (PersistentKeyIndex.parsed_of_parseHeader hopen.header).chunkBytes_pos
  have hI := @file_invariant_allSound mdx.inner (some opened) w.platform
  have hindex := @index_invariant_allSound mdx.inner (some opened) w.platform
    _ rfl
  have hok {α : Type} {x : Exec α} {Q : α → Prop} {a : α} {s' : Session}
      (hx : Ensures w (AllSound mdx.inner w.platform (some opened)) x Q (fun _ => True))
      (hrun : x w s = (.ok a, s')) : Q a := by
    have := hx s hsound
    rw [hrun] at this
    exact this.2
  refine ⟨?_, ?_, ?_, ?_, ?_, ?_⟩
  . exact fun query found s' hrun =>
      hok (locateWithKeyIndex_matches hI hindex hpos query) hrun found rfl
  . exact fun query mode found s' hrun =>
      hok (locateWithKeyIndexAndMode_matches hI hindex hpos query mode) hrun found rfl
  . exact fun query offset limit page s' hrun =>
      hok (locatePageWithKeyIndex_matches hI hindex hpos query offset limit) hrun page rfl
  . exact fun query offset limit mode page s' hrun =>
      hok (locatePageWithKeyIndexAndMode_matches hI hindex hpos query offset limit mode) hrun page
        rfl
  . exact fun keyPrefix limit entries s' hrun =>
      hok (prefixKeysWithIndex_matches hI hindex hpos keyPrefix limit) hrun
  . intro stop seen s' hrun row hrow
    obtain ⟨hseen, hverified⟩ :=
      hok ((scanWithIndex_ensures hI hindex hpos (collect stop) []).mono (fun _ h => h)
        (fun _ _ => trivial)) hrun
    rw [visitTexts_collect, List.nil_append] at hseen
    obtain ⟨key, hkey⟩ := hverified row (hseen ▸ hrow)
    exact ⟨key, hkey.hasKey.freshKey_eq, hkey.keyText.symm⟩

theorem keyIndex_sound_sample
    : ∃ opened s, Reachable Sample.file (·.platform = Sample.sourceWorld.platform) (some opened) s
        ∧ ∀ query found s',
          MdxFile.locateWithKeyIndex ⟨Sample.file⟩ opened query Sample.sourceWorld s
              = (.ok (some found), s') →
            MatchesQuery Sample.file Sample.sourceWorld.platform query found.basis found.iter := by
  obtain ⟨opened, s, hreach⟩ := Sample.reachable_index
  exact ⟨opened, s, hreach, (@keyIndex_sound Sample.sourceWorld _ ⟨Sample.file⟩ _ hreach).1⟩

end Mdict
