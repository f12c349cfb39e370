import Mdict.Lemmas.Sample

/-!
This module contains the correctness of lookups by the in-memory locator, after any history of
calls on the dictionary: they find the keys that the physical keys of the dictionary say they find.
-/

namespace Mdict

open Effect MdictFile

variable {w : World} {index : Option PersistentKeyIndex} {s : Session}
variable {blocks : List (List DecodedKeyRow)}

/-- A call that ensures something, after a history that ends in a quiet world, comes to a value. -/
theorem Reachable.ok_of_ensures {file : MdictFile} {α : Type} {x : Exec α} {Q : α → Prop}
    {E : Error → Prop} (h : Reachable file (·.platform = w.platform) index s)
    (hx : ∀ I, file.Invariant w.platform I → Ensures w I x Q E) (hE : ∀ e, ¬E e)
    : ∃ a s', x w s = (.ok a, s') ∧ Q a := by
  have hsound := (h.allSound fun _ hw => hw).1
  have hrun := hx _ file_invariant_allSound s hsound
  match hxs : x w s with
  | (.ok a, s') =>
    rw [hxs] at hrun
    exact ⟨a, s', rfl, hrun.2⟩
  | (.error e, s') =>
    rw [hxs] at hrun
    exact absurd hrun.2 (hE e)

/-! ## Located keys -/

/--
Lookup by raw key: all keys equal to the query, or else all keys with the same normalized form, in
ascending order.
-/
theorem locateKeys_finds {file : MdictFile} (h : Reachable file (·.platform = w.platform) index s)
    (hw : w.Quiet) (hblocks : file.DecodesTo w.platform blocks)
    (hfits : file.LocatorFits w.platform (keysOf blocks)) (query : Str)
    (hquery : file.QueryFits w.platform query)
    : ∃ located s', file.locateKeys query w s = (.ok located, s')
        ∧ located.map LocatedKeys.view =
          let exact := ordinalsWhere (keysOf blocks) (· == query)
          let normalized := ordinalsWhere (keysOf blocks) fun key =>
            file.normalizer.normalizeText w.platform key
              == file.normalizer.normalizeText w.platform query
          if exact ≠ [] then some (.rawExact, exact)
          else if normalized ≠ [] then some (.headerNormalized, normalized)
          else none := by
  obtain ⟨located, s', hrun, blocks', hblocks', hview⟩ := h.ok_of_ensures
    (fun I hI => locateKeys_ensures hI query) (fun e he => by
      rcases he with he | he
      . exact not_interrupted hw he
      . exact he blocks hblocks ⟨hfits, hquery⟩)
  rw [hblocks'.unique hblocks] at hview
  refine ⟨located, s', hrun, ?_⟩
  have htext : file.textOrdinals w.platform (keysOf blocks) (file.keyText w.platform query)
      = ordinalsWhere (keysOf blocks) fun key =>
          file.normalizer.normalizeText w.platform key
            == file.normalizer.normalizeText w.platform query := by
    simp only [textOrdinals, keyText, Unicode.utf8_inj, beq_eq_decide]
  rw [hview, found, exactOrdinals, htext]

/-- Two of the keys of the sample are normalized like the query, but none is the query. -/
theorem locateKeys_finds_sample
    : ∃ located s', Sample.file.locateKeys ['A', 'a'] Sample.world .fresh = (.ok located, s')
        ∧ located.map LocatedKeys.view = some (.headerNormalized, [0, 1]) := by
  obtain ⟨located, s', hrun, hview⟩ := locateKeys_finds Sample.reachable Sample.quiet
    Sample.decodesTo Sample.locatorFits ['A', 'a'] (Sample.evaluates.queryFits _ (by decide))
  exact ⟨located, s', hrun, hview.trans (by decide)⟩

/-! ## Case variants -/

theorem view_intoMatches {page : LocatedKeyPage}
    : page.intoMatches.map LocatedKeys.view
        = if page.ordinals = [] then none else some (page.basis, page.ordinals) := by
  rw [LocatedKeyPage.intoMatches, LocatedKeys.fromOwned]
  split
  . rfl
  . rw [Option.map_some, LocatedKeys.view, LocatedKeys.iter_owned]

/-- A page as wide as an address shows all that was found. -/
theorem pageOf_all {exact variants : List Nat} (h : exact.length + variants.length ≤ usizeMax)
    : CaseVariants.pageOf 0 usizeMax exact variants =
        if exact ++ variants = [] then
          none
        else
          some {
            basis := if variants = [] then .rawExact else .caseVariants
            total := exact.length + variants.length
            ordinals := exact ++ variants
          } := by
  have hwindow : Search.window (exact ++ variants) 0 usizeMax = exact ++ variants := by
    rw [Search.window, List.drop_zero, List.take_of_length_le (by rw [List.length_append]; exact h)]
  simp only [CaseVariants.pageOf, hwindow, ← List.length_append, List.length_eq_zero_iff]

/-- On a dictionary that ignores case, the keys that differ only in case are all found. -/
theorem variantOrdinals_eq {file : MdictFile} {p : Platform} (hp : p.LowercaseTables)
    (hcase : file.header.keyCaseSensitive = false) (hkind : file.kind = .mdx) (keys : List Str)
    (query : Str)
    : file.variantOrdinals p keys query = ordinalsWhere keys fun key =>
        key != query && key.toLowercase p == query.toLowercase p := by
  rw [variantOrdinals]
  congr 1
  funext key
  have hequal : equalIgnoringCase p key query = (key.toLowercase p == query.toLowercase p) := by
    rw [Bool.eq_iff_iff, equalIgnoringCase_iff hp, beq_iff_eq]
  rw [hequal]
  by_cases hlower : key.toLowercase p = query.toLowercase p
  . have htext : file.keyText p key = file.keyText p query := by
      rw [keyText, keyText, KeyNormalizer.normalizeText_eq_of_toLowercase_eq hp hcase _ hlower]
      simp [normalizer, KeyNormalizer.fromHeader, hkind]
    simp [htext]
  . simp [hlower]

/--
Lookup with case variants on a dictionary that ignores case: the keys equal to the query, then all
keys that differ from it only in case. Without either, and on a dictionary that respects case, it
is the lookup by raw key.
-/
theorem locateWithMode_includeCaseVariants {mdx : MdxFile}
    (h : Reachable mdx.inner (·.platform = w.platform) index s) (hw : w.Quiet)
    (hkind : mdx.inner.kind = .mdx) (hp : w.platform.LowercaseTables)
    (hblocks : mdx.inner.DecodesTo w.platform blocks)
    (hfits : mdx.inner.LocatorFits w.platform (keysOf blocks)) (query : Str)
    (hquery : mdx.inner.QueryFits w.platform query)
    : ∃ found s' located s1,
        mdx.locateWithMode query .includeCaseVariants w s = (.ok found, s')
        ∧ mdx.locate query w s = (.ok located, s1)
        ∧ found.map LocatedKeys.view =
          let exact := ordinalsWhere (keysOf blocks) (· == query)
          let variants := ordinalsWhere (keysOf blocks) fun key =>
            key != query && key.toLowercase w.platform == query.toLowercase w.platform
          if mdx.header.keyCaseSensitive = false ∧ exact ++ variants ≠ [] then
            some (if variants = [] then .rawExact else .caseVariants, exact ++ variants)
          else
            located.map LocatedKeys.view := by
  have hsound := (h.allSound fun _ hw => hw).1
  have hfails (e : Error) : ¬mdx.inner.LookupFails w query e := by
    rintro (he | he)
    . exact not_interrupted hw he
    . exact he blocks hblocks ⟨hfits, hquery⟩
  have hI := @file_invariant_allSound mdx.inner index w.platform
  have hlocate (t : Session) (ht : AllSound mdx.inner w.platform index t)
      : ∃ located t', mdx.locate query w t = (.ok located, t')
          ∧ located.map LocatedKeys.view
            = mdx.inner.found w.platform (keysOf blocks) query := by
    obtain ⟨-, hok, herror⟩ := (locateKeys_ensures hI query).outcome ht
    match hrun : mdx.locate query w t with
    | (.ok located, t') =>
      obtain ⟨blocks', hblocks', hview⟩ := hok located (by
        change (mdx.locate query w t).1 = _
        rw [hrun])
      rw [hblocks'.unique hblocks] at hview
      exact ⟨located, t', rfl, hview⟩
    | (.error e, t') =>
      exact absurd (herror e (by
        change (mdx.locate query w t).1 = _
        rw [hrun])) (hfails e)
  obtain ⟨located, s1, hlocated, hview⟩ := hlocate s hsound
  unfold MdxFile.locateWithMode MdxFile.includesCaseVariants
  cases hcase : mdx.header.keyCaseSensitive with
  | true =>
    rw [if_neg (by simp)]
    exact ⟨located, s1, located, s1, hlocated, hlocated, by simp⟩
  | false =>
    rw [if_pos (by simp)]
    obtain ⟨hsound', hok, herror⟩ := (locateCaseVariants_ensures hI query 0 usizeMax).outcome hsound
    match hrun : mdx.inner.locateCaseVariants query 0 usizeMax w s with
    | (.error e, s2) => exact absurd (herror e (by rw [hrun])) (hfails e)
    | (.ok page, s2) =>
      rw [hrun] at hsound'
      obtain ⟨blocks', hblocks', hpage⟩ := hok page (by rw [hrun])
      rw [hblocks'.unique hblocks, variantOrdinals_eq hp hcase hkind, exactOrdinals] at hpage
      rw [Prog.bind_of_ok hrun]
      have hlength (isMatch : Str → Bool)
          : (ordinalsWhere (keysOf blocks) isMatch).length ≤ mdx.inner.len := by
        rw [← hblocks.length_keysOf]
        exact (List.length_filter_le _ _).trans (by rw [List.length_range])
      have hmax : 2 * mdx.inner.len ≤ usizeMax := by
        have := hblocks.length_keysOf
        have := hfits.entries
        have : u32Max + 1 = u32Bound ∧ u32Bound * 16 ≤ u64Bound ∧ usizeMax + 1 = u64Bound := by
          decide
        omega
      have hexact := hlength (· == query)
      have hvariants := hlength fun key =>
        key != query && key.toLowercase w.platform == query.toLowercase w.platform
      generalize ordinalsWhere (keysOf blocks) (· == query) = exact at *
      generalize (ordinalsWhere (keysOf blocks) fun key =>
        key != query && key.toLowercase w.platform == query.toLowercase w.platform) = variants at *
      rw [pageOf_all (by omega)] at hpage
      by_cases hnone : exact ++ variants = []
      . rw [if_pos hnone] at hpage
        subst hpage
        obtain ⟨located', s3, hlocated', hview'⟩ := hlocate s2 hsound'
        refine ⟨located', s3, located, s1, hlocated', hlocated, ?_⟩
        dsimp only
        rw [if_neg (by simp [hnone]), hview, hview']
      . rw [if_neg hnone] at hpage
        subst hpage
        refine ⟨_, s2, located, s1, rfl, hlocated, ?_⟩
        dsimp only
        rw [view_intoMatches, if_neg hnone]
        exact (if_pos ⟨rfl, hnone⟩).symm

/-- The first key of the sample is the query, and the second differs from it only in case. -/
theorem locateWithMode_includeCaseVariants_sample
    : ∃ found s', MdxFile.locateWithMode ⟨Sample.file⟩ ['a', 'a'] .includeCaseVariants Sample.world
          .fresh = (.ok found, s')
        ∧ found.map LocatedKeys.view = some (.caseVariants, [0, 1]) := by
  obtain ⟨found, s', located, s1, hrun, -, hview⟩ :=
    @locateWithMode_includeCaseVariants _ _ _ _ ⟨Sample.file⟩ Sample.reachable Sample.quiet rfl
      Sample.lowercaseTables Sample.decodesTo Sample.locatorFits ['a', 'a']
      (Sample.evaluates.queryFits _ (by decide))
  have hexact : ordinalsWhere (keysOf Sample.rows) (· == ['a', 'a']) = [0] := by decide
  have hvariants : (ordinalsWhere (keysOf Sample.rows) fun key => key != ['a', 'a']
      && key.toLowercase Sample.world.platform
        == Str.toLowercase Sample.world.platform ['a', 'a']) = [1] := by decide
  rw [hexact, hvariants] at hview
  exact ⟨found, s', hrun, hview⟩

/-! ## Prefixes -/

/-- What is not missing survives being filtered. -/
theorem map_some_filterMap {α β : Type} {f : α → Option β} {xs : List α}
    (h : ∀ x ∈ xs, (f x).isSome)
    : ((xs.map f).filterMap id).map some = xs.map f := by
  induction xs with
  | nil => rfl
  | cons x xs ih =>
    obtain ⟨y, hy⟩ := Option.isSome_iff_exists.mp (h x List.mem_cons_self)
    rw [List.map_cons, hy, List.filterMap_cons_some (f := id) (b := y) rfl, List.map_cons,
      ih fun x hx => h x (List.mem_cons_of_mem _ hx)]

/--
Prefix search: the first keys in the order of normalized text and ordinal whose normalized text
starts with the normalized prefix. If all of them fit in the limit, every key that starts with the
prefix is among them.
-/
theorem prefixKeys_lists {mdx : MdxFile}
    (h : Reachable mdx.inner (·.platform = w.platform) index s) (hw : w.Quiet)
    (hkind : mdx.inner.kind = .mdx) (hblocks : mdx.inner.DecodesTo w.platform blocks)
    (hfits : mdx.inner.LocatorFits w.platform (keysOf blocks)) (keyPrefix : Str) (limit : Nat)
    (hquery : mdx.inner.QueryFits w.platform keyPrefix)
    : ∃ entries s', mdx.prefixKeys keyPrefix limit w s = (.ok entries, s')
        ∧ (∃ rows : List Nat,
          rows.Perm (ordinalsWhere (keysOf blocks) fun key =>
              (mdx.inner.normalizer.normalizeText w.platform keyPrefix).isPrefixOf
                (mdx.inner.normalizer.normalizeText w.platform key))
            ∧ rows.Pairwise (SortedIndex.Before fun row =>
              ((keysOf blocks)[row]?.map (mdx.inner.keyText w.platform)).getD [])
            ∧ entries.map some
              = (rows.take limit).map fun row => (keysOf blocks)[row]?.map (KeyEntry.mk row))
        ∧ (mdx.inner.len ≤ limit → ∀ ordinal key, (keysOf blocks)[ordinal]? = some key →
          keyPrefix <+: key → ⟨ordinal, key⟩ ∈ entries) := by
  have hentries : ∃ entries s', mdx.prefixKeys keyPrefix limit w s = (.ok entries, s')
      ∧ ∃ rows : List Nat,
        rows.Perm (mdx.inner.prefixOrdinals w.platform (keysOf blocks)
          (mdx.inner.keyText w.platform keyPrefix))
        ∧ mdx.inner.Listed w.platform (keysOf blocks) rows
        ∧ entries = ((rows.take limit).map fun row =>
          (keysOf blocks)[row]?.map (KeyEntry.mk row)).filterMap id := by
    apply h.ok_of_ensures (E := fun e => Interrupted w e ∨ mdx.inner.LookupFails w keyPrefix e)
    . intro I hI
      apply Ensures.bind (R := fun ordinals => ∃ rows : List Nat,
        rows.Perm (mdx.inner.prefixOrdinals w.platform (keysOf blocks)
          (mdx.inner.keyText w.platform keyPrefix))
        ∧ mdx.inner.Listed w.platform (keysOf blocks) rows ∧ ordinals = rows.take limit)
      . by_cases hlimit : limit = 0
        . rw [locatePrefix, if_pos hlimit, hlimit]
          refine .pure ⟨(mdx.inner.locatorOf w.platform (keysOf blocks)).order.filter _,
            prefix_perm _ _, List.Pairwise.filter _ (sorted_locatorOf _).sorted, rfl⟩
        . apply (locatePrefix_ensures hI keyPrefix hlimit).mono _ (fun e he => .inr he)
          rintro ordinals ⟨blocks', hblocks', rows, hperm, hlisted, rfl⟩
          rw [hblocks'.unique hblocks] at hperm hlisted
          exact ⟨rows, hperm, hlisted, rfl⟩
      rintro _ ⟨rows, hperm, hlisted, rfl⟩
      apply Ensures.bind (Answers.ensures (keysAtOrdinals_answers hI hblocks (rows.take limit))
        (Q := fun entries => entries = (rows.take limit).map fun row =>
          (keysOf blocks)[row]?.map (KeyEntry.mk row)) rfl fun e he => .inl he)
      rintro _ rfl
      exact .pure ⟨rows, hperm, hlisted, rfl⟩
    . rintro e (he | he | he)
      . exact not_interrupted hw he
      . exact not_interrupted hw he
      . exact he blocks hblocks ⟨hfits, hquery⟩
  obtain ⟨entries, s', hrun, rows, hperm, hlisted, rfl⟩ := hentries
  have hkeys (row : Nat) (hrow : row ∈ rows) : ∃ key, (keysOf blocks)[row]? = some key := by
    obtain ⟨key, hkey, -⟩ := mem_ordinalsWhere.mp (hperm.mem_iff.mp hrow)
    exact ⟨key, hkey⟩
  refine ⟨_, s', hrun, ⟨rows, ?_, ?_, ?_⟩, ?_⟩
  . apply hperm.trans (List.Perm.of_eq _)
    rw [prefixOrdinals]
    congr 1
    funext key
    rw [Bool.eq_iff_iff, List.isPrefixOf_iff_prefix, List.isPrefixOf_iff_prefix]
    exact Unicode.utf8_isPrefix_iff
  . apply List.Pairwise.imp_of_mem _ hlisted
    intro a b ha hb hbefore
    obtain ⟨keyA, hkeyA⟩ := hkeys a ha
    obtain ⟨keyB, hkeyB⟩ := hkeys b hb
    rw [SortedIndex.Before, row_locatorOf hkeyA, row_locatorOf hkeyB] at hbefore
    rw [SortedIndex.Before, hkeyA, hkeyB]
    exact hbefore
  . apply map_some_filterMap
    intro row hrow
    obtain ⟨key, hkey⟩ := hkeys row (List.mem_of_mem_take hrow)
    simp [hkey]
  . intro hlimit ordinal key hkey hbegins
    have hmem : ordinal ∈ rows := by
      rw [hperm.mem_iff, prefixOrdinals, mem_ordinalsWhere]
      refine ⟨key, hkey, ?_⟩
      rw [List.isPrefixOf_iff_prefix]
      apply Unicode.utf8_isPrefix_iff.mpr
      refine KeyNormalizer.normalizeText_isPrefix ?_ hbegins
      simp [normalizer, KeyNormalizer.fromHeader, hkind]
    have hlength : rows.length ≤ limit := by
      rw [hperm.length_eq, prefixOrdinals, ordinalsWhere]
      apply (List.length_filter_le _ _).trans
      rw [List.length_range, hblocks.length_keysOf]
      exact hlimit
    rw [List.take_of_length_le hlength, List.mem_filterMap]
    exact ⟨some ⟨ordinal, key⟩, List.mem_map.mpr ⟨ordinal, hmem, by rw [hkey]; rfl⟩, rfl⟩

/-- Two keys of the sample are normalized to something that starts with `a`. -/
theorem prefixKeys_lists_sample
    : ∃ entries s', MdxFile.prefixKeys ⟨Sample.file⟩ ['A'] 3 Sample.world .fresh
        = (.ok entries, s') ∧ ⟨1, ['A', 'A']⟩ ∈ entries := by
  obtain ⟨entries, s', hrun, -, hall⟩ := @prefixKeys_lists _ _ _ _ ⟨Sample.file⟩ Sample.reachable
    Sample.quiet rfl Sample.decodesTo Sample.locatorFits ['A'] 3
    (Sample.evaluates.queryFits _ (by decide))
  exact ⟨entries, s', hrun, hall (by decide) 1 _ rfl ⟨['A'], rfl⟩⟩

end Mdict
