import Mdict.Theorems.Lookup

/-!
This module contains the correctness of paging: a page is a window of what the complete call
returns, for every lookup of both backends.
-/

namespace Mdict

open Effect MdictFile

variable {file : MdictFile} {p : Platform} {w : World} {I : Session → Prop}
variable {index : Option PersistentKeyIndex} {query : Str}

/-- The page at `offset` with at most `limit` ordinals of a complete result. -/
structure IsPageOf (complete : Option LocatedKeys) (offset limit : Nat)
    (page : Option LocatedKeyPage)
    : Prop where
  none_iff : page = none ↔ complete = none
  some_eq : ∀ shown keys, page = some shown → complete = some keys →
    shown.basis = keys.basis ∧ shown.total = keys.iter.length
      ∧ shown.ordinals = (keys.iter.drop offset).take limit

theorem IsPageOf.of_view {complete : Option LocatedKeys} {offset limit : Nat}
    {page : Option LocatedKeyPage} {found : Option (LocatorBasis × List Nat)}
    (hcomplete : complete.map LocatedKeys.view = found)
    (hpage : page.map LocatedKeyPage.view = found.map (LocatedKeyPage.of offset limit))
    : IsPageOf complete offset limit page := by
  subst hcomplete
  rw [Option.map_map] at hpage
  constructor
  . rw [← Option.map_eq_none_iff (f := LocatedKeyPage.view), hpage, Option.map_eq_none_iff]
  . rintro shown keys rfl rfl
    simp only [Option.map_some, Function.comp_apply, LocatedKeys.view, LocatedKeyPage.of,
      LocatedKeyPage.view, Search.window, Option.some.injEq, Prod.mk.injEq] at hpage
    exact hpage

/-! ## Lookups -/

/-- The lookups of a dictionary and of its key index: a complete call and the paged one. -/
inductive PagedCall (file : MdictFile) (index : Option PersistentKeyIndex) (query : Str)
    : Exec (Option LocatedKeys) → (Nat → Nat → Exec (Option LocatedKeyPage)) → Prop
  | locate : PagedCall file index query (file.locateKeys query) (file.locateKeyPage query)
  | withMode (mode : MatchMode)
    : PagedCall file index query (MdxFile.locateWithMode ⟨file⟩ query mode)
        (fun offset limit => MdxFile.locatePageWithMode ⟨file⟩ query offset limit mode)
  | withKeyIndex (opened : PersistentKeyIndex) (isOpen : index = some opened)
    : PagedCall file index query (MdxFile.locateWithKeyIndex ⟨file⟩ opened query)
        (MdxFile.locatePageWithKeyIndex ⟨file⟩ opened query)
  | withKeyIndexAndMode (opened : PersistentKeyIndex) (isOpen : index = some opened)
    (mode : MatchMode)
    : PagedCall file index query (MdxFile.locateWithKeyIndexAndMode ⟨file⟩ opened query mode)
        (fun offset limit =>
          MdxFile.locatePageWithKeyIndexAndMode ⟨file⟩ opened query offset limit mode)

/-- What a backend finds: the exact matches, their case variants, and what a plain lookup shows. -/
structure Findings where
  exact : List Nat
  variants : List Nat
  plain : Option (LocatorBasis × List Nat)

namespace Findings

/-- What a lookup shows that puts the case variants first. -/
def withVariants (found : Findings) : Option (LocatorBasis × List Nat) :=
  if found.exact ++ found.variants = [] then
    found.plain
  else
    some (if found.variants = [] then .rawExact else .caseVariants, found.exact ++ found.variants)

/-- The page of exact matches and case variants. -/
def variantsPage (found : Findings) (offset limit : Nat) : Option LocatedKeyPage :=
  CaseVariants.pageOf offset limit found.exact found.variants

variable {found : Findings} {offset limit : Nat}

theorem variantsPage_eq
    : found.variantsPage offset limit =
        if found.exact ++ found.variants = [] then
          none
        else
          some {
            basis := if found.variants = [] then .rawExact else .caseVariants
            total := (found.exact ++ found.variants).length
            ordinals := Search.window (found.exact ++ found.variants) offset limit
          } := by
  simp only [variantsPage, CaseVariants.pageOf, ← List.length_append, List.length_eq_zero_iff]

theorem withVariants_of_none (h : found.variantsPage offset limit = none)
    : found.withVariants = found.plain := by
  rw [variantsPage_eq] at h
  split at h
  . next hnil => rw [withVariants, if_pos hnil]
  . contradiction

theorem withVariants_of_some {page : LocatedKeyPage}
    (h : found.variantsPage offset limit = some page)
    : some page.view = found.withVariants.map (LocatedKeyPage.of offset limit) := by
  rw [variantsPage_eq] at h
  split at h
  . contradiction
  . next hnil =>
    cases h
    rw [withVariants, if_neg hnil]
    rfl

/-- A page as wide as an address shows everything. -/
theorem withVariants_of_all {page : LocatedKeyPage}
    (hfits : found.exact.length + found.variants.length ≤ usizeMax)
    (h : found.variantsPage 0 usizeMax = some page)
    : page.intoMatches.map LocatedKeys.view = found.withVariants := by
  rw [← List.length_append] at hfits
  rw [variantsPage_eq, Search.window, List.drop_zero, List.take_of_length_le hfits] at h
  split at h
  . contradiction
  . next hnil =>
    cases h
    rw [withVariants, if_neg hnil]
    simp only [LocatedKeyPage.intoMatches, LocatedKeys.fromOwned, if_neg hnil, Option.map_some,
      LocatedKeys.view, LocatedKeys.iter_owned]

end Findings

/-- Elements of two kinds that exclude each other. -/
theorem length_filter_add_length_filter_le {α : Type} {p q : α → Bool} (xs : List α)
    (h : ∀ x, p x = true → q x = false)
    : (xs.filter p).length + (xs.filter q).length ≤ xs.length := by
  rw [List.length_eq_length_filter_add p (l := xs)]
  apply Nat.add_le_add_left
  apply List.Sublist.length_le
  apply List.monotone_filter_right
  intro x hx
  cases hleft : p x with
  | true =>
    rw [h x hleft] at hx
    contradiction
  | false => rfl

/-! ## Backends -/

/--
The queries of a backend that finds one of `Found`: the complete lookup, its pages, and the pages
of exact matches and case variants.
-/
structure Backend (w : World) (I : Session → Prop) (Found : Findings → Prop)
    (complete : Exec (Option LocatedKeys)) (page variants : Nat → Nat → Exec (Option LocatedKeyPage))
    : Prop where
  fits : ∀ found, Found found → found.exact.length + found.variants.length ≤ usizeMax
  complete : Ensures w I complete
    (fun keys => ∃ found, Found found ∧ keys.map LocatedKeys.view = found.plain) (fun _ => True)
  page : ∀ offset limit, Ensures w I (page offset limit)
    (fun page => ∃ found, Found found
      ∧ page.map LocatedKeyPage.view = found.plain.map (LocatedKeyPage.of offset limit))
    (fun _ => True)
  variants : ∀ offset limit, Ensures w I (variants offset limit)
    (fun page => ∃ found, Found found ∧ page = found.variantsPage offset limit) (fun _ => True)

namespace Backend

variable {Found : Findings → Prop} {complete : Exec (Option LocatedKeys)}
variable {page variants : Nat → Nat → Exec (Option LocatedKeyPage)}

/-- A complete lookup that puts the case variants first. -/
theorem completeWithVariants (h : Backend w I Found complete page variants)
    (hunique : ∀ found found', Found found → Found found' → found = found')
    : Ensures w I
        (do
          let page ← variants 0 usizeMax
          match page with
          | some page => return page.intoMatches
          | none => complete)
        (fun keys => ∃ found, Found found ∧ keys.map LocatedKeys.view = found.withVariants)
        (fun _ => True) := by
  apply Ensures.bind (h.variants 0 usizeMax)
  rintro page ⟨found, hfound, hpage⟩
  cases page with
  | some page =>
    exact .pure ⟨found, hfound, Findings.withVariants_of_all (h.fits found hfound) hpage.symm⟩
  | none =>
    apply h.complete.mono _ (fun _ h => h)
    rintro keys ⟨found', hfound', hview⟩
    rw [hunique found' found hfound' hfound] at hview
    exact ⟨found, hfound, hview.trans (Findings.withVariants_of_none hpage.symm).symm⟩

/-- A page that puts the case variants first. -/
theorem pageWithVariants (h : Backend w I Found complete page variants)
    (hunique : ∀ found found', Found found → Found found' → found = found') (offset limit : Nat)
    : Ensures w I
        (do
          let shown ← variants offset limit
          match shown with
          | some shown => return some shown
          | none => page offset limit)
        (fun page => ∃ found, Found found
          ∧ page.map LocatedKeyPage.view
            = found.withVariants.map (LocatedKeyPage.of offset limit))
        (fun _ => True) := by
  apply Ensures.bind (h.variants offset limit)
  rintro shown ⟨found, hfound, hshown⟩
  cases shown with
  | some shown => exact .pure ⟨found, hfound, Findings.withVariants_of_some hshown.symm⟩
  | none =>
    apply (h.page offset limit).mono _ (fun _ h => h)
    rintro page ⟨found', hfound', hview⟩
    rw [hunique found' found hfound' hfound] at hview
    refine ⟨found, hfound, ?_⟩
    rw [Findings.withVariants_of_none hshown.symm]
    exact hview

end Backend

/-- What the in-memory locator of a dictionary finds. -/
def IsLocated (file : MdictFile) (p : Platform) (query : Str) (found : Findings) : Prop :=
  ∃ blocks, file.DecodesTo p blocks ∧ found = {
    exact := exactOrdinals (keysOf blocks) query
    variants := file.variantOrdinals p (keysOf blocks) query
    plain := file.found p (keysOf blocks) query }

theorem IsLocated.unique {found found' : Findings} (h : IsLocated file p query found)
    (h' : IsLocated file p query found')
    : found = found' := by
  obtain ⟨blocks, hblocks, rfl⟩ := h
  obtain ⟨blocks', hblocks', rfl⟩ := h'
  rw [hblocks.unique hblocks']

theorem backend_memory (hI : file.Invariant w.platform I)
    : Backend w I (IsLocated file w.platform query) (file.locateKeys query)
        (file.locateKeyPage query) (file.locateCaseVariants query) where
  fits := by
    rintro found ⟨blocks, hblocks, rfl⟩
    have hlen := hblocks.length_keysOf
    have hlt := file.layoutVerified.totalEntries_lt
    have hmax : usizeMax + 1 = u64Bound := by decide
    have hle := length_filter_add_length_filter_le (List.range (keysOf blocks).length)
      (p := fun ordinal => (keysOf blocks)[ordinal]?.any (· == query))
      (q := fun ordinal => (keysOf blocks)[ordinal]?.any fun key =>
        file.keyText w.platform key = file.keyText w.platform query
          && (key != query && equalIgnoringCase w.platform key query)) (by
      intro ordinal h
      cases hkey : (keysOf blocks)[ordinal]? with
      | none => rfl
      | some key =>
        rw [hkey, Option.any_some, beq_iff_eq] at h
        simp [h])
    rw [List.length_range] at hle
    have : file.len = file.layout.totalEntries := rfl
    exact hle.trans (by omega)
  complete := by
    apply (locateKeys_ensures hI query).mono _ (fun _ _ => trivial)
    rintro keys ⟨blocks, hblocks, hview⟩
    exact ⟨_, ⟨blocks, hblocks, rfl⟩, hview⟩
  page := by
    intro offset limit
    apply (locateKeyPage_ensures hI query offset limit).mono _ (fun _ _ => trivial)
    rintro page ⟨blocks, hblocks, hview⟩
    exact ⟨_, ⟨blocks, hblocks, rfl⟩, hview⟩
  variants := by
    intro offset limit
    apply (locateCaseVariants_ensures hI query offset limit).mono _ (fun _ _ => trivial)
    rintro page ⟨blocks, hblocks, hpage⟩
    exact ⟨_, ⟨blocks, hblocks, rfl⟩, hpage⟩

/-- What a key index finds. -/
def indexFindings (file : MdictFile) (p : Platform) (opened : PersistentKeyIndex) (query : Str)
    : Findings where
  exact := file.indexRowsWhere p opened query (· == query)
  variants := file.indexRowsWhere p opened query fun key =>
    key != query && equalIgnoringCase p key query
  plain := file.indexFound p opened query

theorem backend_index {opened : PersistentKeyIndex} (hI : file.Invariant w.platform I)
    (hindex : opened.Invariant I) (hpos : 0 < opened.header.chunkBytes)
    (hlen : opened.len ≤ usizeMax)
    : Backend w I (· = indexFindings file w.platform opened query)
        (file.locateWithIndex opened query) (file.locatePageWithIndex opened query)
        (file.locateCaseVariantsWithIndex opened query) where
  fits := by
    rintro found rfl
    have hle := length_filter_add_length_filter_le (file.indexRows w.platform opened query)
      (p := fun row => (file.freshKey w.platform row).any (· == query))
      (q := fun row => (file.freshKey w.platform row).any fun key =>
        key != query && equalIgnoringCase w.platform key query) (by
      intro row h
      cases hkey : file.freshKey w.platform row with
      | none => rfl
      | some key =>
        rw [hkey, Option.any_some, beq_iff_eq] at h
        simp [h])
    have hrows : (file.indexRows w.platform opened query).length ≤ opened.len := by
      unfold indexRows
      cases hrange : opened.rangeOf (file.keyText w.platform query) with
      | none => exact Nat.zero_le _
      | some range =>
        have := PersistentKeyIndex.rangeOf_eq_some hrange
        dsimp only
        rw [PersistentKeyIndex.length_rowsIn]
        omega
    exact hle.trans (hrows.trans hlen)
  complete := by
    apply (locateWithIndex_ensures hI hindex hpos query).mono _ (fun _ _ => trivial)
    rintro keys ⟨hview, -⟩
    exact ⟨_, rfl, hview⟩
  page := by
    intro offset limit
    apply (locatePageWithIndex_ensures hI hindex hpos query offset limit).mono _
      (fun _ _ => trivial)
    rintro page ⟨hview, -⟩
    exact ⟨_, rfl, hview⟩
  variants := by
    intro offset limit
    apply (locateCaseVariantsWithIndex_ensures hI hindex hpos query offset limit).mono _
      (fun _ _ => trivial)
    rintro page ⟨hpage, -⟩
    exact ⟨_, rfl, hpage⟩

/-! ## Pages of calls -/

/-- The calls of a lookup show one result, wherever they run. -/
def Shows (p : Platform) (I : Session → Prop) (complete : Exec (Option LocatedKeys))
    (page : Nat → Nat → Exec (Option LocatedKeyPage))
    : Prop :=
  ∃ Shown : Option (LocatorBasis × List Nat) → Prop,
    (∀ found found', Shown found → Shown found' → found = found')
      ∧ ∀ w, w.platform = p →
        Ensures w I complete (fun keys => Shown (keys.map LocatedKeys.view)) (fun _ => True)
        ∧ ∀ offset limit, Ensures w I (page offset limit)
            (fun page => ∃ found, Shown found
              ∧ page.map LocatedKeyPage.view = found.map (LocatedKeyPage.of offset limit))
            (fun _ => True)

namespace Shows

variable {Found : Findings → Prop} {complete : Exec (Option LocatedKeys)}
variable {page variants : Nat → Nat → Exec (Option LocatedKeyPage)}
variable (hunique : ∀ found found', Found found → Found found' → found = found')
variable (h : ∀ w, w.platform = p → Backend w I Found complete page variants)
include hunique h

theorem of_backend : Shows p I complete page := by
  refine ⟨fun shown => ∃ found, Found found ∧ shown = found.plain, ?_, ?_⟩
  . rintro _ _ ⟨found, hfound, rfl⟩ ⟨found', hfound', rfl⟩
    rw [hunique found found' hfound hfound']
  . intro w hw
    refine ⟨(h w hw).complete, ?_⟩
    intro offset limit
    apply ((h w hw).page offset limit).mono _ (fun _ h => h)
    rintro page ⟨found, hfound, hview⟩
    exact ⟨_, ⟨found, hfound, rfl⟩, hview⟩

theorem of_backend_withVariants
    : Shows p I
        (do
          let shown ← variants 0 usizeMax
          match shown with
          | some shown => return shown.intoMatches
          | none => complete)
        (fun offset limit => do
          let shown ← variants offset limit
          match shown with
          | some shown => return some shown
          | none => page offset limit) := by
  refine ⟨fun shown => ∃ found, Found found ∧ shown = found.withVariants, ?_, ?_⟩
  . rintro _ _ ⟨found, hfound, rfl⟩ ⟨found', hfound', rfl⟩
    rw [hunique found found' hfound hfound']
  . intro w hw
    refine ⟨(h w hw).completeWithVariants hunique, ?_⟩
    intro offset limit
    apply ((h w hw).pageWithVariants hunique offset limit).mono _ (fun _ h => h)
    rintro page ⟨found, hfound, hview⟩
    exact ⟨_, ⟨found, hfound, rfl⟩, hview⟩

end Shows

theorem PagedCall.shows {complete : Exec (Option LocatedKeys)}
    {page : Nat → Nat → Exec (Option LocatedKeyPage)}
    (hcall : PagedCall file index query complete page)
    (hindex : ∀ opened, index = some opened → ∃ bytes options, opened.Opened bytes options)
    : Shows p (AllSound file p index) complete page := by
  have hmemory (w : World) (hw : w.platform = p)
      : Backend w (AllSound file p index) (IsLocated file p query) (file.locateKeys query)
          (file.locateKeyPage query) (file.locateCaseVariants query) := by
    subst hw
    exact backend_memory file_invariant_allSound
  have hopened {opened : PersistentKeyIndex} (ho : index = some opened) (w : World)
      (hw : w.platform = p)
      : Backend w (AllSound file p index) (· = indexFindings file p opened query)
          (file.locateWithIndex opened query) (file.locatePageWithIndex opened query)
          (file.locateCaseVariantsWithIndex opened query) := by
    subst hw
    obtain ⟨bytes, options, hopen⟩ := hindex opened ho
    have hparsed := PersistentKeyIndex.parsed_of_parseHeader hopen.header
    apply backend_index file_invariant_allSound (index_invariant_allSound ho) hparsed.chunkBytes_pos
    exact hparsed.keyCount_le
  have hlocated (found found' : Findings) (h : IsLocated file p query found)
      (h' : IsLocated file p query found')
      : found = found' := h.unique h'
  have hfound {opened : PersistentKeyIndex} (found found' : Findings)
      (h : found = indexFindings file p opened query)
      (h' : found' = indexFindings file p opened query)
      : found = found' := h.trans h'.symm
  cases hcall with
  | locate => exact .of_backend hlocated hmemory
  | withMode mode =>
    unfold MdxFile.locateWithMode MdxFile.locatePageWithMode
    split
    . exact .of_backend_withVariants hlocated hmemory
    . exact .of_backend hlocated hmemory
  | withKeyIndex opened isOpen => exact .of_backend hfound (hopened isOpen)
  | withKeyIndexAndMode opened isOpen mode =>
    unfold MdxFile.locateWithKeyIndexAndMode MdxFile.locatePageWithKeyIndexAndMode
    split
    . exact .of_backend_withVariants hfound (hopened isOpen)
    . exact .of_backend hfound (hopened isOpen)

/-- A page that a call returned after some history of the dictionary. -/
def IsReturned (file : MdictFile) (p : Platform) (index : Option PersistentKeyIndex)
    (call : Exec (Option LocatedKeyPage)) (shown : Option LocatedKeyPage)
    : Prop :=
  ∃ w before after, w.platform = p ∧ Reachable file (·.platform = p) index before
    ∧ call w before = (.ok shown, after)

/-- Pages with these limits that calls returned, each starting where the one before ends. -/
def ConsecutivePages (file : MdictFile) (p : Platform) (index : Option PersistentKeyIndex)
    (page : Nat → Nat → Exec (Option LocatedKeyPage))
    : Nat → List (Nat × LocatedKeyPage) → Prop
  | _, [] => True
  | offset, (limit, shown) :: pages =>
    IsReturned file p index (page offset limit) (some shown)
      ∧ ConsecutivePages file p index page (offset + limit) pages

/-- The ordinals of consecutive pages make up one window. -/
theorem ConsecutivePages.flatten_eq {page : Nat → Nat → Exec (Option LocatedKeyPage)}
    {complete : LocatedKeys} {offset : Nat} {pages : List (Nat × LocatedKeyPage)}
    (h : ConsecutivePages file p index page offset pages)
    (hpage : ∀ offset limit shown, IsReturned file p index (page offset limit) shown →
      IsPageOf (some complete) offset limit shown)
    : (pages.map (·.2.ordinals)).flatten
        = Search.window complete.iter offset (pages.map (·.1)).sum := by
  induction pages generalizing offset with
  | nil => simp [Search.window]
  | cons shown pages ih =>
    obtain ⟨hshown, hrest⟩ := h
    have hslice := ((hpage _ _ _ hshown).some_eq _ _ rfl rfl).2.2
    rw [List.map_cons, List.flatten_cons, ih hrest, hslice, List.map_cons, List.sum_cons,
      ← Search.window_append_window]
    rfl

/--
Paging is slicing, for every lookup of both backends and whatever happened before each call: a page
is the window of the complete result, and consecutive pages from the start on make up the beginning
of it, or all of it when their limits reach its length.
-/
theorem pages_slice {complete : Exec (Option LocatedKeys)}
    {page : Nat → Nat → Exec (Option LocatedKeyPage)}
    (hcall : PagedCall file index query complete page) {before after : Session}
    (hw : w.platform = p) (h : Reachable file (·.platform = p) index before)
    {keys : Option LocatedKeys} (hcomplete : complete w before = (.ok keys, after))
    : (∀ offset limit shown, IsReturned file p index (page offset limit) shown →
          IsPageOf keys offset limit shown)
      ∧ ∀ located pages, keys = some located →
          ConsecutivePages file p index page 0 pages →
          (pages.map (·.2.ordinals)).flatten = located.iter.take (pages.map (·.1)).sum := by
  obtain ⟨hsound, hopened⟩ := h.allSound fun _ hw => hw
  obtain ⟨Shown, hunique, hshows⟩ := hcall.shows (p := p) hopened
  have hcomplete' := (hshows w hw).1 before hsound
  rw [hcomplete] at hcomplete'
  have hpages (offset limit : Nat) (shown : Option LocatedKeyPage)
      (hshown : IsReturned file p index (page offset limit) shown)
      : IsPageOf keys offset limit shown := by
    obtain ⟨w', before', after', hw', h', hrun⟩ := hshown
    have hpage := (hshows w' hw').2 offset limit before' (h'.allSound fun _ hw => hw).1
    rw [hrun] at hpage
    obtain ⟨-, found, hfound, hview⟩ := hpage
    exact .of_view (hunique _ _ hcomplete'.2 hfound) hview
  refine ⟨hpages, ?_⟩
  rintro located pages rfl hreturned
  rw [hreturned.flatten_eq hpages, Search.window, List.drop_zero]

/-- Every page of a lookup in the sample is a window of the complete result. -/
theorem pages_slice_sample
    : ∃ keys after, Sample.file.locateKeys ['A', 'a'] Sample.world .fresh = (.ok keys, after)
        ∧ ∀ offset limit shown,
            IsReturned Sample.file Sample.platform none
              (Sample.file.locateKeyPage ['A', 'a'] offset limit) shown →
            IsPageOf keys offset limit shown := by
  obtain ⟨keys, after, hrun, -⟩ := Sample.reachable.ok_of_ensures
    (fun I hI => locateKeys_ensures hI ['A', 'a']) (fun e he => by
      rcases he with he | he
      . exact not_interrupted Sample.quiet he
      . exact he _ Sample.decodesTo ⟨Sample.locatorFits, Sample.evaluates.queryFits _ (by decide)⟩)
  exact ⟨keys, after, hrun, (pages_slice .locate rfl Sample.reachable hrun).1⟩

end Mdict
