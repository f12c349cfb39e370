import Mdict.Lemmas.Persistent.Reopen
import Mdict.Theorems.Artifact

/-!
This module contains the agreement of the two backends: an index that was built of a dictionary and
opened again answers every query as the in-memory locator does.
-/

namespace Mdict

open Effect Persistent MdictFile

variable {file : MdictFile} {p : Platform} {index : PersistentKeyIndex}
variable {blocks : List (List DecodedKeyRow)} {query : Str}

/-- A lookup in memory that came to a value has passed the limit of its query. -/
theorem queryFits_of_run {β : Type} {context : String} {f : KeyLocator → Bytes → Exec β}
    {w : World} {s s' : Session} {b : β}
    (h : (do
        let locator ← file.keyLocator
        let normalized ← file.normalizedQuery query context
        f locator normalized : Exec β) w s = (.ok b, s'))
    : file.QueryFits w.platform query := by
  rw [Prog.bind_eq_ok] at h
  obtain ⟨locator, s1, -, h⟩ := h
  rw [Prog.bind_eq_ok] at h
  obtain ⟨normalized, s2, h, -⟩ := h
  unfold normalizedQuery at h
  rw [Prog.bind_eq_ok] at h
  obtain ⟨_, _, hplatform, h⟩ := h
  cases hplatform
  rw [Prog.bind_eq_ok] at h
  obtain ⟨length, _, hlength, h⟩ := h
  obtain ⟨rfl, hlt⟩ := (KeyNormalizer.normalizedLen_eq_ok _ _).mp (liftM_eq_ok.mp hlength).1
  rw [Prog.bind_eq_ok] at h
  obtain ⟨_, _, hlimit, -⟩ := h
  have hle := ensureLimit_eq_ok.mp (liftM_eq_ok.mp hlimit).1
  have hmax : u64Max + 1 = u64Bound := by decide
  rw [QueryFits, keyText]
  omega

/-! ## Calls -/

/--
A call on the key index and one in memory give the same answer. The one on the index fails only
from outside, by a limit, or because the query does not fit, which the one in memory notices.
-/
structure AnswerAlike {α γ : Type} (file : MdictFile) (p : Platform) (index : PersistentKeyIndex)
    (view : α → γ) (fits : Prop) (answer : γ) (x y : Exec α)
    : Prop where
  index : ∀ (w : World) (I : Session → Prop), w.platform = p → file.Invariant w.platform I →
    index.Invariant I →
      Ensures w I x (fun a => view a = answer) (file.IndexFails index w fits)
  memory : ∀ (w : World) (I : Session → Prop), w.platform = p → file.Invariant w.platform I →
    Ensures w I y (fun a => view a = answer) (fun _ => True)
  fits : ∀ (w : World) (s s' : Session) (a : α), w.platform = p → y w s = (.ok a, s') → fits

namespace AnswerAlike

/-- Two lookups that show a page if there is one, and else go on. -/
theorem orElse {α γ : Type} {view : α → γ} {fits : Prop} {shown : Option LocatedKeyPage}
    {answer : γ} {x y : Exec (Option LocatedKeyPage)} {x' y' : Exec α}
    (h : AnswerAlike file p index id fits shown x y)
    (h' : AnswerAlike file p index view fits answer x' y') (show' : LocatedKeyPage → α)
    : AnswerAlike file p index view fits ((shown.map fun page => view (show' page)).getD answer)
        (do
          let page ← x
          match page with
          | some page => return show' page
          | none => x')
        (do
          let page ← y
          match page with
          | some page => return show' page
          | none => y') where
  index := by
    intro w I hw hI hI'
    apply Ensures.bind (h.index w I hw hI hI')
    intro page hpage
    change page = shown at hpage
    subst hpage
    cases page with
    | some page => exact .pure rfl
    | none => exact h'.index w I hw hI hI'
  memory := by
    intro w I hw hI
    apply Ensures.bind (h.memory w I hw hI)
    intro page hpage
    change page = shown at hpage
    subst hpage
    cases page with
    | some page => exact .pure rfl
    | none => exact h'.memory w I hw hI
  fits := by
    intro w s s' a hw hrun
    rw [Prog.bind_eq_ok] at hrun
    obtain ⟨page, s1, hpage, -⟩ := hrun
    exact h.fits w s s1 page hw hpage

end AnswerAlike

section Represents

variable (h : index.Represents file p blocks)
include h

theorem locate_alike (query : Str)
    : AnswerAlike file p index (Option.map LocatedKeys.view) (file.QueryFits p query)
        (file.found p (keysOf blocks) query) (file.locateWithIndex index query)
        (file.locateKeys query) where
  index := by
    rintro w I rfl hI hI'
    apply (locateWithIndex_ensures hI hI' h.intact.chunkBytes_pos query).mono _ (fun _ h => h)
    rintro keys ⟨hview, -⟩
    rw [hview, h.indexFound_eq]
  memory := by
    rintro w I rfl hI
    apply (locateKeys_ensures hI query).mono _ (fun _ _ => trivial)
    rintro keys ⟨blocks', hblocks', hview⟩
    rw [hview, hblocks'.unique h.decodes]
  fits := by
    rintro w s s' keys rfl hrun
    exact queryFits_of_run hrun

theorem locatePage_alike (query : Str) (offset limit : Nat)
    : AnswerAlike file p index (Option.map LocatedKeyPage.view) (file.QueryFits p query)
        ((file.found p (keysOf blocks) query).map (LocatedKeyPage.of offset limit))
        (file.locatePageWithIndex index query offset limit)
        (file.locateKeyPage query offset limit) where
  index := by
    rintro w I rfl hI hI'
    apply (locatePageWithIndex_ensures hI hI' h.intact.chunkBytes_pos query offset limit).mono _
      (fun _ h => h)
    rintro page ⟨hview, -⟩
    rw [hview, h.indexFound_eq]
  memory := by
    rintro w I rfl hI
    apply (locateKeyPage_ensures hI query offset limit).mono _ (fun _ _ => trivial)
    rintro page ⟨blocks', hblocks', hview⟩
    rw [hview, hblocks'.unique h.decodes]
  fits := by
    rintro w s s' page rfl hrun
    exact queryFits_of_run hrun

theorem variants_alike (query : Str) (offset limit : Nat)
    : AnswerAlike file p index id (file.QueryFits p query)
        (CaseVariants.pageOf offset limit (exactOrdinals (keysOf blocks) query)
          (file.variantOrdinals p (keysOf blocks) query))
        (file.locateCaseVariantsWithIndex index query offset limit)
        (file.locateCaseVariants query offset limit) where
  index := by
    rintro w I rfl hI hI'
    apply (locateCaseVariantsWithIndex_ensures hI hI' h.intact.chunkBytes_pos query offset
      limit).mono _ (fun _ h => h)
    rintro page ⟨hpage, -⟩
    exact hpage.trans (h.indexVariantsPage_eq query offset limit)
  memory := by
    rintro w I rfl hI
    apply (locateCaseVariants_ensures hI query offset limit).mono _ (fun _ _ => trivial)
    rintro page ⟨blocks', hblocks', hpage⟩
    rw [hblocks'.unique h.decodes] at hpage
    exact hpage
  fits := by
    rintro w s s' page rfl hrun
    exact queryFits_of_run hrun

theorem prefix_alike (keyPrefix : Str) (limit : Nat)
    : AnswerAlike file p index id (limit ≠ 0 → file.QueryFits p keyPrefix)
        (((((file.locatorOf p (keysOf blocks)).order.filter fun row =>
          (file.keyText p keyPrefix).isPrefixOf
            ((file.locatorOf p (keysOf blocks)).row row)).take limit).map fun row =>
          (keysOf blocks)[row]?.map (KeyEntry.mk row)).filterMap id)
        (file.prefixWithIndex index keyPrefix limit)
        (MdxFile.prefixKeys ⟨file⟩ keyPrefix limit) where
  index := by
    rintro w I rfl hI hI'
    by_cases hlimit : limit = 0
    . subst hlimit
      exact .pure rfl
    . apply (prefixWithIndex_ensures hI hI' h.intact.chunkBytes_pos keyPrefix limit).mono
      . intro entries hentries
        rw [h.rowsWithPrefix_eq] at hentries
        exact h.entries_eq hentries
      . intro e he
        exact he.mono fun hfits => hfits hlimit
  memory := by
    rintro w I rfl hI
    apply Ensures.bind (R := fun ordinals => ordinals
      = ((file.locatorOf w.platform (keysOf blocks)).order.filter fun row =>
          (file.keyText w.platform keyPrefix).isPrefixOf
            ((file.locatorOf w.platform (keysOf blocks)).row row)).take limit)
    . by_cases hlimit : limit = 0
      . subst hlimit
        exact .pure rfl
      . apply (locatePrefix_ensures hI keyPrefix hlimit).mono _ (fun _ _ => trivial)
        rintro ordinals ⟨blocks', hblocks', rows, hperm, hlisted, rfl⟩
        rw [hblocks'.unique h.decodes] at hperm hlisted
        have hsorted := @sorted_locatorOf file w.platform (keysOf blocks)
        rw [SortedIndex.eq_of_perm_of_pairwise (hperm.trans (prefix_perm _ _).symm) hlisted
          (List.Pairwise.filter _ hsorted.sorted)]
    rintro _ rfl
    apply Ensures.bind (Answers.ensures (keysAtOrdinals_answers hI h.decodes _)
      (Q := fun entries => entries = (((file.locatorOf w.platform (keysOf blocks)).order.filter
        fun row => (file.keyText w.platform keyPrefix).isPrefixOf
          ((file.locatorOf w.platform (keysOf blocks)).row row)).take limit).map fun row =>
        (keysOf blocks)[row]?.map (KeyEntry.mk row)) rfl fun _ _ => trivial)
    rintro _ rfl
    exact .pure rfl
  fits := by
    rintro w s s' entries rfl hrun hlimit
    unfold MdxFile.prefixKeys at hrun
    rw [Prog.bind_eq_ok] at hrun
    obtain ⟨ordinals, s1, hordinals, -⟩ := hrun
    unfold locatePrefix at hordinals
    rw [if_neg hlimit] at hordinals
    exact queryFits_of_run hordinals

theorem scan_alike {β : Type} (visit : β → Nat → Bytes → β × Bool) (acc : β)
    : AnswerAlike file p index id True
        (visitTexts visit 0 ((keysOf blocks).map (file.keyText p)) acc)
        (file.scanWithIndex index visit acc) (file.scanNormalizedKeys visit acc) where
  index := by
    rintro w I rfl hI hI'
    apply (scanWithIndex_ensures hI hI' h.intact.chunkBytes_pos visit acc).mono _ (fun _ h => h)
    rintro result ⟨hresult, -⟩
    rw [h.texts_eq] at hresult
    exact hresult
  memory := by
    rintro w I rfl hI
    apply (scanNormalizedKeys_ensures hI visit acc).mono _ (fun _ _ => trivial)
    rintro result ⟨blocks', hblocks', hresult⟩
    rw [hblocks'.unique h.decodes] at hresult
    exact hresult
  fits := fun _ _ _ _ _ _ => trivial

end Represents

/-- The calls on a key index, each with the call in memory that it stands for. -/
inductive KeyIndexCall (mdx : MdxFile) (index : PersistentKeyIndex)
    : {α γ : Type} → (view : α → γ) → Exec α → Exec α → Prop
  | locate (query : Str)
    : KeyIndexCall mdx index (Option.map LocatedKeys.view) (mdx.locateWithKeyIndex index query)
        (mdx.locate query)
  | locateWithMode (query : Str) (mode : MatchMode)
    : KeyIndexCall mdx index (Option.map LocatedKeys.view)
        (mdx.locateWithKeyIndexAndMode index query mode) (mdx.locateWithMode query mode)
  | locatePage (query : Str) (offset limit : Nat)
    : KeyIndexCall mdx index (Option.map LocatedKeyPage.view)
        (mdx.locatePageWithKeyIndex index query offset limit) (mdx.locatePage query offset limit)
  | locatePageWithMode (query : Str) (offset limit : Nat) (mode : MatchMode)
    : KeyIndexCall mdx index (Option.map LocatedKeyPage.view)
        (mdx.locatePageWithKeyIndexAndMode index query offset limit mode)
        (mdx.locatePageWithMode query offset limit mode)
  | prefixKeys (keyPrefix : Str) (limit : Nat)
    : KeyIndexCall mdx index id (mdx.prefixKeysWithIndex index keyPrefix limit)
        (mdx.prefixKeys keyPrefix limit)
  | scanNormalizedKeys {β : Type} (visit : β → Nat → Bytes → β × Bool) (acc : β)
    : KeyIndexCall mdx index id (mdx.scanNormalizedKeysWithIndex index visit acc)
        (mdx.scanNormalizedKeys visit acc)

theorem KeyIndexCall.alike {mdx : MdxFile} {α γ : Type} {view : α → γ} {x y : Exec α}
    (hcall : KeyIndexCall mdx index view x y) (h : index.Represents mdx.inner p blocks)
    : ∃ fits answer, AnswerAlike mdx.inner p index view fits answer x y := by
  cases hcall with
  | locate query => exact ⟨_, _, locate_alike h query⟩
  | locateWithMode query mode =>
    unfold MdxFile.locateWithKeyIndexAndMode MdxFile.locateWithMode
    split
    . exact ⟨_, _, (variants_alike h query 0 usizeMax).orElse (locate_alike h query)
        LocatedKeyPage.intoMatches⟩
    . exact ⟨_, _, locate_alike h query⟩
  | locatePage query offset limit => exact ⟨_, _, locatePage_alike h query offset limit⟩
  | locatePageWithMode query offset limit mode =>
    unfold MdxFile.locatePageWithKeyIndexAndMode MdxFile.locatePageWithMode
    split
    . exact ⟨_, _, (variants_alike h query offset limit).orElse
        (locatePage_alike h query offset limit) some⟩
    . exact ⟨_, _, locatePage_alike h query offset limit⟩
  | prefixKeys keyPrefix limit => exact ⟨_, _, prefix_alike h keyPrefix limit⟩
  | scanNormalizedKeys visit acc => exact ⟨_, _, scan_alike h visit acc⟩

/-! ## Built and opened again -/

/-- An artifact was opened with these options after some history of the dictionary. -/
def IsReopened (mdx : MdxFile) (p : Platform) (options : KeyIndexOptions) (bytes : Bytes)
    (index : PersistentKeyIndex)
    : Prop :=
  ∃ w other before expected after, w.platform = p
    ∧ Reachable mdx.inner (·.platform = p) other before
    ∧ mdx.openKeyIndex bytes expected options w before = (.ok index, after)

theorem IsReopened.represents {mdx : MdxFile} {identity : KeyIndexSourceIdentity}
    {options : KeyIndexOptions} {bytes : Bytes}
    (hopen : IsReopened mdx p options bytes index)
    (hartifact : IsArtifact mdx p identity options bytes)
    : ∃ blocks, index.Represents mdx.inner p blocks ∧ index.sourceIdentity = identity := by
  obtain ⟨blocks, built, hbuilt, rfl, rfl⟩ := hartifact.built
  obtain ⟨w, other, before, expected, after, rfl, hreach, hrun⟩ := hopen
  obtain ⟨hsound, -⟩ := hreach.allSound fun _ hw => hw
  obtain ⟨ho, -, -⟩ := PersistentKeyIndex.openFile_ok file_invariant_allSound.events hsound hrun
  refine ⟨blocks, hbuilt.represents ho, ?_⟩
  obtain ⟨checksumCount, -, hindex⟩ := hbuilt.header_eq ho
  rw [PersistentKeyIndex.sourceIdentity, hindex]
  rfl

/-- An open index reads rows as long as the decoded blocks of the dictionary may be. -/
theorem IsReopened.maxRowBytes {mdx : MdxFile} {options : KeyIndexOptions} {bytes : Bytes}
    (h : IsReopened mdx p options bytes index)
    : index.maxRowBytes = mdx.inner.limits.decompressedBlockBytes := by
  obtain ⟨w, other, before, expected, after, -, -, hrun⟩ := h
  exact PersistentKeyIndex.openFile_maxRowBytes hrun

theorem IsReopened.reachable {mdx : MdxFile} {options : KeyIndexOptions} {bytes : Bytes}
    (h : IsReopened mdx p options bytes index)
    : ∃ s, Reachable mdx.inner (·.platform = p) (some index) s := by
  obtain ⟨w, other, before, expected, after, hw, hreach, hrun⟩ := h
  exact ⟨after, .openKeyIndex hreach hw hrun⟩

/--
An index that was built of a dictionary and opened again with the same options answers as the
in-memory locator does, each after a history of its own. On an unchanged source nothing but the
outside world and the limits keep it from an answer.
-/
theorem keyIndex_agrees {mdx : MdxFile} {identity : KeyIndexSourceIdentity}
    {options : KeyIndexOptions} {bytes : Bytes}
    (hartifact : IsArtifact mdx p identity options bytes)
    (hopen : IsReopened mdx p options bytes index) {α γ : Type} {view : α → γ} {x y : Exec α}
    (hcall : KeyIndexCall mdx index view x y) {w w' : World} (hw : w.platform = p)
    (hw' : w'.platform = p) (hunchanged : mdx.inner.Unchanged w identity)
    {other : Option PersistentKeyIndex} {s s' t : Session}
    (h : Reachable mdx.inner (·.platform = p) (some index) s)
    (h' : Reachable mdx.inner (·.platform = p) other s') {b : α} (hmemory : y w' s' = (.ok b, t))
    : (∃ a t', x w s = (.ok a, t') ∧ view a = view b)
      ∨ ∃ e t', x w s = (.error e, t') ∧ Hindered w e := by
  obtain ⟨blocks, hrepresents, hidentity⟩ := hopen.represents hartifact
  obtain ⟨fits, answer, halike⟩ := hcall.alike hrepresents
  have hsound := (h.allSound fun _ hw => hw).1
  have hsound' := (h'.allSound fun _ hw => hw).1
  have hfits := halike.fits w' s' t b hw' hmemory
  rw [← hw] at hsound
  rw [← hw'] at hsound'
  have hindexRun := halike.index w _ hw file_invariant_allSound (index_invariant_allSound rfl) s
    hsound
  have hmemoryRun := halike.memory w' _ hw' file_invariant_allSound s' hsound'
  rw [hmemory] at hmemoryRun
  generalize hrun : x w s = run at hindexRun
  obtain ⟨e | a, t'⟩ := run
  . right
    refine ⟨e, t', rfl, ?_⟩
    rw [← hw] at hrepresents
    rw [← hidentity] at hunchanged
    exact hindexRun.2.hindered ⟨blocks, hrepresents⟩ hunchanged hfits
  . left
    exact ⟨a, t', rfl, hindexRun.2.trans hmemoryRun.2.symm⟩

/-- Opening an artifact on a fresh handle. -/
theorem isReopened_fresh {mdx : MdxFile} {w : World} {options : KeyIndexOptions} {bytes : Bytes}
    {expected : KeyIndexSourceIdentity} {s : Session}
    (h : mdx.openKeyIndex bytes expected options w .fresh = (.ok index, s))
    : IsReopened mdx w.platform options bytes index
        ∧ Reachable mdx.inner (·.platform = w.platform) (some index) s :=
  ⟨⟨w, none, .fresh, expected, s, rfl, .opened [], h⟩, .openKeyIndex (.opened []) rfl h⟩

namespace Sample

/-- Whether a build of `file` has this identity and opens again as `check` says. -/
def rebuilds (file : MdictFile) (identity : KeyIndexSourceIdentity) (options : KeyIndexOptions)
    (check : PersistentKeyIndex → Session → Bool)
    : Bool :=
  (MdxFile.buildKeyIndexToPath ⟨file⟩ options (worldOf file) .fresh).1.toOption.any fun built =>
    decide (built.1.sourceIdentity = identity)
      && match MdxFile.openKeyIndex ⟨file⟩ built.2 identity options (worldOf file) .fresh with
        | (.ok index, s) => check index s
        | (.error _, _) => false

/-- What was built of a dictionary and opens again is an index of it. -/
theorem exists_index {file : MdictFile} {identity : KeyIndexSourceIdentity}
    {options : KeyIndexOptions} {check : PersistentKeyIndex → Session → Bool}
    (h : rebuilds file identity options check = true)
    : ∃ bytes index s,
        IsArtifact ⟨file⟩ (worldOf file).platform identity options bytes
          ∧ IsReopened ⟨file⟩ (worldOf file).platform options bytes index
          ∧ Reachable (MdxFile.mk file).inner (·.platform = (worldOf file).platform) (some index) s
          ∧ check index s = true := by
  obtain ⟨⟨report, bytes⟩, hbuild, hbuilt⟩ := exists_of_any h
  rw [Bool.and_eq_true] at hbuilt
  obtain ⟨hidentity, hopens⟩ := hbuilt
  have hartifact := isArtifact_fresh hbuild
  rw [of_decide_eq_true hidentity] at hartifact
  generalize hrun : MdxFile.openKeyIndex _ _ _ _ _ _ = run at hopens
  obtain ⟨e | index, s⟩ := run
  . exact absurd hopens Bool.false_ne_true
  . obtain ⟨hreopened, hreach⟩ := isReopened_fresh hrun
    exact ⟨bytes, index, s, hartifact, hreopened, hreach, hopens⟩

/-- The world of a dictionary says that it is unchanged. -/
theorem unchanged_worldOf {file : MdictFile} {n : Nat} (hlt : file.source.len < u64Bound)
    (hcount : file.len = n)
    : file.Unchanged (worldOf file) ⟨file.source.len, 0, n⟩ where
  sourceLen := rfl
  len := fun _ => Nat.mod_eq_of_lt hlt
  modified := fun _ => rfl
  keyCount := hcount

end Sample

/-- The dictionary with one key finds it in memory, so it finds it in its index. -/
theorem keyIndex_agrees_sample
    : ∃ index s located t,
        MdxFile.locate ⟨Sample.single⟩ ['a'] (Sample.worldOf Sample.single) .fresh
          = (.ok located, t)
        ∧ ((∃ found t', MdxFile.locateWithKeyIndex ⟨Sample.single⟩ index ['a']
              (Sample.worldOf Sample.single) s = (.ok found, t')
            ∧ found.map LocatedKeys.view = located.map LocatedKeys.view)
          ∨ ∃ e t', MdxFile.locateWithKeyIndex ⟨Sample.single⟩ index ['a']
              (Sample.worldOf Sample.single) s = (.error e, t')
            ∧ Hindered (Sample.worldOf Sample.single) e) := by
  obtain ⟨bytes, index, s, hartifact, hopen, hreach, -⟩ := Sample.exists_index
    (show Sample.rebuilds Sample.single ⟨Sample.single.source.len, 0, 1⟩
      { KeyIndexOptions.new with buildMemoryBytes := 2 ^ 20 } (fun _ _ => true) = true by
      decide +kernel)
  obtain ⟨hlocates, hlt, hcount⟩ : (MdxFile.locate ⟨Sample.single⟩ ['a']
        (Sample.worldOf Sample.single) .fresh).1.isOk = true
      ∧ Sample.single.source.len < u64Bound ∧ Sample.single.len = 1 := by
    decide +kernel
  have hunchanged := Sample.unchanged_worldOf hlt hcount
  generalize Sample.worldOf Sample.single = w at *
  generalize Sample.single = single at *
  generalize hrun : MdxFile.locate _ _ _ _ = run at hlocates
  obtain ⟨e | located, t⟩ := run
  . exact absurd hlocates Bool.false_ne_true
  . exact ⟨index, s, located, t, rfl, keyIndex_agrees hartifact hopen (.locate ['a']) rfl rfl
      hunchanged hreach (.opened []) hrun⟩

end Mdict
