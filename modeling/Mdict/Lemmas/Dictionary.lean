import Mdict.Dictionary
import Mdict.Lemmas.Iter
import Mdict.Lemmas.Records
import Mdict.Lemmas.Spans
import Mdict.Theorems.Lookup
import Mdict.Theorems.Records

/-!
This module contains that a file whose blocks decode refines the dictionary of its entries.
-/

namespace Mdict

open Effect MdictFile

namespace MdictFile

/-- The dictionary of these rows and these decoded record blocks. -/
def dictionary (file : MdictFile) (blocks : List (List DecodedKeyRow)) (decoded : List Bytes)
    : Dictionary where
  normalizer := file.normalizer
  recordEncoding := file.layout.recordEncoding
  limits := file.limits
  entries := (descriptorsOf file.layout.totalDecodedRecordLen blocks.flatten).map fun descriptor =>
    (descriptor.key.key, Search.slice decoded.flatten descriptor.start descriptor.stop)

/-- All blocks of the file decode, and this is the dictionary of their entries. -/
def Represents (file : MdictFile) (p : Platform) (d : Dictionary) : Prop :=
  ∃ blocks decoded, file.DecodesTo p blocks ∧ file.RecordsDecodeTo p decoded
    ∧ d = file.dictionary blocks decoded

variable {file : MdictFile} {w : World} {I : Session → Prop} {p : Platform}
variable {blocks : List (List DecodedKeyRow)} {decoded : List Bytes}

theorem keys_dictionary : (file.dictionary blocks decoded).keys = keysOf blocks := by
  apply List.ext_getElem?
  intro ordinal
  rw [Dictionary.keys, dictionary, List.map_map, descriptorsOf, List.getElem?_map,
    List.getElem?_mapIdx, Option.map_map, keysOf, List.getElem?_map]
  rfl

theorem keyAt_dictionary (ordinal : Nat)
    : (file.dictionary blocks decoded).keyAt ordinal
        = (keysOf blocks)[ordinal]?.map (KeyEntry.mk ordinal) := by
  rw [Dictionary.keyAt, keys_dictionary]

/-! ## Searches -/

theorem exact_dictionary (query : Str)
    : (file.dictionary blocks decoded).exact query = exactOrdinals (keysOf blocks) query := by
  rw [Dictionary.exact, keys_dictionary]
  rfl

theorem variants_dictionary (query : Str)
    : (file.dictionary blocks decoded).variants p query
        = file.variantOrdinals p (keysOf blocks) query := by
  rw [Dictionary.variants, keys_dictionary]
  rfl

theorem find_dictionary (query : Str)
    : (file.dictionary blocks decoded).find p query = file.found p (keysOf blocks) query := by
  rw [Dictionary.find, exact_dictionary, Dictionary.normalized, keys_dictionary]
  rfl

theorem textAt_dictionary {ordinal : Nat} (h : ordinal < (keysOf blocks).length)
    : (file.dictionary blocks decoded).textAt p ordinal
        = (file.locatorOf p (keysOf blocks)).row ordinal := by
  have hkey := List.getElem?_eq_getElem h
  rw [row_locatorOf hkey, Dictionary.textAt, keys_dictionary, hkey]
  rfl

/-- Sorting the ordinals by text gives the order of the locator. -/
theorem order_dictionary
    : (List.range (file.dictionary blocks decoded).keys.length).mergeSort (fun a b =>
          decide ((file.dictionary blocks decoded).textAt p a
              < (file.dictionary blocks decoded).textAt p b
            ∨ (file.dictionary blocks decoded).textAt p a
              = (file.dictionary blocks decoded).textAt p b ∧ a ≤ b))
        = (file.locatorOf p (keysOf blocks)).order := by
  have hsorted := @SortedIndex.Sorted.of_mergeSort _ _
    ((file.dictionary blocks decoded).textAt p) _ (fun a b => decide_eq_true_iff)
    (file.dictionary blocks decoded).keys.length
  rw [keys_dictionary] at hsorted ⊢
  apply SortedIndex.Sorted.unique hsorted
  exact (sorted_locatorOf (keysOf blocks)).congr fun ordinal hordinal =>
    (textAt_dictionary hordinal).symm

theorem startingWith_dictionary (keyPrefix : Str)
    : (file.dictionary blocks decoded).startingWith p keyPrefix
        = (file.locatorOf p (keysOf blocks)).order.filter fun row =>
          (file.keyText p keyPrefix).isPrefixOf ((file.locatorOf p (keysOf blocks)).row row) := by
  rw [Dictionary.startingWith, order_dictionary]
  apply List.filter_congr
  intro row hrow
  rw [textAt_dictionary ((sorted_locatorOf (keysOf blocks)).lt_of_mem hrow)]
  rfl

theorem locatorFits_dictionary
    : (file.dictionary blocks decoded).LocatorFits p ↔ file.LocatorFits p (keysOf blocks) := by
  rw [← @keys_dictionary file blocks decoded]
  exact ⟨fun h => ⟨h.entries, h.bytes, h.text⟩, fun h => ⟨h.entries, h.bytes, h.text⟩⟩

/-- Where the index fits and can be asked, only the world keeps a search from its answer. -/
theorem not_lookupFails {query : Str} {e : Error} (hblocks : file.DecodesTo w.platform blocks)
    (hfits : (file.dictionary blocks decoded).Searchable w.platform query)
    (he : file.LookupFails w query e)
    : Interrupted w e := by
  rcases he with he | he
  . exact he
  . exact absurd ⟨locatorFits_dictionary.mp hfits.locator, hfits.query⟩ (he blocks hblocks)

/-- What a search ensures of a dictionary that decodes is its answer. -/
theorem answers_of_lookup {α γ : Type} {x : Exec α} {query : Str} (view : α → γ)
    (shown : List Str → γ) (hblocks : file.DecodesTo w.platform blocks)
    (hfits : (file.dictionary blocks decoded).Searchable w.platform query)
    (hx : Ensures w I x
      (fun a => ∃ blocks', file.DecodesTo w.platform blocks' ∧ view a = shown (keysOf blocks'))
      (file.LookupFails w query))
    : Answers w I (view <$> x) (.ok (shown (keysOf blocks))) := by
  apply Ensures.map
  apply hx.mono
  . rintro a ⟨blocks', hblocks', ha⟩
    rw [hblocks'.unique hblocks] at ha
    rw [ha]
  . exact fun e he => .inl (not_lookupFails hblocks hfits he)

theorem locateKeys_dictionary (hI : file.Invariant w.platform I)
    (hblocks : file.DecodesTo w.platform blocks) {query : Str}
    (hfits : (file.dictionary blocks decoded).Searchable w.platform query)
    : Answers w I (Option.map LocatedKeys.view <$> file.locateKeys query)
        (.ok ((file.dictionary blocks decoded).find w.platform query)) := by
  rw [find_dictionary]
  exact answers_of_lookup _ (fun keys => file.found w.platform keys query) hblocks hfits
    (locateKeys_ensures hI query)

theorem locateKeyPage_dictionary (hI : file.Invariant w.platform I)
    (hblocks : file.DecodesTo w.platform blocks) {query : Str} (offset limit : Nat)
    (hfits : (file.dictionary blocks decoded).Searchable w.platform query)
    : Answers w I (Option.map LocatedKeyPage.view <$> file.locateKeyPage query offset limit)
        (.ok (((file.dictionary blocks decoded).find w.platform query).map
          (LocatedKeyPage.of offset limit))) := by
  rw [find_dictionary]
  exact answers_of_lookup _
    (fun keys => (file.found w.platform keys query).map (LocatedKeyPage.of offset limit))
    hblocks hfits (locateKeyPage_ensures hI query offset limit)

theorem length_ordinalsWhere_le (keys : List Str) (isMatch : Str → Bool)
    : (ordinalsWhere keys isMatch).length ≤ keys.length :=
  (List.length_filter_le _ _).trans (by rw [List.length_range])

/-- The page of the variants shows a window of what is found with them. -/
theorem locateCaseVariants_dictionary (hI : file.Invariant w.platform I)
    (hblocks : file.DecodesTo w.platform blocks) {query : Str} (offset limit : Nat)
    (hfits : (file.dictionary blocks decoded).Searchable w.platform query)
    : Answers w I (file.locateCaseVariants query offset limit)
        (.ok (CaseVariants.pageOf offset limit ((file.dictionary blocks decoded).exact query)
          ((file.dictionary blocks decoded).variants w.platform query))) := by
  rw [exact_dictionary, variants_dictionary]
  have hrun := answers_of_lookup id (fun keys =>
    CaseVariants.pageOf offset limit (exactOrdinals keys query)
      (file.variantOrdinals w.platform keys query)) hblocks hfits
    (locateCaseVariants_ensures hI query offset limit)
  rwa [id_map] at hrun

/-- Where case variants count, only a search without any goes on by text. -/
theorem findWithMode_of {d : Dictionary} {query : Str} {mode : MatchMode}
    (h : mode = .includeCaseVariants ∧ d.normalizer.caseSensitive = false)
    : d.findWithMode p query mode
        = if d.exact query ++ d.variants p query = [] then d.find p query
          else some (if d.variants p query = [] then .rawExact else .caseVariants,
            d.exact query ++ d.variants p query) := by
  rw [Dictionary.findWithMode]
  by_cases hnone : d.exact query ++ d.variants p query = []
  . rw [if_neg fun hfound => hfound.2.2 hnone, if_pos hnone]
  . rw [if_pos ⟨h.1, h.2, hnone⟩, if_neg hnone]

theorem findWithMode_of_not {d : Dictionary} {query : Str} {mode : MatchMode}
    (h : ¬(mode = .includeCaseVariants ∧ d.normalizer.caseSensitive = false))
    : d.findWithMode p query mode = d.find p query := by
  rw [Dictionary.findWithMode, if_neg fun hfound => h ⟨hfound.1, hfound.2.1⟩]

theorem includesCaseVariants_iff {mode : MatchMode}
    : MdxFile.includesCaseVariants ⟨file⟩ mode = true
        ↔ mode = .includeCaseVariants ∧ file.normalizer.caseSensitive = false := by
  rw [MdxFile.includesCaseVariants, Bool.and_eq_true, beq_iff_eq, Bool.not_eq_true']
  rfl

theorem locateWithMode_dictionary (hI : file.Invariant w.platform I)
    (hblocks : file.DecodesTo w.platform blocks) {query : Str} (mode : MatchMode)
    (hfits : (file.dictionary blocks decoded).Searchable w.platform query)
    : Answers w I (Option.map LocatedKeys.view <$> MdxFile.locateWithMode ⟨file⟩ query mode)
        (.ok ((file.dictionary blocks decoded).findWithMode w.platform query mode)) := by
  have hlocate := locateKeys_dictionary hI hblocks hfits
  have hpage := locateCaseVariants_dictionary hI hblocks 0 usizeMax hfits
  unfold MdxFile.locateWithMode
  split
  . next hincludes =>
    rw [includesCaseVariants_iff] at hincludes
    have hlength := length_ordinalsWhere_le (file.dictionary blocks decoded).keys
    have hentries := hfits.locator.entries
    have hmax : u32Max + 1 = u32Bound ∧ u32Bound * 16 ≤ u64Bound ∧ usizeMax + 1 = u64Bound := by
      decide
    rw [pageOf_all] at hpage
    rotate_left
    . have hexact := hlength (· == query)
      have hvariants := hlength fun key =>
        (file.dictionary blocks decoded).text w.platform key
            = (file.dictionary blocks decoded).text w.platform query
          && (key != query && equalIgnoringCase w.platform key query)
      rw [Dictionary.exact, Dictionary.variants]
      omega
    rw [findWithMode_of hincludes, map_bind]
    apply hpage.bind_ok
    by_cases hnone : (file.dictionary blocks decoded).exact query
        ++ (file.dictionary blocks decoded).variants w.platform query = []
    . simp only [if_pos hnone]
      exact hlocate
    . simp only [if_neg hnone]
      rw [map_pure, view_intoMatches, if_neg hnone]
      exact .pure
  . next hexcludes =>
    rw [includesCaseVariants_iff] at hexcludes
    rw [findWithMode_of_not hexcludes]
    exact hlocate

theorem locatePageWithMode_dictionary (hI : file.Invariant w.platform I)
    (hblocks : file.DecodesTo w.platform blocks) {query : Str} (offset limit : Nat)
    (mode : MatchMode) (hfits : (file.dictionary blocks decoded).Searchable w.platform query)
    : Answers w I
        (Option.map LocatedKeyPage.view
          <$> MdxFile.locatePageWithMode ⟨file⟩ query offset limit mode)
        (.ok (((file.dictionary blocks decoded).findWithMode w.platform query mode).map
          (LocatedKeyPage.of offset limit))) := by
  have hlocate := locateKeyPage_dictionary hI hblocks offset limit hfits
  have hpage := locateCaseVariants_dictionary hI hblocks offset limit hfits
  unfold MdxFile.locatePageWithMode
  split
  . next hincludes =>
    rw [includesCaseVariants_iff] at hincludes
    rw [findWithMode_of hincludes, map_bind]
    apply hpage.bind_ok
    simp only [CaseVariants.pageOf, ← List.length_append, List.length_eq_zero_iff]
    by_cases hnone : (file.dictionary blocks decoded).exact query
        ++ (file.dictionary blocks decoded).variants w.platform query = []
    . simp only [if_pos hnone]
      exact hlocate
    . simp only [if_neg hnone]
      exact .pure
  . next hexcludes =>
    rw [includesCaseVariants_iff] at hexcludes
    rw [findWithMode_of_not hexcludes]
    exact hlocate

theorem prefixKeys_dictionary (hI : file.Invariant w.platform I)
    (hblocks : file.DecodesTo w.platform blocks) {keyPrefix : Str} {limit : Nat}
    (hfits : limit ≠ 0 → (file.dictionary blocks decoded).Searchable w.platform keyPrefix)
    : Answers w I (MdxFile.prefixKeys ⟨file⟩ keyPrefix limit)
        (.ok ((((file.dictionary blocks decoded).startingWith w.platform
          keyPrefix).take limit).filterMap (file.dictionary blocks decoded).keyAt)) := by
  have hordinals : Answers w I (file.locatePrefix keyPrefix limit)
      (.ok (((file.dictionary blocks decoded).startingWith w.platform keyPrefix).take limit)) := by
    by_cases hlimit : limit = 0
    . rw [locatePrefix, if_pos hlimit, hlimit]
      exact .pure
    . apply (locatePrefix_ensures hI keyPrefix hlimit).mono
      . rintro _ ⟨blocks', hblocks', rows, hperm, hlisted, rfl⟩
        rw [hblocks'.unique hblocks] at hperm hlisted
        rw [startingWith_dictionary, SortedIndex.eq_of_perm_of_pairwise
          (hperm.trans (prefix_perm _ _).symm) hlisted
          (List.Pairwise.filter _ (sorted_locatorOf (keysOf blocks)).sorted)]
      . exact fun e he => .inl (not_lookupFails hblocks (hfits hlimit) he)
  unfold MdxFile.prefixKeys
  apply hordinals.bind_ok
  apply (keysAtOrdinals_answers hI hblocks _).bind_ok
  rw [List.filterMap_map]
  have hkeys : (file.dictionary blocks decoded).keyAt
      = id ∘ fun row => (keysOf blocks)[row]?.map (KeyEntry.mk row) :=
    funext keyAt_dictionary
  rw [hkeys]
  exact .pure

theorem scanNormalizedKeys_dictionary {β : Type} (hI : file.Invariant w.platform I)
    (hblocks : file.DecodesTo w.platform blocks)
    (hfits : (file.dictionary blocks decoded).LocatorFits w.platform)
    (visit : β → Nat → Bytes → β × Bool) (acc : β)
    : Answers w I (file.scanNormalizedKeys visit acc)
        (.ok (visitTexts visit 0 ((file.dictionary blocks decoded).keys.map
          ((file.dictionary blocks decoded).text w.platform)) acc)) := by
  rw [keys_dictionary]
  apply (scanNormalizedKeys_ensures hI visit acc).mono
  . rintro result ⟨blocks', hblocks', hresult⟩
    rw [hblocks'.unique hblocks] at hresult
    rw [hresult]
    rfl
  . rintro e (he | he)
    . exact .inl he
    . exact absurd (locatorFits_dictionary.mp hfits) (he blocks hblocks)

/-! ## Records -/

theorem entries_dictionary (ordinal : Nat)
    : (file.dictionary blocks decoded).entries[ordinal]?
        = (descriptorsOf file.layout.totalDecodedRecordLen blocks.flatten)[ordinal]?.map
          fun descriptor => (descriptor.key.key,
            Search.slice decoded.flatten descriptor.start descriptor.stop) := by
  rw [dictionary, List.getElem?_map]

/-- Reading records is reading the entries of the dictionary. -/
theorem readAt_dictionary {α : Type} {read : RecordDescriptor → Exec α}
    {reads : KeyEntry → Bytes → Except Error α} (hI : file.Invariant w.platform I)
    (hblocks : file.DecodesTo w.platform blocks) (hdecoded : file.RecordsDecodeTo w.platform decoded)
    (hread : ∀ descriptor, descriptor.start ≤ descriptor.stop →
      descriptor.stop ≤ decoded.flatten.length →
        Answers w I (read descriptor) (reads descriptor.key
          (Search.slice decoded.flatten descriptor.start descriptor.stop)))
    (ordinal : Nat)
    : Answers w I (Mdict.readAt file read ordinal)
        ((file.dictionary blocks decoded).readAt reads ordinal) := by
  unfold Mdict.readAt Dictionary.readAt
  rw [entries_dictionary]
  apply (recordAtOrdinal_answers hI hblocks ordinal).bind_ok
  cases hdescriptor : (descriptorsOf file.layout.totalDecodedRecordLen blocks.flatten)[ordinal]? with
  | none => exact .pure
  | some descriptor =>
    obtain ⟨row, hrow, rfl⟩ := descriptorsOf_eq_some hdescriptor
    obtain ⟨hle, hstop⟩ := le_stopOf hblocks.startsFrom hrow
    exact (hread _ hle (hstop.trans_eq hdecoded.length_flatten.symm)).bind fun a _ => .pure

/-- A record that is held as a whole is read within the limit. -/
theorem readRecordSpan_dictionary (hI : file.Invariant w.platform I)
    (hdecoded : file.RecordsDecodeTo w.platform decoded) {start stop : Nat} (hle : start ≤ stop)
    (hstop : stop ≤ decoded.flatten.length)
    : Answers w I (file.readRecordSpan start stop)
        (do
          ensureLimit "materialized_record_bytes" (Search.slice decoded.flatten start stop).length
            file.limits.materializedRecordBytes
          return Search.slice decoded.flatten start stop) := by
  rw [Search.length_slice hstop]
  by_cases hlimit : stop - start ≤ file.limits.materializedRecordBytes
  . rw [ensureLimit_of_le hlimit]
    exact readRecordSpan_answers hI hdecoded hle hstop hlimit
  . have hlen := @materializedRecordSpanLen_of_lt file _ _ hle
      (by rw [← hdecoded.length_flatten]; exact hstop) (by omega)
    unfold readRecordSpan
    rw [hlen, ensureLimit, failIf, if_pos (by omega)]
    exact Answers.liftM.bind_error

theorem readResource_dictionary (hI : file.Invariant w.platform I)
    (hdecoded : file.RecordsDecodeTo w.platform decoded) (descriptor : RecordDescriptor)
    (hle : descriptor.start ≤ descriptor.stop) (hstop : descriptor.stop ≤ decoded.flatten.length)
    : Answers w I (MddFile.readResource ⟨file⟩ descriptor)
        ((file.dictionary blocks decoded).readResource descriptor.key
          (Search.slice decoded.flatten descriptor.start descriptor.stop)) := by
  have hread := readRecordSpan_dictionary hI hdecoded hle hstop
  unfold MddFile.readResource Dictionary.readResource
  have hbind := hread.bind (f := fun bytes =>
    (return { key := descriptor.key, bytes } : Exec MddResource)) fun _ _ => .pure
  rwa [bind_assoc] at hbind

theorem readEntry_dictionary (hI : file.Invariant w.platform I)
    (hdecoded : file.RecordsDecodeTo w.platform decoded) (descriptor : RecordDescriptor)
    (hle : descriptor.start ≤ descriptor.stop) (hstop : descriptor.stop ≤ decoded.flatten.length)
    : Answers w I (MdxFile.readEntry ⟨file⟩ descriptor)
        ((file.dictionary blocks decoded).readEntry w.platform descriptor.key
          (Search.slice decoded.flatten descriptor.start descriptor.stop)) := by
  have hlength := Search.length_slice (a := descriptor.start) hstop
  have hbound := file.layoutVerified.totalDecodedRecordLen_lt
  rw [← hdecoded.length_flatten] at hbound
  unfold MdxFile.readEntry reserveDecodedRecordText Dictionary.readEntry Dictionary.readText
  rw [checkedSub, if_pos hle, okOr_some, hlength]
  simp only [bind_assoc]
  apply Answers.liftM.bind_ok
  apply Answers.liftM_bind
  intro encoding hencoding
  rw [checkedUsize_of_lt (by omega)]
  apply Answers.liftM.bind_ok
  apply Answers.liftM_bind
  intro _ hlimit
  apply Answers.platform_bind hI.events
  apply Answers.liftM_bind
  intro decodedLen _
  apply Answers.liftM_bind
  intro _ _
  apply Answers.liftM_bind
  intro _ _
  apply Answers.reserve_bind hI.events
  apply (readRecordSpan_answers hI hdecoded hle hstop (ensureLimit_eq_ok.mp hlimit)).bind_ok
  apply Answers.platform_bind hI.events
  have hencoding : file.recordTextEncoding = .ok encoding := hencoding
  rw [hencoding]
  apply Answers.liftM.bind_ok
  apply Answers.liftM_bind
  intro text _
  exact .pure

theorem entryAt_dictionary (hI : file.Invariant w.platform I)
    (hblocks : file.DecodesTo w.platform blocks) (hdecoded : file.RecordsDecodeTo w.platform decoded)
    (ordinal : Nat)
    : Answers w I (MdxFile.entryAt ⟨file⟩ ordinal)
        ((file.dictionary blocks decoded).entryAt w.platform ordinal) := by
  rw [MdxFile.entryAt_eq]
  exact readAt_dictionary hI hblocks hdecoded (readEntry_dictionary hI hdecoded) ordinal

theorem resourceAt_dictionary (hI : file.Invariant w.platform I)
    (hblocks : file.DecodesTo w.platform blocks) (hdecoded : file.RecordsDecodeTo w.platform decoded)
    (ordinal : Nat)
    : Answers w I (MddFile.resourceAt ⟨file⟩ ordinal)
        ((file.dictionary blocks decoded).resourceAt ordinal) := by
  rw [MddFile.resourceAt_eq]
  exact readAt_dictionary hI hblocks hdecoded (readResource_dictionary hI hdecoded) ordinal

theorem copyResourceAt_dictionary (hI : file.Invariant w.platform I)
    (hblocks : file.DecodesTo w.platform blocks) (hdecoded : file.RecordsDecodeTo w.platform decoded)
    (ordinal : Nat) (destination : Bytes)
    : Answers w I (MddFile.copyResourceAt ⟨file⟩ ordinal destination)
        (.ok ((file.dictionary blocks decoded).copyResourceAt ordinal destination)) := by
  unfold MddFile.copyResourceAt MddFile.spanAt Dictionary.copyResourceAt
  rw [entries_dictionary, bind_assoc]
  apply (recordAtOrdinal_answers hI hblocks ordinal).bind_ok
  cases hdescriptor : (descriptorsOf file.layout.totalDecodedRecordLen blocks.flatten)[ordinal]? with
  | none => exact Answers.pure.bind_ok .pure
  | some descriptor =>
    obtain ⟨row, hrow, rfl⟩ := descriptorsOf_eq_some hdescriptor
    obtain ⟨hle, hstop⟩ := le_stopOf hblocks.startsFrom hrow
    have hstop' := hstop.trans_eq hdecoded.length_flatten.symm
    have hvalid : file.validateRecordSpan row.recordStart
        (stopOf file.layout.totalDecodedRecordLen blocks.flatten ordinal)
        = .ok (stopOf file.layout.totalDecodedRecordLen blocks.flatten ordinal
          - row.recordStart) := by
      rw [validateRecordSpan, failIf_of_not (by omega), failIf_of_not (by omega), checkedSub,
        if_pos hle]
      rfl
    dsimp only [MddResourceSpan.new]
    rw [hvalid, except_ok_bind, bind_assoc]
    apply Answers.liftM.bind_ok
    apply Answers.pure.bind_ok
    generalize stopOf file.layout.totalDecodedRecordLen blocks.flatten ordinal = stop at *
    have hcopy := @copyTo_answers w I decoded
      ⟨file, ⟨ordinal, row.key⟩, row.recordStart, stop, stop - row.recordStart⟩ hI hdecoded hle
      hstop' destination
    apply hcopy.bind_ok
    dsimp only [Option.map_some]
    rw [Search.length_slice hstop']
    exact .pure

theorem ordinalAt_locator {basis : LocatorBasis} {locator : KeyLocator} {start stop index : Nat}
    : (LocatedKeys.mk basis (.locator locator start stop)).ordinalAt index
        = if start + index < u64Bound ∧ start + index < stop then locator.order[start + index]?
          else none := by
  simp only [LocatedKeys.ordinalAt, checkedAdd, Option.bind_eq_bind]
  by_cases hlt : start + index < u64Bound
  . by_cases hstop : start + index < stop
    . rw [if_pos hlt, Option.bind_some, if_neg (by omega), if_pos ⟨hlt, hstop⟩]
    . rw [if_pos hlt, Option.bind_some, if_pos (by omega), if_neg fun h => hstop h.2]
  . rw [if_neg hlt, Option.bind_none, if_neg fun h => hlt h.1]

/-- The first match is the one that iterating over the matches yields first. -/
theorem head?_iter (keys : LocatedKeys) : keys.iter.head? = keys.ordinalAt 0 := by
  cases hfirst : keys.ordinalAt 0 with
  | some row =>
    have hlen : 0 < keys.len := by
      obtain ⟨basis, locator | ordinals⟩ := keys
      . rw [ordinalAt_locator, Option.ite_none_right_eq_some] at hfirst
        simp only [LocatedKeys.len]
        omega
      . exact (List.getElem?_eq_some_iff.mp hfirst).1
    rw [LocatedKeys.iter, ← Nat.succ_pred_eq_of_pos hlen, List.range_succ_eq_map,
      List.filterMap_cons_some hfirst]
    rfl
  | none =>
    rw [List.head?_eq_none_iff, LocatedKeys.iter, List.filterMap_eq_nil_iff]
    intro index _
    obtain ⟨basis, locator | ordinals⟩ := keys
    . rw [ordinalAt_locator, ite_eq_right_iff] at hfirst ⊢
      intro h
      have hend := List.getElem?_eq_none_iff.mp (hfirst ⟨by omega, by omega⟩)
      exact List.getElem?_eq_none (by omega)
    . have hend := List.getElem?_eq_none_iff.mp hfirst
      exact List.getElem?_eq_none (by omega)

theorem find_ne_nil {d : Dictionary} {query : Str} {basis : LocatorBasis} {ordinals : List Nat}
    (h : d.find p query = some (basis, ordinals))
    : ordinals ≠ [] := by
  unfold Dictionary.find at h
  split at h
  . next hne =>
    cases h
    exact hne
  . split at h
    . next hne =>
      cases h
      exact hne
    . contradiction

/-- Looking up a key is reading the first of what is found. -/
theorem lookup_dictionary {α : Type} {read : Nat → Exec (Option α)}
    {reads : Nat → Except Error (Option α)} (hI : file.Invariant w.platform I)
    (hblocks : file.DecodesTo w.platform blocks) {query : Str}
    (hfits : (file.dictionary blocks decoded).Searchable w.platform query)
    (hread : ∀ ordinal, Answers w I (read ordinal) (reads ordinal))
    : Answers w I
        (do
          let found ← file.locateKeys query
          match found with
          | none => return none
          | some found =>
            let first ← okOr (found.ordinalAt 0)
              (.panic "KeyMatches always contains at least one ordinal")
            read first)
        ((file.dictionary blocks decoded).lookup w.platform reads query) := by
  apply Ensures.bind (R := fun found => found.map LocatedKeys.view
    = (file.dictionary blocks decoded).find w.platform query)
  . rw [find_dictionary]
    apply (locateKeys_ensures hI query).mono
    . rintro found ⟨blocks', hblocks', hview⟩
      rw [hview, hblocks'.unique hblocks]
    . exact fun e he => .inl (not_lookupFails hblocks hfits he)
  intro found hview
  unfold Dictionary.lookup
  cases found with
  | none =>
    rw [← hview]
    exact Answers.pure
  | some keys =>
    have hfirst := head?_iter keys
    have hne := find_ne_nil hview.symm
    cases hiter : keys.iter with
    | nil => exact absurd hiter hne
    | cons first rest =>
      rw [hiter] at hfirst
      rw [← hview]
      dsimp only [Option.map_some, Option.bind_some, LocatedKeys.view]
      rw [← hfirst, hiter, List.head?_cons, okOr_some]
      exact Answers.liftM.bind_ok (hread first)

end MdictFile

end Mdict
