import Mdict.Lemmas.Persistent.Format
import Mdict.Lemmas.Persistent.Rows

/-!
This module contains what is known of a key index that was opened, whatever bytes it has.
-/

namespace Mdict

open Effect Persistent

/-- What the opening of an index has found out. -/
structure PersistentKeyIndex.Opened (index : PersistentKeyIndex) (bytes : Bytes)
    (options : KeyIndexOptions)
    : Prop where
  source : index.source.bytes = bytes
  checksumPolicy : index.checksumPolicy = options.checksumPolicy
  header : Persistent.parseHeader (bytes.take headerBytes) bytes.length options = .ok index.header
  layout : validateSectionLayout index.source index.header = .ok ()

variable {w : World} {I : Session → Prop}

theorem Persistent.readHeaderLen_ensures (hI : LogInvariant I) (source : IndexSource)
    : Ensures w I (readHeaderLen source) (fun _ => True) (fun _ => True) := by
  unfold readHeaderLen
  apply ensures_failIf_bind (fun _ => trivial)
  intro _
  apply ensures_reserve_bind hI (fun _ _ => trivial)
  apply Ensures.bind ((IndexSource.readExact_ensures hI _ _).mono (fun _ h => h) fun _ _ => trivial)
  intro start _
  apply ensures_failIf_bind (fun _ => trivial)
  intro _
  apply Ensures.liftM_bind (fun _ _ => trivial)
  intro _ _
  apply ensures_failIf_bind (fun _ => trivial)
  intro _
  apply Ensures.liftM_bind (fun _ _ => trivial)
  intro _ _
  apply ensures_failIf_bind (fun _ => trivial)
  intro _
  exact .liftM (fun _ _ => trivial) fun _ _ => trivial

theorem Persistent.readIndexHeader_ensures (hI : LogInvariant I) (source : IndexSource)
    (options : KeyIndexOptions) (checksumPolicy : ChecksumPolicy)
    : Ensures w I (readIndexHeader source options checksumPolicy)
        (fun header =>
          Persistent.parseHeader (source.bytes.take headerBytes) source.len options = .ok header)
        (fun _ => True) := by
  unfold readIndexHeader
  apply Ensures.bind (readHeaderLen_ensures hI source)
  intro headerLen _
  apply ensures_checkedUsize_bind (fun _ _ => trivial)
  intro _
  apply ensures_failIf_bind (fun _ => trivial)
  intro _
  apply ensures_failIf_bind (fun _ => trivial)
  intro hlen
  simp only [ne_eq, not_or, not_not] at hlen
  obtain ⟨rfl, -⟩ := hlen
  apply ensures_reserve_bind hI (fun _ _ => trivial)
  apply Ensures.bind ((IndexSource.readExact_ensures hI _ _).mono (fun _ h => h) fun _ _ => trivial)
  rintro _ ⟨rfl, -⟩
  rw [Search.slice, List.drop_zero, Nat.zero_add, Nat.sub_zero]
  apply Ensures.liftM_bind (fun _ _ => trivial)
  intro _ _
  apply ensures_failIf_bind (fun _ => trivial)
  intro _
  exact .liftM (fun _ h => h) fun _ _ => trivial

namespace PersistentKeyIndex

variable {file : MdictFile}

/-- Opening an index leaves the caches of the dictionary alone and starts with empty ones. -/
theorem openFile_triple (hI : LogInvariant I) (bytes : Bytes) (expected : KeyIndexSourceIdentity)
    (options : KeyIndexOptions)
    : Triple w I (openFile bytes file expected options)
        (fun index s => index.Opened bytes options ∧ index.header.sourceIdentity = expected
          ∧ ∃ s', I s' ∧ s = { s' with chunkCache := fun _ => .new, checksumCache := .new })
        (fun _ => I) := by
  have hlift {α β : Type} {x : Except Error α} {f : α → Exec β} {S : β → Session → Prop}
      (hf : ∀ a, x = .ok a → Triple w I (f a) S fun _ => I)
      : Triple w I (liftM x >>= f) S fun _ => I :=
    Triple.ensures_bind (.liftM (fun _ h => h) fun _ _ => trivial) (fun _ _ h _ => h) hf
  unfold openFile
  apply hlift
  intro _ _
  apply Triple.ensures_bind (Yields.log.ensures rfl hI) (fun _ _ h _ => h)
  intro _ _
  apply Triple.ensures_bind (Yields.io.ensures rfl hI) (fun _ _ h _ => h)
  intro _ _
  dsimp only
  apply hlift
  intro _ _
  apply Triple.ensures_bind (readIndexHeader_ensures hI _ _ _) (fun _ _ h _ => h)
  intro header hheader
  apply hlift
  intro _ hidentity
  rw [failIf_eq_ok, ne_eq, not_not] at hidentity
  apply Triple.ensures_bind (MdictFile.validateDictionaryIdentity_ensures hI _) (fun _ _ h _ => h)
  intro _ _
  apply hlift
  intro _ hlayout
  apply hlift
  intro _ _
  apply Triple.ensures_bind (Yields.reserve.ensures rfl hI) (fun _ _ h _ => h)
  intro _ _ s hs
  exact ⟨⟨rfl, rfl, hheader, hlayout⟩, hidentity, s, hs, rfl⟩

theorem openFile_ok (hI : LogInvariant I) {bytes : Bytes} {expected : KeyIndexSourceIdentity}
    {options : KeyIndexOptions} {index : PersistentKeyIndex} {s s' : Session} (hs : I s)
    (run : openFile bytes file expected options w s = (.ok index, s'))
    : index.Opened bytes options ∧ index.header.sourceIdentity = expected
        ∧ ∃ s1, I s1 ∧ s' = { s1 with chunkCache := fun _ => .new, checksumCache := .new } := by
  have h := @openFile_triple w _ file hI bytes expected options s hs
  rwa [run] at h

/-- An open index reads rows as long as the decoded blocks of the dictionary may be. -/
theorem openFile_maxRowBytes {bytes : Bytes} {expected : KeyIndexSourceIdentity}
    {options : KeyIndexOptions} {index : PersistentKeyIndex} {s s' : Session}
    (run : openFile bytes file expected options w s = (.ok index, s'))
    : index.maxRowBytes = file.limits.decompressedBlockBytes := by
  simp only [openFile, Prog.bind_eq_ok] at run
  obtain ⟨_, _, -, _, _, -, _, _, -, _, _, -, _, _, -, _, _, -, _, _, -, _, _, -, _, _, -, _, _, -,
    _, _, -, run⟩ := run
  cases run
  rfl

theorem openFile_error (hI : LogInvariant I) {bytes : Bytes} {expected : KeyIndexSourceIdentity}
    {options : KeyIndexOptions} {e : Error} {s s' : Session} (hs : I s)
    (run : openFile bytes file expected options w s = (.error e, s'))
    : I s' := by
  have h := @openFile_triple w _ file hI bytes expected options s hs
  rwa [run] at h

/-- What the parser of the header has checked. -/
structure Parsed (bytes : Bytes) (actualLen : Nat) (header : IndexHeader) : Prop where
  headerLen : header.headerLen = bytes.length
  totalLen : header.totalLen = actualLen
  chunkBytes_pos : 0 < header.chunkBytes
  checksums : checkChecksumRanges header.chunkBytes 0 (SectionKind.all.map header.sections)
    = .ok header.checksumCount
  lengths : checkSectionLengths header.sourceIdentity.keyCount header.normalizedTextLen
    header.sections = .ok ()

/-- An index has no more rows than there are addresses. -/
theorem Parsed.keyCount_le {bytes : Bytes} {actualLen : Nat} {header : IndexHeader}
    (h : Parsed bytes actualLen header)
    : header.sourceIdentity.keyCount ≤ u64Max := by
  have hlengths := h.lengths
  simp only [checkSectionLengths, except_bind_eq_ok, okOr_eq_ok, checkedMul_eq_some] at hlengths
  obtain ⟨-, -, rowArrayLen, ⟨rfl, hlt⟩, -⟩ := hlengths
  have : u64Max + 1 = u64Bound := by decide
  omega

theorem parsed_of_parseHeader {bytes : Bytes} {actualLen : Nat} {options : KeyIndexOptions}
    {header : IndexHeader} (h : Persistent.parseHeader bytes actualLen options = .ok header)
    : Parsed bytes actualLen header := by
  simp only [Persistent.parseHeader, except_bind_eq_ok] at h
  obtain ⟨_, -, ⟨headerLen, _⟩, -, _, hheaderLen, ⟨totalLen, _⟩, -, _, htotalLen, _, -, _, -,
    ⟨chunkBytes, _⟩, hchunkBytes, ⟨_, _⟩, -, _, -, ⟨identity, _⟩, -, ⟨textLen, _⟩, -,
    ⟨sections, _⟩, -, checksumCount, hchecksums, _, -, _, -, _, -, _, -, ⟨⟩, hlengths, h⟩ := h
  rw [except_pure_eq_ok] at h
  subst h
  simp only [failIf_eq_ok, ne_eq, not_not] at hheaderLen htotalLen
  refine ⟨hheaderLen, htotalLen, ?_, hchecksums, hlengths⟩
  simp only [HeaderCursor.readChunkBytes, except_bind_eq_ok, failIf_eq_ok, except_pure_eq_ok,
    not_or] at hchunkBytes
  obtain ⟨⟨value, _⟩, -, _, ⟨hmin, -⟩, _, -, heq⟩ := hchunkBytes
  rw [Prod.mk.injEq] at heq
  rw [← heq.1]
  exact Nat.lt_of_lt_of_le (by decide) (Nat.le_of_not_lt hmin)

/-! ## The layout -/

/-- What a range of checksums is checked for. -/
theorem checkChecksumRanges_ok {chunkBytes start stop : Nat} {sections : List SectionDescriptor}
    (h : checkChecksumRanges chunkBytes start sections = .ok stop)
    : start ≤ stop ∧ ∀ descriptor ∈ sections,
        chunkCount descriptor.len chunkBytes = .ok descriptor.checksumCount
          ∧ descriptor.checksumStart + descriptor.checksumCount ≤ stop := by
  induction sections generalizing start with
  | nil =>
    simp only [checkChecksumRanges, Except.ok.injEq] at h
    exact ⟨by omega, by simp⟩
  | cons descriptor sections ih =>
    simp only [checkChecksumRanges, except_bind_eq_ok, failIf_eq_ok, okOr_eq_ok,
      checkedAdd_eq_some, ne_eq, not_not] at h
    obtain ⟨_, hstart, count, hcount, _, heq, _, ⟨rfl, -⟩, hrest⟩ := h
    obtain ⟨hle, hsections⟩ := ih hrest
    refine ⟨by omega, ?_⟩
    rw [List.forall_mem_cons]
    exact ⟨⟨by rw [heq]; exact hcount, by omega⟩, hsections⟩

/-- What the offsets of sections are checked for. -/
theorem checkSectionOffsets_ok {sourceLen cursor stop : Nat} {sections : List SectionDescriptor}
    (h : checkSectionOffsets sourceLen cursor sections = .ok stop) (hcursor : cursor < u64Bound)
    : (cursor ≤ stop ∧ stop < u64Bound)
        ∧ ∀ descriptor ∈ sections, descriptor.offset + descriptor.len ≤ sourceLen := by
  induction sections generalizing cursor with
  | nil =>
    simp only [checkSectionOffsets, Except.ok.injEq] at h
    exact ⟨by omega, by simp⟩
  | cons descriptor sections ih =>
    simp only [checkSectionOffsets, except_bind_eq_ok, failIf_eq_ok, okOr_eq_ok, align8_eq_ok,
      checkedAdd_eq_some, ne_eq, not_or, not_not] at h
    obtain ⟨_, ⟨rfl, -⟩, _, ⟨hoffset, -⟩, _, ⟨rfl, hlt⟩, _, hle, hrest⟩ := h
    obtain ⟨hstop, hsections⟩ := ih hrest hlt
    refine ⟨by omega, ?_⟩
    rw [List.forall_mem_cons]
    exact ⟨by omega, hsections⟩

theorem mem_all (kind : SectionKind) : kind ∈ SectionKind.all := by
  cases kind <;> decide

variable {index : PersistentKeyIndex} {bytes : Bytes} {options : KeyIndexOptions}

/-- The layout of an index that was opened has been checked. -/
theorem Opened.formed (h : index.Opened bytes options) : index.Formed := by
  have hparsed := parsed_of_parseHeader h.header
  obtain ⟨-, hchecksums⟩ := checkChecksumRanges_ok hparsed.checksums
  have hlayout := h.layout
  simp only [validateSectionLayout, except_bind_eq_ok, okOr_eq_ok, checkedMul_eq_some,
    checkedAdd_eq_some] at hlayout
  obtain ⟨_, ⟨rfl, -⟩, _, ⟨rfl, htable⟩, hlayout⟩ := hlayout
  -- The sections start at the end of the table or at the next multiple of eight.
  have hstart : ∃ cursor, (index.header.headerLen + index.header.checksumCount * 4 ≤ cursor
        ∧ cursor < u64Bound)
      ∧ checkSectionOffsets index.source.len cursor (SectionKind.all.map index.header.sections)
        = .ok index.header.totalLen := by
    split at hlayout
    . simp only [except_bind_eq_ok, failIf_eq_ok, align8_eq_ok, ne_eq, not_not] at hlayout
      obtain ⟨_, ⟨rfl, hlt⟩, _, hoffsets, rfl⟩ := hlayout
      exact ⟨_, by omega, hoffsets⟩
    . simp only [except_bind_eq_ok, failIf_eq_ok, except_pure_eq_ok, ne_eq, not_not] at hlayout
      obtain ⟨_, rfl, _, hoffsets, rfl⟩ := hlayout
      exact ⟨_, by omega, hoffsets⟩
  obtain ⟨cursor, hcursor, hoffsets⟩ := hstart
  obtain ⟨⟨hle, hlt⟩, hsections⟩ := checkSectionOffsets_ok hoffsets hcursor.2
  have htotal : index.header.totalLen = index.source.len := by
    rw [hparsed.totalLen, IndexSource.len, h.source]
  have hmem (kind : SectionKind)
      : index.header.sections kind ∈ SectionKind.all.map index.header.sections :=
    List.mem_map_of_mem (mem_all kind)
  refine ⟨hparsed.chunkBytes_pos, by omega, by omega, fun kind => hsections _ (hmem kind),
    fun kind => (hchecksums _ (hmem kind)).2, ?_⟩
  intro kind chunk hchunk
  obtain ⟨hpos, hcount, -⟩ := chunkCount_eq_ok.mp (hchecksums _ (hmem kind)).1
  rw [hcount, Nat.lt_div_iff_mul_lt hpos]
  omega

/-- The sections of an index that was opened have entries for all rows. -/
theorem Opened.complete (h : index.Opened bytes options) : index.Complete := by
  have hlengths := (parsed_of_parseHeader h.header).lengths
  simp only [checkSectionLengths, except_bind_eq_ok, okOr_eq_ok, checkedMul_eq_some, failIf_eq_ok,
    Option.bind_eq_some_iff, checkedAdd_eq_some, ne_eq, not_or, not_not] at hlengths
  obtain ⟨_, ⟨_, ⟨rfl, -⟩, rfl, -⟩, _, ⟨rfl, -⟩, -, hbounds, hraw, horder⟩ := hlengths
  refine ⟨?_, ?_, ?_⟩ <;> rw [len] <;> omega

end PersistentKeyIndex

end Mdict
