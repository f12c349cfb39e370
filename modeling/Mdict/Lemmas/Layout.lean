import Mdict.Format.Open
import Mdict.Lemmas.Descriptors

/-!
This module contains what opening a file establishes about its layout: the sections, the blocks and
what they decode to are tiled, and every block is within the limits.
-/

namespace Mdict

open Effect

/-! ## Blocks -/

/-- The compressed sizes of the blocks tile a section in order. -/
structure TilesSection (range : SectionRange) (compOffsets compSizes : List Nat) : Prop where
  offset : ∀ i offset, compOffsets[i]? = some offset →
    offset = range.offset + Search.start compSizes i
  sum : compSizes.sum = range.len

/-- Every block ends inside the section. -/
theorem TilesSection.stop_le {range : SectionRange} {compOffsets compSizes : List Nat}
    (h : TilesSection range compOffsets compSizes) {i offset size : Nat}
    (hoffset : compOffsets[i]? = some offset) (hsize : compSizes[i]? = some size)
    : offset + size ≤ range.offset + range.len := by
  obtain ⟨hlt, rfl⟩ := List.getElem?_eq_some_iff.mp hsize
  have hnext := Search.start_succ hlt
  have hsum := Search.start_le_sum compSizes (i + 1)
  rw [h.offset i offset hoffset, ← h.sum]
  omega

/-- The sizes that the limits allow for a block. -/
structure BlockWithin (limits : Limits) (compSize decompSize : Nat) : Prop where
  envelope : 8 ≤ compSize
  comp : compSize ≤ limits.compressedBlockBytes
  decomp : decompSize ≤ limits.decompressedBlockBytes

theorem validateKeyBlockSizesWith_eq_ok {offsetLen entryCount compSize decompSize : Nat}
    {encoding : TextEncoding} {limits : Limits} {u : Unit}
    (h : validateKeyBlockSizesWith offsetLen encoding limits entryCount compSize decompSize = .ok u)
    : 0 < entryCount ∧ BlockWithin limits compSize decompSize := by
  simp only [validateKeyBlockSizesWith, except_bind_eq_ok, failIf_eq_ok, ensureLimit_eq_ok] at h
  obtain ⟨⟨⟩, hentries, ⟨⟩, -, ⟨⟩, hcomp, ⟨⟩, hdecomp, ⟨⟩, henvelope, -⟩ := h
  exact ⟨by omega, by omega, hcomp, hdecomp⟩

theorem validateRecordBlockSizes_eq_ok {compSize decompSize : Nat} {limits : Limits} {u : Unit}
    (h : validateRecordBlockSizes compSize decompSize limits = .ok u)
    : BlockWithin limits compSize decompSize := by
  simp only [validateRecordBlockSizes, except_bind_eq_ok, failIf_eq_ok, ensureLimit_eq_ok] at h
  obtain ⟨⟨⟩, hcomp, ⟨⟩, hdecomp, henvelope⟩ := h
  exact ⟨by omega, hcomp, hdecomp⟩

/-- Each row of the keyword index becomes the block that follows the one before. -/
theorem parseKeyIndexRows_eq_ok {readRow : Cursor → Except Error (KeyIndexRow × Cursor)}
    {validate : (entryCount compSize decompSize : Nat) → Except Error Unit}
    {numBlocks compOffset entryStartIndex : Nat} {cursor cursor' : Cursor}
    {blocks : List KeyBlockDescriptor}
    (h : parseKeyIndexRows readRow validate numBlocks compOffset entryStartIndex cursor
      = .ok (blocks, cursor'))
    : (∀ i offset, (blocks.map (·.compOffset))[i]? = some offset →
        offset = compOffset + Search.start (blocks.map (·.compSize)) i)
      ∧ ∀ block ∈ blocks, validate block.entryCount block.compSize block.decompSize = .ok () := by
  induction numBlocks generalizing compOffset entryStartIndex cursor blocks with
  | zero =>
    simp only [parseKeyIndexRows, Except.ok.injEq, Prod.mk.injEq] at h
    obtain ⟨rfl, -⟩ := h
    simp
  | succ numBlocks ih =>
    simp only [parseKeyIndexRows, except_bind_eq_ok, addU64_eq_ok, except_pure_eq_ok,
      Prod.mk.injEq] at h
    obtain ⟨⟨row, cursor1⟩, -, ⟨⟩, hvalidate, _, ⟨rfl, -⟩, _, ⟨rfl, -⟩, ⟨rest, cursor2⟩, hrest, rfl,
      rfl⟩ := h
    obtain ⟨hoffsets, hvalid⟩ := ih hrest
    constructor
    . intro i offset hi
      cases i with
      | zero =>
        simp only [List.map_cons, List.getElem?_cons_zero, Option.some.injEq] at hi
        rw [Search.start_zero, ← hi, Nat.add_zero]
      | succ i =>
        rw [List.map_cons, List.getElem?_cons_succ] at hi
        rw [hoffsets i offset hi]
        simp only [Search.start, List.map_cons, List.take_succ_cons, List.sum_cons]
        omega
    . intro block hblock
      rw [List.mem_cons] at hblock
      rcases hblock with rfl | hblock
      . exact hvalidate
      . exact hvalid block hblock

theorem sumCompSizes_eq_ok {total sum : Nat} {blocks : List KeyBlockDescriptor}
    (h : sumCompSizes total blocks = .ok sum)
    : sum = total + (blocks.map (·.compSize)).sum := by
  induction blocks generalizing total with
  | nil =>
    simp only [sumCompSizes, Except.ok.injEq] at h
    simp [h]
  | cons block blocks ih =>
    simp only [sumCompSizes, except_bind_eq_ok, addU64_eq_ok] at h
    obtain ⟨_, ⟨rfl, -⟩, h⟩ := h
    rw [ih h, List.map_cons, List.sum_cons]
    omega

theorem parseKeywordIndexEntriesWith_eq_ok {minimumRowLen : Nat} {rowLenContext : String}
    {readRow : Cursor → Except Error (KeyIndexRow × Cursor)}
    {validate : (entryCount compSize decompSize : Nat) → Except Error Unit} {bytes : Bytes}
    {numBlocks keyBlocksOffset : Nat} {blocks : List KeyBlockDescriptor}
    (h : parseKeywordIndexEntriesWith minimumRowLen rowLenContext readRow validate bytes numBlocks
      keyBlocksOffset = .ok blocks)
    : (∀ i offset, (blocks.map (·.compOffset))[i]? = some offset →
        offset = keyBlocksOffset + Search.start (blocks.map (·.compSize)) i)
      ∧ ∀ block ∈ blocks, validate block.entryCount block.compSize block.decompSize = .ok () := by
  simp only [parseKeywordIndexEntriesWith, except_bind_eq_ok, except_pure_eq_ok] at h
  obtain ⟨_, -, _, -, ⟨⟩, -, ⟨blocks', cursor⟩, hrows, ⟨⟩, -, rfl⟩ := h
  exact parseKeyIndexRows_eq_ok hrows

/-! ## Sections -/

/-- What a parsed keyword section satisfies. -/
structure KeywordSection.WellFormed (keys : KeywordSection) (limits : Limits) : Prop where
  tiles : TilesSection keys.sections.blocks (keys.blocks.map (·.compOffset))
    (keys.blocks.map (·.compSize))
  sizes : ∀ block ∈ keys.blocks,
    0 < block.entryCount ∧ BlockWithin limits block.compSize block.decompSize

variable {source : FileSource} {header : Header} {encoding : TextEncoding} {offset : Nat}
variable {options : OpenOptions} {limits : Limits} {keys : KeywordSection}
variable {records : RecordSection} {w : World} {s s' : Session}

theorem V1.parseKeywordSection_eq_ok
    (h : V1.parseKeywordSection source header encoding offset options w s = (.ok keys, s'))
    : keys.WellFormed options.limits := by
  simp only [V1.parseKeywordSection, Prog.bind_eq_ok, liftM_eq_ok, failIf_eq_ok,
    Decidable.not_not] at h
  obtain ⟨_, _, -, _, _, -, _, _, -, _, _, -, h⟩ := h
  obtain ⟨_, _, -, _, _, -, _, _, -, _, _, -, h⟩ := h
  obtain ⟨_, _, -, _, _, -, _, _, -, _, _, -, _, _, -, _, _, -, _, _, -, h⟩ := h
  obtain ⟨_, _, -, _, _, -, _, _, -, _, _, -, _, _, -, _, _, -, _, _, -, h⟩ := h
  obtain ⟨blocks, _, ⟨hblocks, -⟩, _, _, -, _, _, -, h⟩ := h
  obtain ⟨total, _, ⟨htotal, -⟩, ⟨⟩, _, ⟨hsum, -⟩, _, _, -, h⟩ := h
  rw [Prog.pure_apply, Prod.mk.injEq, Except.ok.injEq] at h
  obtain ⟨rfl, -⟩ := h
  obtain ⟨hoffsets, hsizes⟩ := parseKeywordIndexEntriesWith_eq_ok hblocks
  have htotal := sumCompSizes_eq_ok htotal
  exact ⟨⟨hoffsets, by rw [← hsum, htotal, Nat.zero_add]⟩,
    fun block hblock => validateKeyBlockSizesWith_eq_ok (hsizes block hblock)⟩

theorem V2.parseKeywordSection_eq_ok
    (h : V2.parseKeywordSection source header encoding offset options w s = (.ok keys, s'))
    : keys.WellFormed options.limits := by
  simp only [V2.parseKeywordSection, Prog.bind_eq_ok, liftM_eq_ok, failIf_eq_ok,
    Decidable.not_not] at h
  obtain ⟨_, _, -, _, _, -, _, _, -, _, _, -, _, _, -, _, _, -, _, _, -, _, _, -, _, _, -, h⟩ := h
  obtain ⟨_, _, -, _, _, -, _, _, -, _, _, -, _, _, -, _, _, -, _, _, -, _, _, -, _, _, -, h⟩ := h
  obtain ⟨_, _, -, _, _, -, _, _, -, _, _, -, _, _, -, _, _, -, _, _, -, _, _, -, _, _, -, h⟩ := h
  obtain ⟨_, _, -, _, _, -, blocks, _, ⟨hblocks, -⟩, _, _, -, _, _, -, h⟩ := h
  obtain ⟨total, _, ⟨htotal, -⟩, ⟨⟩, _, ⟨hsum, -⟩, _, _, -, h⟩ := h
  rw [Prog.pure_apply, Prod.mk.injEq, Except.ok.injEq] at h
  obtain ⟨rfl, -⟩ := h
  simp only [V2.parseKeywordIndexEntries, except_bind_eq_ok] at hblocks
  obtain ⟨_, -, hblocks⟩ := hblocks
  obtain ⟨hoffsets, hsizes⟩ := parseKeywordIndexEntriesWith_eq_ok hblocks
  have htotal := sumCompSizes_eq_ok htotal
  exact ⟨⟨hoffsets, by rw [← hsum, htotal, Nat.zero_add]⟩,
    fun block hblock => validateKeyBlockSizesWith_eq_ok (hsizes block hblock)⟩

/-- Each row of the record index becomes the block that follows the one before. -/
theorem parseRecordIndex_eq_ok {readField : ReadField} {numBlocks : Nat}
    {state state' : RecordIndexState} {blocks : List RecordBlockDescriptor}
    (h : parseRecordIndex source readField limits numBlocks state = .ok (blocks, state'))
    : (∀ i offset, (blocks.map (·.compOffset))[i]? = some offset →
        offset = state.compOffset + Search.start (blocks.map (·.compSize)) i)
      ∧ (∀ block ∈ blocks, BlockWithin limits block.compSize block.decompSize)
      ∧ state'.totalComp = state.totalComp + (blocks.map (·.compSize)).sum := by
  induction numBlocks generalizing state blocks with
  | zero =>
    simp only [parseRecordIndex, Except.ok.injEq, Prod.mk.injEq] at h
    obtain ⟨rfl, rfl⟩ := h
    simp
  | succ numBlocks ih =>
    simp only [parseRecordIndex, except_bind_eq_ok, addU64_eq_ok, except_pure_eq_ok,
      Prod.mk.injEq] at h
    obtain ⟨⟨compSize, _⟩, -, ⟨decompSize, _⟩, -, ⟨⟩, hsizes, ⟨⟩, -, _, ⟨rfl, -⟩, _, -, _, ⟨rfl, -⟩,
      ⟨rest, _⟩, hrest, rfl, rfl⟩ := h
    obtain ⟨hoffsets, hwithin, htotal⟩ := ih hrest
    refine ⟨?_, ?_, ?_⟩
    . intro i offset hi
      cases i with
      | zero =>
        simp only [List.map_cons, List.getElem?_cons_zero, Option.some.injEq] at hi
        rw [Search.start_zero, ← hi, Nat.add_zero]
      | succ i =>
        rw [List.map_cons, List.getElem?_cons_succ] at hi
        rw [hoffsets i offset hi]
        simp only [Search.start, List.map_cons, List.take_succ_cons, List.sum_cons]
        omega
    . intro block hblock
      rw [List.mem_cons] at hblock
      rcases hblock with rfl | hblock
      . exact validateRecordBlockSizes_eq_ok hsizes
      . exact hwithin block hblock
    . rw [htotal, List.map_cons, List.sum_cons]
      dsimp only
      omega

/-- What a parsed record section satisfies. -/
structure RecordSection.WellFormed (records : RecordSection) (fileLen : Nat) (limits : Limits)
    : Prop where
  tiles : TilesSection records.sections.blocks (records.blocks.map (·.compOffset))
    (records.blocks.map (·.compSize))
  sizes : ∀ block ∈ records.blocks, BlockWithin limits block.compSize block.decompSize
  stop_le : records.sections.blocks.offset + records.sections.blocks.len ≤ fileLen
  stop_lt : records.sections.blocks.offset + records.sections.blocks.len < u64Bound

theorem ensureRange_eq_ok {len : Nat} {context : String} {u : Unit}
    (h : source.ensureRange offset len context = .ok u)
    : offset + len ≤ source.len ∧ offset + len < u64Bound := by
  simp only [FileSource.ensureRange, except_bind_eq_ok, okOr_eq_ok, checkedAdd_eq_some,
    failIf_eq_ok] at h
  obtain ⟨_, ⟨rfl, hlt⟩, hle⟩ := h
  exact ⟨by omega, hlt⟩

theorem parseRecordSectionWith_eq_ok {headerLen rowLen : Nat} {readField : ReadField}
    (h : parseRecordSectionWith headerLen rowLen readField source offset limits w s
      = (.ok records, s'))
    : records.WellFormed source.len limits := by
  simp only [parseRecordSectionWith, Prog.bind_eq_ok, liftM_eq_ok, failIf_eq_ok,
    Decidable.not_not] at h
  obtain ⟨_, _, -, _, _, -, _, _, -, _, _, -, _, _, -, _, _, -, _, _, -, h⟩ := h
  obtain ⟨_, _, -, _, _, -, _, _, -, ⟨⟩, _, ⟨hrange, -⟩, h⟩ := h
  obtain ⟨_, _, -, _, _, -, _, _, -, _, _, -, ⟨blocks, state⟩, _, ⟨hblocks, -⟩, h⟩ := h
  obtain ⟨⟨⟩, _, ⟨htotal, -⟩, _, _, -, _, _, -, _, _, -, h⟩ := h
  rw [Prog.pure_apply, Prod.mk.injEq, Except.ok.injEq] at h
  obtain ⟨rfl, -⟩ := h
  obtain ⟨hoffsets, hsizes, hsum⟩ := parseRecordIndex_eq_ok hblocks
  obtain ⟨hle, hlt⟩ := ensureRange_eq_ok hrange
  exact ⟨⟨hoffsets, by rw [← htotal, hsum, Nat.zero_add]⟩, hsizes, hle, hlt⟩

/-! ## The whole file -/

theorem parseHeader_eq_ok {kind : ContainerKind} {checksumPolicy : ChecksumPolicy}
    {headerSection : HeaderSection}
    (h : parseHeader source kind limits checksumPolicy w s = (.ok headerSection, s'))
    : headerSection.range.offset = 0 := by
  simp only [parseHeader, parseHeaderBytesWithLimits, buildHeaderSection, Prog.bind_eq_ok,
    liftM_eq_ok, except_bind_eq_ok, except_pure_eq_ok] at h
  obtain ⟨_, _, -, _, _, -, _, _, -, _, _, -, _, _, -, _, _, -, _, _, -, _, _, -, h⟩ := h
  obtain ⟨_, _, -, _, _, -, _, _, -, _, _, -, _, _, -, _, _, -, _, _, -, h⟩ := h
  obtain ⟨_, _, -, _, _, -, _, _, -, _, _, -, _, _, -, _, _, -, _, _, -, ⟨h, -⟩⟩ := h
  obtain ⟨⟨⟩, -, _, -, _, -, _, -, _, -, _, -, _, -, _, -, _, -, _, -, _, -, _, -, _, -, _, -, _, -, rfl⟩ := h
  rfl

/-- The sections lie one after the other from the start of the file. -/
structure SectionRanges.Contiguous (sections : SectionRanges) : Prop where
  start : sections.header.offset = 0
  adjacent : ∀ i a b, sections.ordered[i]? = some a → sections.ordered[i + 1]? = some b →
    b.2.offset = a.2.offset + a.2.len

theorem SectionRanges.verifyFrom_eq_ok {cursor : Nat} {expected : String}
    {ranges : List (String × SectionRange)} {u : Unit}
    (h : verifyFrom cursor expected ranges = .ok u)
    : (∀ a, ranges.head? = some a → a.2.offset = cursor)
        ∧ ∀ i a b, ranges[i]? = some a → ranges[i + 1]? = some b →
          b.2.offset = a.2.offset + a.2.len := by
  induction ranges generalizing cursor expected with
  | nil => simp
  | cons first rest ih =>
    obtain ⟨name, range⟩ := first
    simp only [verifyFrom, except_bind_eq_ok, failIf_eq_ok, SectionRange.stop, okOr_eq_ok,
      checkedAdd_eq_some, Decidable.not_not] at h
    obtain ⟨⟨⟩, hoffset, _, ⟨rfl, -⟩, h⟩ := h
    obtain ⟨hhead, hadjacent⟩ := ih h
    constructor
    . intro a ha
      rw [List.head?_cons, Option.some.injEq] at ha
      subst ha
      exact hoffset
    . intro i a b ha hb
      cases i with
      | zero =>
        rw [List.getElem?_cons_zero, Option.some.injEq] at ha
        subst ha
        rw [List.getElem?_cons_succ, ← List.head?_eq_getElem?] at hb
        exact hhead b hb
      | succ i => exact hadjacent i a b ha hb

/-- What opening establishes about a layout, over what its own verification checks. -/
structure ValidatedLayout.WellFormed (layout : ValidatedLayout) (fileLen : Nat) (limits : Limits)
    : Prop where
  contiguous : layout.sections.Contiguous
  stop_le : layout.sections.recordBlocks.offset + layout.sections.recordBlocks.len ≤ fileLen
  stop_lt : layout.sections.recordBlocks.offset + layout.sections.recordBlocks.len < u64Bound
  keyBlocks : TilesSection layout.sections.keywordBlocks (layout.keyBlocks.map (·.compOffset))
    (layout.keyBlocks.map (·.compSize))
  keyBlockSizes : ∀ block ∈ layout.keyBlocks,
    0 < block.entryCount ∧ BlockWithin limits block.compSize block.decompSize
  recordBlocks : TilesSection layout.sections.recordBlocks
    (layout.recordBlocks.map (·.compOffset)) (layout.recordBlocks.map (·.compSize))
  recordBlockSizes : ∀ block ∈ layout.recordBlocks,
    BlockWithin limits block.compSize block.decompSize

/-- No section ends after the last one. -/
theorem ValidatedLayout.WellFormed.stop_of_mem {layout : ValidatedLayout} {fileLen : Nat}
    (h : layout.WellFormed fileLen limits) {range : String × SectionRange}
    (hrange : range ∈ layout.sections.ordered)
    : range.2.offset + range.2.len
        ≤ layout.sections.recordBlocks.offset + layout.sections.recordBlocks.len := by
  have h0 := h.contiguous.adjacent 0 _ _ rfl rfl
  have h1 := h.contiguous.adjacent 1 _ _ rfl rfl
  have h2 := h.contiguous.adjacent 2 _ _ rfl rfl
  have h3 := h.contiguous.adjacent 3 _ _ rfl rfl
  have h4 := h.contiguous.adjacent 4 _ _ rfl rfl
  have h5 := h.contiguous.adjacent 5 _ _ rfl rfl
  dsimp only at h0 h1 h2 h3 h4 h5
  simp only [SectionRanges.ordered, List.mem_cons, List.not_mem_nil, or_false] at hrange
  rcases hrange with rfl | rfl | rfl | rfl | rfl | rfl | rfl <;> dsimp only <;> omega

theorem ValidatedLayout.verified_eq_ok {layout : ValidatedLayout} {checked : VerifiedLayout}
    (h : layout.verified = .ok checked)
    : checked.val = layout := by
  unfold ValidatedLayout.verified at h
  split at h
  . injection h with h
    rw [← h]
  . contradiction

/-- The sections of a file as its parsers leave them. -/
theorem WireVersion.parseLayout_eq_ok {version : WireVersion} {headerSection : HeaderSection}
    {kind : ContainerKind} {layout : ValidatedLayout}
    (h : version.parseLayout source headerSection kind options w s = (.ok layout, s'))
    : ∃ (keys : KeywordSection) (records : RecordSection),
        keys.WellFormed options.limits ∧ records.WellFormed source.len options.limits
          ∧ layout.sections.header = headerSection.range
          ∧ layout.sections.keywordBlocks = keys.sections.blocks ∧ layout.keyBlocks = keys.blocks
          ∧ layout.sections.recordBlocks = records.sections.blocks
          ∧ layout.recordBlocks = records.blocks := by
  cases version with
  | v1 =>
    simp only [parseLayout, V1.parseLayout, parseLayoutWith, Prog.bind_eq_ok, Prog.pure_apply,
      Prod.mk.injEq, Except.ok.injEq] at h
    obtain ⟨_, _, -, _, _, -, _, _, -, keys, _, hkeys, _, _, -, h⟩ := h
    obtain ⟨records, _, hrecords, _, _, -, _, _, -, rfl, -⟩ := h
    exact ⟨keys, records, V1.parseKeywordSection_eq_ok hkeys, parseRecordSectionWith_eq_ok hrecords,
      rfl, rfl, rfl, rfl, rfl⟩
  | v2 =>
    simp only [parseLayout, V2.parseLayout, parseLayoutWith, Prog.bind_eq_ok, Prog.pure_apply,
      Prod.mk.injEq, Except.ok.injEq] at h
    obtain ⟨_, _, -, _, _, -, _, _, -, keys, _, hkeys, _, _, -, h⟩ := h
    obtain ⟨records, _, hrecords, _, _, -, _, _, -, rfl, -⟩ := h
    exact ⟨keys, records, V2.parseKeywordSection_eq_ok hkeys, parseRecordSectionWith_eq_ok hrecords,
      rfl, rfl, rfl, rfl, rfl⟩

theorem openLayout_wellFormed {kind : ContainerKind} {layout : VerifiedLayout}
    (h : openLayout source kind options w s = (.ok layout, s'))
    : layout.val.WellFormed source.len options.limits := by
  simp only [openLayout, Prog.bind_eq_ok, liftM_eq_ok] at h
  obtain ⟨headerSection, _, hheader, _, _, -, version, _, -, _, _, -, ⟨⟩, _, -, h⟩ := h
  obtain ⟨parsed, _, hparsed, hverified, -⟩ := h
  obtain ⟨keys, records, hkeys, hrecords, hheaderRange, hkeyRange, hkeyBlocks, hrecordRange,
    hrecordBlocks⟩ := WireVersion.parseLayout_eq_ok hparsed
  obtain rfl := ValidatedLayout.verified_eq_ok hverified
  have hcontiguous := (ValidatedLayout.verify_eq_ok layout.property).contiguous
  have hstart := parseHeader_eq_ok hheader
  refine ⟨⟨?_, (SectionRanges.verifyFrom_eq_ok hcontiguous).2⟩, ?_, ?_, ?_, ?_, ?_, ?_⟩
  . rw [hheaderRange, hstart]
  . rw [hrecordRange]
    exact hrecords.stop_le
  . rw [hrecordRange]
    exact hrecords.stop_lt
  . rw [hkeyRange, hkeyBlocks]
    exact hkeys.tiles
  . rw [hkeyBlocks]
    exact hkeys.sizes
  . rw [hrecordRange, hrecordBlocks]
    exact hrecords.tiles
  . rw [hrecordBlocks]
    exact hrecords.sizes

namespace MdictFile

variable {file : MdictFile}

/-- The dictionary that opening these bytes left. -/
def OpenedFrom (file : MdictFile) (bytes : Bytes) (options : OpenOptions) : Prop :=
  ∃ kind w s s', MdictFile.open bytes kind options w s = (.ok file, s')

theorem OpenedFrom.wellFormed {bytes : Bytes} (h : file.OpenedFrom bytes options)
    : file.layout.WellFormed bytes.length options.limits := by
  obtain ⟨kind, w, s, s', h⟩ := h
  simp only [MdictFile.open, FileSource.open, Prog.bind_eq_ok, liftM_eq_ok, except_bind_eq_ok,
    except_pure_eq_ok, Prog.pure_apply, Prod.mk.injEq, Except.ok.injEq] at h
  obtain ⟨source, _, ⟨⟨⟨⟩, -, rfl⟩, -⟩, layout, _, hlayout, rfl, -⟩ := h
  exact openLayout_wellFormed hlayout

end MdictFile

end Mdict
