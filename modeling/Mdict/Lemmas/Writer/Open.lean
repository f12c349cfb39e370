import Mdict.Lemmas.Writer.Keyword

/-!
This module contains that a written file is opened to the layout it was written with.
-/

namespace Mdict

open Effect Unicode

namespace Volume

variable {volume : Volume} {limits : Limits} {p : Platform}

/-! ## The record section -/

theorem length_recordHeader (volume : Volume)
    : volume.recordHeader.length = 4 * volume.version.width := by
  simp only [recordHeader, List.length_append, Bytes.length_ofBE]
  omega

theorem length_recordIndex (volume : Volume)
    : volume.recordIndex.length = volume.recordBlocks.length * (2 * volume.version.width) := by
  unfold recordIndex
  induction volume.recordBlocks with
  | nil => rw [List.flatMap_nil, List.length_nil, List.length_nil, Nat.zero_mul]
  | cons block blocks ih =>
    rw [List.flatMap_cons, List.length_append, List.length_append, Bytes.length_ofBE,
      Bytes.length_ofBE, ih, List.length_cons, Nat.add_mul]
    omega

/-- The sizes of a record block in its envelope and by itself. -/
def recordSizes (volume : Volume) : List (Nat × Nat) :=
  volume.recordBlocks.map fun block => ((envelope block).length, block.length)

theorem sum_recordSizes_comp (volume : Volume)
    : (volume.recordSizes.map (·.1)).sum = volume.recordBlockBytes.length := by
  rw [recordSizes, recordBlockBytes, List.length_flatten, List.map_map, List.map_map]
  rfl

theorem sum_recordSizes_decomp (volume : Volume)
    : (volume.recordSizes.map (·.2)).sum = volume.recordBlocks.flatten.length := by
  rw [recordSizes, List.length_flatten, List.map_map]
  rfl

theorem length_record_le {block : Bytes} (h : block ∈ volume.recordBlocks)
    : (envelope block).length ≤ volume.recordBlockBytes.length :=
  (List.sublist_flatten_of_mem (List.mem_map_of_mem h)).length_le

theorem length_recordBlocks_le (volume : Volume)
    : volume.recordBlocks.flatten.length ≤ volume.recordBlockBytes.length := by
  unfold recordBlockBytes
  induction volume.recordBlocks with
  | nil => exact Nat.le_refl _
  | cons block blocks ih =>
    rw [List.map_cons, List.flatten_cons, List.flatten_cons, List.length_append,
      List.length_append, length_envelope]
    omega

theorem Fits.validateRecordBlockSizes (hfits : volume.Fits limits) {size : Nat × Nat}
    (h : size ∈ volume.recordSizes)
    : validateRecordBlockSizes size.1 size.2 limits = .ok () := by
  obtain ⟨block, hblock, rfl⟩ := List.mem_map.mp h
  obtain ⟨hcomp, hdecomp⟩ := hfits.payloads block (List.mem_append_right _ hblock)
  have hlength := length_envelope block
  unfold Mdict.validateRecordBlockSizes
  dsimp only
  rw [ensureLimit_of_le (by omega), except_ok_bind, ensureLimit_of_le hdecomp, except_ok_bind,
    failIf_of_not (by omega)]

/-- The record section is parsed to the blocks that were written. -/
theorem Fits.parseRecordSection (hfits : volume.Fits limits) {readField : ReadField}
    (hread : ∀ v context, v < 256 ^ volume.version.width →
      Cursor.Restores (readField · context) (Bytes.ofBE volume.version.width v) v) (p : Platform)
    : ∃ retainedBytes, Yields p
        (parseRecordSectionWith (4 * volume.version.width) (2 * volume.version.width) readField
          volume.source (volume.offset 4) limits)
        (.ok (volume.recordSection retainedBytes)) := by
  have hwidth : 4 ≤ volume.version.width := by
    cases volume.version <;> decide
  have hlen := hfits.lt
  have hbound := hfits.length
  have hindexLt := hfits.lt_width volume.recordIndex (by simp)
  have hblocksLt := hfits.lt_width volume.recordBlockBytes (by simp)
  have hentriesLt := Nat.lt_of_le_of_lt volume.length_entries_le
    (hfits.lt_width volume.keyBlockBytes (by simp))
  have hindexLen := volume.length_recordIndex
  have hcount : volume.recordBlocks.length * 8 ≤ volume.recordIndex.length := by
    rw [hindexLen]
    exact Nat.mul_le_mul_left _ (by omega)
  have hheaderLe : volume.recordHeader.length ≤ volume.bytes.length :=
    length_le_of_mem (by simp [sections])
  have hindexLe : volume.recordIndex.length ≤ volume.bytes.length :=
    length_le_of_mem (by simp [sections])
  have h₅ : volume.offset 5 = volume.offset 4 + volume.recordHeader.length := offset_succ rfl
  have h₆ : volume.offset 6 = volume.offset 5 + volume.recordIndex.length := offset_succ rfl
  have hstop : volume.offset 6 + volume.recordBlockBytes.length ≤ volume.source.len :=
    section_le rfl
  have hheaderRead :=
    readSection_yields (p := p) (i := 4) hfits rfl "record section header"
  have hindexRead := readSection_yields (p := p) (i := 5) hfits rfl "record block index"
  rw [volume.length_recordHeader] at hheaderRead h₅
  have hheader : volume.recordHeader = Bytes.ofBE volume.version.width volume.recordBlocks.length
      ++ (Bytes.ofBE volume.version.width volume.entries.length
      ++ (Bytes.ofBE volume.version.width volume.recordIndex.length
      ++ (Bytes.ofBE volume.version.width volume.recordBlockBytes.length ++ []))) := by
    simp only [recordHeader, List.append_assoc, List.append_nil]
  have hat := Cursor.at_new_of_eq (by omega) hheader
  obtain ⟨c₁, hnumBlocks, hat⟩ := hread _ "record num_blocks" (by omega) _ _ hat
  obtain ⟨c₂, hnumEntries, hat⟩ := hread _ "record num_entries" hentriesLt _ _ hat
  obtain ⟨c₃, hreadIndexLen, hat⟩ := hread _ "record index length" hindexLt _ _ hat
  obtain ⟨c₄, hblocksLen, -⟩ := hread _ "record blocks length" hblocksLt _ _ hat
  dsimp only at hnumBlocks hnumEntries hreadIndexLen hblocksLen
  have hmetadata : volume.recordBlocks.length * sizeOfRecordBlockDescriptor < u64Bound := by
    unfold sizeOfRecordBlockDescriptor
    omega
  have hvalidate : validateRecordHeaderWith (2 * volume.version.width) volume.recordBlocks.length
      volume.recordIndex.length limits
      = .ok (volume.recordBlocks.length, volume.recordIndex.length) := by
    unfold validateRecordHeaderWith
    rw [mulU64_of_lt (by omega), except_ok_bind, failIf_of_not (not_not_intro hindexLen),
      except_ok_bind, ensureLimit_of_le hfits.recordIndex, except_ok_bind,
      checkedUsize_of_lt (by omega), except_ok_bind, checkedUsize_of_lt (by omega), except_ok_bind,
      checkedMul_of_lt hmetadata, okOr_some, except_ok_bind,
      ensureLimit_of_le hfits.recordMetadata]
    rfl
  have hsizes : volume.recordIndex = volume.recordSizes.flatMap fun size =>
      Bytes.ofBE volume.version.width size.1 ++ Bytes.ofBE volume.version.width size.2 := by
    rw [Volume.recordIndex, recordSizes, List.flatMap_map]
  have hcomp := volume.sum_recordSizes_comp
  have hdecomp := volume.sum_recordSizes_decomp
  have htotal := volume.length_recordBlocks_le
  obtain ⟨cursor, hparse, hempty⟩ := parseRecordIndex_restores
    { compOffset := volume.offset 6, decompOffset := 0, totalComp := 0
      cursor := .new volume.recordIndex }
    (by
      intro size hsize context
      obtain ⟨block, hblock, rfl⟩ := List.mem_map.mp hsize
      have hle := length_record_le hblock
      have hlength := length_envelope block
      exact ⟨hread _ context (by dsimp only; omega), hread _ context (by dsimp only; omega)⟩)
    (fun size hsize => hfits.validateRecordBlockSizes hsize)
    (by dsimp only; omega) hlen (Nat.zero_le _) (by dsimp only; omega)
    (Cursor.at_new_of_eq (by omega) hsizes)
  rw [hcomp, hdecomp, recordSizes, List.length_map] at hparse
  dsimp only at hparse
  rw [Nat.zero_add, Nat.zero_add] at hparse
  unfold parseRecordSectionWith
  refine ⟨volume.recordBlocks.length * sizeOfRecordBlockDescriptor, .reserve_bind <|
    hheaderRead.bind_ok <| .ok_bind hnumBlocks <| .ok_bind hnumEntries <| .ok_bind hreadIndexLen <|
    .ok_bind hblocksLen <| .ok_bind hvalidate <| .ok_bind (h₅ ▸ addU64_of_lt (by omega)) <|
    .ok_bind (h₆ ▸ addU64_of_lt (by omega)) <| .ok_bind (ensureSection hfits rfl _) <|
    .ok_bind (ensureSection hfits rfl _) <| .reserve_bind <|
    .ok_bind (okOr_eq_ok.mpr (checkedMul_of_lt hmetadata)) <| .reserve_bind <|
    hindexRead.bind_ok <| .ok_bind hparse <| .ok_bind (failIf_of_not (not_not_intro rfl)) <|
    .ok_bind (failIf_of_not (not_not_intro hempty.isEmpty)) <|
    .ok_bind (addU64_of_lt (by omega)) <| .ok_bind (failIf_of_not (not_not_intro rfl)) ?_⟩
  rw [recordSection, length_recordHeader]
  exact .pure

/-! ## The header -/

variable {kind : ContainerKind} {header : Header} {options : OpenOptions}

/-- What a header section keeps of memory does not decide what it says. -/
theorem buildHeaderSection_retainedBytes (kind : ContainerKind) (xmlLen : Nat) (rawXml tagName : Str)
    (attributes : List (Str × Str)) (retainedBytes : Nat)
    : buildHeaderSection kind xmlLen rawXml tagName attributes retainedBytes
        = (buildHeaderSection kind xmlLen rawXml tagName attributes 0).map
          fun parsed => { parsed with retainedBytes } := by
  unfold buildHeaderSection
  simp only [except_map_bind]
  rfl

theorem buildHeaderSection_offset {xmlLen retainedBytes : Nat} {rawXml tagName : Str}
    {attributes : List (Str × Str)} {parsed : HeaderSection}
    (h : buildHeaderSection kind xmlLen rawXml tagName attributes retainedBytes = .ok parsed)
    : parsed.keywordSectionOffset = 4 + xmlLen + 4 ∧ parsed.range = ⟨0, 4 + xmlLen + 4⟩ := by
  simp only [buildHeaderSection, except_bind_eq_ok, okOr_eq_ok, Option.bind_eq_some_iff,
    checkedAdd_eq_some, except_pure_eq_ok] at h
  obtain ⟨_, -, _, -, _, -, _, -, _, -, _, -, _, -, _, -, _, -, _, -, _, -, _, -, _, -, _, -, h⟩ := h
  obtain ⟨_, ⟨_, ⟨rfl, -⟩, rfl, -⟩, rfl⟩ := h
  exact ⟨rfl, rfl⟩

theorem headerMemoryEstimate_of_lt {xmlLen : Nat} (h : xmlLen < u32Bound) (limits : Limits)
    : ∃ retainedBytes, headerMemoryEstimate xmlLen limits = .ok retainedBytes := by
  unfold u32Bound at h
  have hbound : u64Bound = 2 ^ 64 := rfl
  refine ⟨xmlLen * 8 + min limits.headerAttributes (xmlLen / 4 + 1) * 48 + 296, ?_⟩
  unfold headerMemoryEstimate sizeOfAttribute sizeOfHeader
  dsimp only
  simp only [Option.bind_eq_bind]
  rw [checkedMul_of_lt (by omega), Option.bind_some, checkedMul_of_lt (by omega), Option.bind_some,
    checkedAdd_of_lt (by omega), Option.bind_some, checkedAdd_of_lt (by omega), okOr_some]

theorem length_headerSection (volume : Volume)
    : volume.headerSection.length = 4 + (utf16le volume.xml).length + 4 := by
  simp only [headerSection, List.length_append, Bytes.length_ofBE, Bytes.length_ofLE]

/-- The header section is parsed to what its tag declares. -/
theorem Fits.parseHeader (hfits : volume.Fits options.limits)
    (hdeclares : volume.Declares options.limits header) (p : Platform)
    : ∃ retainedBytes, Yields p
        (Mdict.parseHeader volume.source volume.kind options.limits options.checksumPolicy)
        (.ok { header, keywordSectionOffset := volume.offset 1, retainedBytes
               range := ⟨0, volume.headerSection.length⟩ }) := by
  obtain ⟨tagName, attributes, parsed, htag, hbuild, rfl⟩ := hdeclares.parsed
  obtain ⟨hoffset, hrange⟩ := buildHeaderSection_offset hbuild
  obtain ⟨retainedBytes, hestimate⟩ := headerMemoryEstimate_of_lt hfits.xml options.limits
  have hlen := hfits.lt
  have hbound := hfits.length
  have hsectionLen := volume.length_headerSection
  have hle : volume.headerSection.length ≤ volume.source.len := length_le_of_mem (by simp [sections])
  have hsource : volume.source.len = volume.bytes.length := rfl
  have hfirst : volume.offset 1 = volume.headerSection.length := by
    have h₁ : volume.offset 1 = volume.offset 0 + volume.headerSection.length := offset_succ rfl
    rw [h₁]
    exact Nat.zero_add _
  have heven : ¬(utf16le volume.xml).length % 2 ≠ 0 := by
    rw [UnicodeEncoding.length_utf16le]
    omega
  have hheader : volume.headerSection = Bytes.ofBE 4 (utf16le volume.xml).length
      ++ (utf16le volume.xml ++ (Bytes.ofLE 4 (adler32 (utf16le volume.xml)) ++ [])) := by
    simp only [headerSection, List.append_assoc, List.append_nil]
  have hread := readSection_yields (p := p) (i := 0) hfits rfl "header section"
  have hensure := ensureSection (i := 0) hfits rfl "header section"
  have hlenBytes : Yields p (volume.source.readExactAt 0 4 "header length")
      (.ok (Bytes.ofBE 4 (utf16le volume.xml).length)) := by
    have hread := @readExactAt_yields p volume.source 0 4 (by omega) hlen "header length"
    have htake : Search.slice volume.source.bytes 0 (0 + 4)
        = Bytes.ofBE 4 (utf16le volume.xml).length := by
      change (volume.headerSection ++ _).take 4 = _
      rw [hheader, List.append_assoc, List.take_left' (Bytes.length_ofBE _ _)]
    rwa [htake] at hread
  have hlimit := hfits.xmlLimit
  have hat := Cursor.at_new_of_eq (by omega) hheader
  obtain ⟨_, hxmlLen, -⟩ := Cursor.readU32Be_restores "header length" hfits.xml _ []
    (Cursor.at_new_of_eq (by rw [Bytes.length_ofBE]; decide) (List.append_nil _).symm)
  obtain ⟨c₁, hxmlLen', hat⟩ := Cursor.readU32Be_restores "header length" hfits.xml _ _ hat
  obtain ⟨c₂, hxmlBytes, hat⟩ :=
    @Cursor.readBytes_restores _ _ "header xml" rfl _ _ hat
  obtain ⟨c₃, hexpected, -⟩ :=
    Cursor.readU32Le_restores "header checksum" (adler32_lt (utf16le volume.xml)) _ _ hat
  dsimp only at hxmlLen hxmlLen' hxmlBytes hexpected
  have hdecode : TextEncoding.utf16Le.decode p (utf16le volume.xml) "header xml"
      = .ok volume.xml :=
    @UnicodeEncoding.decode_encode .utf16Le _ _ _
      (show 64 * (utf16le volume.xml).length < u64Bound by omega)
  have hresult : buildHeaderSection volume.kind (utf16le volume.xml).length
      (Str.trim (Str.trimMatches (· == Char.ofNat 0) volume.xml)) tagName attributes retainedBytes
      = .ok { parsed with retainedBytes } := by
    rw [buildHeaderSection_retainedBytes, hbuild]
    rfl
  have hbytes : Yields p (parseHeaderBytesWithLimits volume.headerSection volume.kind options.limits
      options.checksumPolicy) (.ok { parsed with retainedBytes }) := by
    unfold parseHeaderBytesWithLimits
    exact .ok_bind hxmlLen' <| .ok_bind (ensureLimit_of_le hlimit) <|
      .ok_bind (failIf_of_not heven) <| .ok_bind (checkedUsize_of_lt (by omega)) <|
      .ok_bind hestimate <| .reserve_bind <| .ok_bind hxmlBytes <| .ok_bind hexpected <|
      .ok_bind (verifyChecksum_adler32 _ _ _) <| .platform_bind <| .ok_bind hdecode <|
      .ok_bind htag <| hresult ▸ .liftM
  have htotal : okOr ((checkedAdd 4 (utf16le volume.xml).length).bind (checkedAdd · 4))
      (.invalidFormat "header size overflow") = .ok volume.headerSection.length := by
    rw [checkedAdd_of_lt (by omega), Option.bind_some, checkedAdd_of_lt (by omega), okOr_some,
      hsectionLen]
  rw [hoffset, hrange, ← hsectionLen] at hbytes
  refine ⟨retainedBytes, ?_⟩
  rw [hfirst]
  unfold Mdict.parseHeader
  exact .reserve_bind <| hlenBytes.bind_ok <| .ok_bind hxmlLen <|
    .ok_bind (ensureLimit_of_le hlimit) <| .ok_bind (failIf_of_not heven) <| .ok_bind htotal <|
    .ok_bind hensure <| .ok_bind (checkedUsize_of_lt (by omega)) <| .reserve_bind <|
    hread.bind_ok hbytes

/-! ## The layout -/

theorem verifyFrom_cons {cursor next : Nat} {expected name : String} {range : SectionRange}
    {ranges : List (String × SectionRange)} (hoffset : range.offset = cursor)
    (hstop : next = range.offset + range.len) (hlt : next < u64Bound)
    (h : SectionRanges.verifyFrom next name ranges = .ok ())
    : SectionRanges.verifyFrom cursor expected ((name, range) :: ranges) = .ok () := by
  subst hstop
  unfold SectionRanges.verifyFrom SectionRange.stop
  rw [failIf_of_not (not_not_intro hoffset), except_ok_bind, checkedAdd_of_lt hlt, okOr_some,
    except_ok_bind, h]

theorem verifyKeyBlocks_keyBlocksAt {compOffset entryStartIndex : Nat} {rows : List KeyIndexRow}
    (h : entryStartIndex + (rows.map (·.entryCount)).sum < u64Bound)
    : ValidatedLayout.verifyKeyBlocks entryStartIndex (keyBlocksAt compOffset entryStartIndex rows)
        = .ok (entryStartIndex + (rows.map (·.entryCount)).sum) := by
  induction rows generalizing compOffset entryStartIndex with
  | nil => rfl
  | cons row rows ih =>
    rw [List.map_cons, List.sum_cons] at h ⊢
    unfold keyBlocksAt ValidatedLayout.verifyKeyBlocks
    dsimp only
    rw [failIf_of_not (not_not_intro rfl), except_ok_bind, checkedAdd_of_lt (by omega), okOr_some,
      except_ok_bind, ih (by omega), Nat.add_assoc]

theorem verifyRecordBlocks_recordBlocksAt {compOffset decompOffset : Nat} {sizes : List (Nat × Nat)}
    (h : decompOffset + (sizes.map (·.2)).sum < u64Bound)
    : ValidatedLayout.verifyRecordBlocks decompOffset (recordBlocksAt compOffset decompOffset sizes)
        = .ok (decompOffset + (sizes.map (·.2)).sum) := by
  induction sizes generalizing compOffset decompOffset with
  | nil => rfl
  | cons size sizes ih =>
    rw [List.map_cons, List.sum_cons] at h ⊢
    unfold recordBlocksAt ValidatedLayout.verifyRecordBlocks
    dsimp only
    rw [failIf_of_not (not_not_intro rfl), except_ok_bind, checkedAdd_of_lt (by omega), okOr_some,
      except_ok_bind, ih (by omega), Nat.add_assoc]

/-- The layout passes its own verification. -/
theorem Fits.verify (hfits : volume.Fits limits) (header : Header)
    : (volume.layout header).verify = .ok () := by
  have hlen := hfits.lt
  have h : ∀ i, volume.offset i < u64Bound :=
    fun i => Nat.lt_of_le_of_lt (volume.offset_le i) hlen
  have hcontiguous : (volume.layout header).sections.verifyContiguous = .ok () :=
    verifyFrom_cons rfl (offset_succ (i := 0) rfl) (h 1) <|
    verifyFrom_cons rfl (offset_succ rfl) (h 2) <| verifyFrom_cons rfl (offset_succ rfl) (h 3) <|
    verifyFrom_cons rfl (offset_succ rfl) (h 4) <| verifyFrom_cons rfl (offset_succ rfl) (h 5) <|
    verifyFrom_cons rfl (offset_succ rfl) (h 6) <| verifyFrom_cons rfl (offset_succ rfl) (h 7) rfl
  have hentries := volume.length_entries_le
  have hkeyBytes : volume.keyBlockBytes.length ≤ volume.source.len :=
    length_le_of_mem (by simp [sections])
  have hrecords := volume.length_recordBlocks_le
  have hrecordBytes : volume.recordBlockBytes.length ≤ volume.source.len :=
    length_le_of_mem (by simp [sections])
  have hkeys : ValidatedLayout.verifyKeyBlocks 0 (volume.layout header).keyBlocks
      = .ok volume.entries.length := by
    change ValidatedLayout.verifyKeyBlocks 0 (keyBlocksAt _ 0 _) = _
    rw [verifyKeyBlocks_keyBlocksAt (by rw [sum_entryCount]; omega), sum_entryCount, Nat.zero_add]
  have hblocks : ValidatedLayout.verifyRecordBlocks 0 (volume.layout header).recordBlocks
      = .ok volume.recordBlocks.flatten.length := by
    change ValidatedLayout.verifyRecordBlocks 0 (recordBlocksAt _ 0 volume.recordSizes) = _
    rw [verifyRecordBlocks_recordBlocksAt (by rw [sum_recordSizes_decomp]; omega),
      sum_recordSizes_decomp, Nat.zero_add]
  have htotal : ¬volume.entries.length ≠ (volume.layout header).totalEntries := not_not_intro rfl
  have hlen : ¬volume.recordBlocks.flatten.length ≠ (volume.layout header).totalDecodedRecordLen :=
    not_not_intro rfl
  unfold ValidatedLayout.verify
  rw [hcontiguous, except_ok_bind, hkeys, except_ok_bind, failIf_of_not htotal, except_ok_bind,
    hblocks, except_ok_bind, failIf_of_not hlen]

theorem verified_of_verify {layout : ValidatedLayout} (h : layout.verify = .ok ())
    : layout.verified = .ok ⟨layout, h⟩ := by
  unfold ValidatedLayout.verified
  split
  next => rfl
  next error herror =>
    rw [h] at herror
    contradiction

/-- The dictionary that was written, open. -/
structure IsOpen (volume : Volume) (options : OpenOptions) (header : Header) (file : MdictFile)
    : Prop where
  kind : file.kind = volume.kind
  source : file.source = volume.source
  layout : file.layout = volume.layout header
  limits : file.limits = options.limits
  policy : file.checksumPolicy = options.checksumPolicy

theorem Declares.recordEncoding (hdeclares : volume.Declares limits header)
    : TextEncoding.forRecords volume.kind header = .ok (volume.layout header).recordEncoding := by
  have hencoding := hdeclares.encoding
  unfold layout TextEncoding.forRecords
  unfold TextEncoding.forKeys at hencoding
  cases hkind : volume.kind with
  | mdd => rfl
  | mdx =>
    rw [hkind] at hencoding
    dsimp only at hencoding ⊢
    rw [hencoding]
    rfl

/-- The layout of the sections, in either version. -/
theorem Fits.parseLayout (hfits : volume.Fits options.limits)
    (hdeclares : volume.Declares options.limits header) (retainedBytes : Nat) (p : Platform)
    : Yields p (volume.version.parseLayout volume.source
        { header, keywordSectionOffset := volume.offset 1, retainedBytes
          range := ⟨0, volume.headerSection.length⟩ } volume.kind options)
        (.ok (volume.layout header)) := by
  -- What comes before and after the two sections is the same in both versions.
  have hwith : ∀ {parseKeywordSection parseRecordSection},
      (∃ retainedBytes, Yields p
        (parseKeywordSection volume.source header volume.encoding.text (volume.offset 1) options)
        (.ok (volume.keywordSection retainedBytes))) →
      (∃ retainedBytes, Yields p
        (parseRecordSection volume.source (volume.offset 4) options.limits)
        (.ok (volume.recordSection retainedBytes))) →
      Yields p (parseLayoutWith volume.version.wire parseKeywordSection parseRecordSection
        volume.source { header, keywordSectionOffset := volume.offset 1, retainedBytes
                        range := ⟨0, volume.headerSection.length⟩ } volume.kind options)
        (.ok (volume.layout header)) := by
    rintro parseKeywordSection parseRecordSection ⟨_, hkeys⟩ ⟨_, hrecords⟩
    unfold parseLayoutWith
    exact .reserve_bind <| .ok_bind hdeclares.encoding <| .ok_bind hdeclares.recordEncoding <|
      hkeys.bind_ok <| .reserve_bind <| hrecords.bind_ok <| .reserve_bind <|
      .ok_bind (failIf_of_not (not_not_intro rfl)) .pure
  have hrecords := @hfits.parseRecordSection
  cases hversion : volume.version with
  | v1 =>
    rw [hversion] at hwith hrecords
    exact hwith (hfits.parseKeywordSection_v1 hversion hdeclares.plain p)
      (hrecords (fun _ context h => Cursor.readU32Be_restores context h) p)
  | v2 =>
    rw [hversion] at hwith hrecords
    exact hwith (hfits.parseKeywordSection_v2 hversion hdeclares.plain p)
      (hrecords (fun _ context h => Cursor.readU64Be_restores context h) p)

/-- A file that fits and declares what it holds is opened. -/
theorem Fits.open (hfits : volume.Fits options.limits)
    (hdeclares : volume.Declares options.limits header) (p : Platform)
    : ∃ file, Yields p (MdictFile.open volume.bytes volume.kind options) (.ok file)
        ∧ volume.IsOpen options header file := by
  have hverify := hfits.verify header
  obtain ⟨retainedBytes, hheader⟩ := hfits.parseHeader hdeclares p
  obtain ⟨requiredMajor, hrequired, hrelationship⟩ := hdeclares.required
  have hresolve : resolveWireVersion volume.version.major = .ok volume.version := by
    cases volume.version <;> rfl
  have hlayout := hfits.parseLayout hdeclares retainedBytes p
  have hopen : Yields p (openLayout volume.source volume.kind options)
      (.ok ⟨volume.layout header, hverify⟩) := by
    unfold openLayout
    exact hheader.bind_ok <| .ok_bind hdeclares.generated <| .ok_bind hresolve <|
      .ok_bind hrequired <| .ok_bind hrelationship <| hlayout.bind_ok <|
      verified_of_verify hverify ▸ .liftM
  have hsource : FileSource.open volume.bytes = .ok volume.source := by
    have hsectionLen := volume.length_headerSection
    have hle : volume.headerSection.length ≤ volume.bytes.length :=
      length_le_of_mem (by simp [sections])
    unfold FileSource.open
    rw [failIf_of_not (by omega)]
    rfl
  refine ⟨{ kind := volume.kind, source := volume.source, layout := volume.layout header
            limits := options.limits, checksumPolicy := options.checksumPolicy
            verified := hverify }, ?_, rfl, rfl, rfl, rfl, rfl⟩
  unfold MdictFile.open
  exact .ok_bind hsource <| hopen.bind_ok .pure

end Volume

end Mdict
