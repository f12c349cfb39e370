import Mdict.Lemmas.Writer.Sections

/-!
This module contains that the keyword section of a written file is parsed to the blocks that were
written, in either version.
-/

namespace Mdict

open Effect Unicode

/-! ## The descriptors of the blocks -/

theorem totalKeyEntries_keyBlocksAt {compOffset entryStartIndex : Nat} {rows : List KeyIndexRow}
    (hne : rows ≠ []) (h : entryStartIndex + (rows.map (·.entryCount)).sum < u64Bound)
    : totalKeyEntries (keyBlocksAt compOffset entryStartIndex rows)
        = .ok (entryStartIndex + (rows.map (·.entryCount)).sum) := by
  induction rows generalizing compOffset entryStartIndex with
  | nil => contradiction
  | cons row rows ih =>
    rw [List.map_cons, List.sum_cons] at h ⊢
    cases rows with
    | nil =>
      rw [List.map_nil, List.sum_nil] at h ⊢
      exact addU64_of_lt h
    | cons next rows =>
      have ih := @ih (compOffset + row.compSize) (entryStartIndex + row.entryCount)
        (List.cons_ne_nil _ _) (by omega)
      rw [Nat.add_assoc] at ih
      exact ih

theorem sumCompSizes_keyBlocksAt {compOffset entryStartIndex total : Nat} {rows : List KeyIndexRow}
    (h : total + (rows.map (·.compSize)).sum < u64Bound)
    : sumCompSizes total (keyBlocksAt compOffset entryStartIndex rows)
        = .ok (total + (rows.map (·.compSize)).sum) := by
  induction rows generalizing compOffset entryStartIndex total with
  | nil => rfl
  | cons row rows ih =>
    rw [List.map_cons, List.sum_cons] at h ⊢
    unfold keyBlocksAt sumCompSizes
    dsimp only
    rw [addU64_of_lt (by omega), except_ok_bind, ih (by omega), Nat.add_assoc]

theorem ensureRanges_keyBlocksAt {source : FileSource} {compOffset entryStartIndex : Nat}
    {rows : List KeyIndexRow} (h : compOffset + (rows.map (·.compSize)).sum ≤ source.len)
    (hlen : source.len < u64Bound) (p : Platform)
    : Yields p ((keyBlocksAt compOffset entryStartIndex rows).forM fun block =>
        (source.ensureRange block.compOffset block.compSize "keyword block" : Exec Unit))
        (.ok ()) := by
  induction rows generalizing compOffset entryStartIndex with
  | nil => exact .pure
  | cons row rows ih =>
    rw [List.map_cons, List.sum_cons] at h
    exact .ok_bind (ensureRange_of_le (by dsimp only; omega) hlen _) (ih (by omega))

/-! ## Checks on the metadata -/

namespace Volume

variable {volume : Volume} {limits : Limits} {p : Platform}

/-- The least bytes of a row of the keyword metadata. -/
def minimumRowLen (volume : Volume) : Nat :=
  match volume.version with
  | .v1 => V1.minKeyInfoRowLen
  | .v2 => 28 + 2 * volume.encoding.text.unitSize

theorem minimumRowLen_le (volume : Volume) (row : KeyIndexRow)
    : volume.minimumRowLen
        ≤ (volume.version.encodeKeyIndexRow volume.encoding row).length := by
  have hterminator : volume.encoding.terminator.length = volume.encoding.text.unitSize :=
    List.length_replicate
  unfold minimumRowLen WireVersion.encodeKeyIndexRow
  cases volume.version with
  | v1 =>
    simp only [V1.minKeyInfoRowLen, V1.encodeKeyIndexRow, V1.encodeSummary, List.length_append,
      Bytes.length_ofBE]
    omega
  | v2 =>
    simp only [V2.encodeKeyIndexRow, V2.encodeSummary, V2.KeywordIndexLayout.terminator,
      List.length_append, Bytes.length_ofBE, hterminator]
    omega

theorem length_keyIndex (volume : Volume)
    : volume.keyBlocks.length * volume.minimumRowLen ≤ volume.keyIndex.length := by
  have h := @mul_le_length_flatMap _ _ (volume.version.encodeKeyIndexRow volume.encoding)
    volume.minimumRowLen (volume.rows.map volume.indexRow) fun row _ => volume.minimumRowLen_le row
  rwa [List.length_map, length_rows] at h

theorem Fits.length_keyIndex_lt (hfits : volume.Fits limits)
    : 64 * volume.keyIndex.length < u64Bound := by
  have hindex : volume.keyIndex.length ≤ volume.keywordIndex.length := by
    unfold Volume.keywordIndex
    split
    . exact Nat.le_refl _
    . rw [length_envelope]
      omega
  have hle : volume.keywordIndex.length ≤ volume.bytes.length :=
    length_le_of_mem (by simp [sections])
  have hbound := hfits.length
  omega

theorem Fits.validateKeywordHeaderCounts (hfits : volume.Fits limits)
    : validateKeywordHeaderCountsWith volume.minimumRowLen limits volume.keyBlocks.length
        volume.entries.length volume.keyIndex.length = .ok volume.keyBlocks.length := by
  have hentries := volume.length_keyBlocks_le
  have hindex := volume.length_keyIndex
  have hbound := hfits.length_keyIndex_lt
  have hpos : 14 ≤ volume.minimumRowLen := by
    unfold minimumRowLen
    split
    . exact Nat.le_refl _
    . omega
  have hblocks : volume.keyBlocks.length * 14 ≤ volume.keyIndex.length :=
    (Nat.mul_le_mul_left _ hpos).trans hindex
  have hsize : volume.keyBlocks.length * sizeOfKeyBlockDescriptor < u64Bound := by
    unfold sizeOfKeyBlockDescriptor
    omega
  unfold validateKeywordHeaderCountsWith
  rw [failIf_of_not (by omega), except_ok_bind, mulU64_of_lt (by omega), except_ok_bind,
    failIf_of_not (by omega), except_ok_bind, checkedUsize_of_lt (by omega), except_ok_bind,
    checkedMul_of_lt hsize, okOr_some, except_ok_bind, ensureLimit_of_le hfits.keyMetadata]
  rfl

theorem Fits.validateKeyBlockSizes (hfits : volume.Fits limits) {rows : List DecodedKeyRow}
    (h : rows ∈ volume.rows)
    : validateKeyBlockSizesWith volume.version.width volume.encoding.text limits
        (volume.indexRow rows).entryCount (volume.indexRow rows).compSize
        (volume.indexRow rows).decompSize = .ok () := by
  have hne := List.length_pos_of_ne_nil (rows_ne_nil h)
  have hlength := length_envelope (volume.keyPayload rows)
  have hrows := volume.length_keyPayload rows
  have hcount : rows.length ≤ limits.keyBlockEntries := by
    have hmem := List.mem_map_of_mem (f := List.length) h
    rw [Volume.rows, map_length_blocksFrom, List.mem_map] at hmem
    obtain ⟨block, hblock, hmem⟩ := hmem
    rw [← hmem]
    exact hfits.keyBlockEntries block hblock
  obtain ⟨hcomp, hdecomp⟩ := hfits.payloads (volume.keyPayload rows)
    (List.mem_append_left _ (List.mem_append_right _ (List.mem_map_of_mem h)))
  have hblock := length_envelope_le h
  have hbytes : volume.keyBlockBytes.length ≤ volume.bytes.length :=
    length_le_of_mem (by simp [sections])
  have hbound := hfits.length
  have hunit : volume.encoding.text.unitSize ≤ 2 := by
    cases volume.encoding <;> decide
  have hwidth : volume.version.width ≤ 8 := by
    cases volume.version <;> decide
  have hu64 : 16 < u64Bound := by decide
  change validateKeyBlockSizesWith _ _ _ rows.length (envelope (volume.keyPayload rows)).length
    (volume.keyPayload rows).length = _
  unfold validateKeyBlockSizesWith
  rw [failIf_of_not (by omega), except_ok_bind, ensureLimit_of_le hcount, except_ok_bind,
    ensureLimit_of_le (by omega), except_ok_bind, ensureLimit_of_le hdecomp, except_ok_bind,
    failIf_of_not (by omega), except_ok_bind, addU64_of_lt (by omega), except_ok_bind,
    mulU64_of_lt (by omega), except_ok_bind, failIf_of_not (by omega)]

/-- The keyword metadata is parsed to the blocks that were written. -/
theorem Fits.parseKeywordIndexEntries (hfits : volume.Fits limits) (rowLenContext : String)
    (readRow : Cursor → Except Error (KeyIndexRow × Cursor))
    (hread : ∀ row, row.Fits volume.version volume.encoding →
      Cursor.Restores readRow (volume.version.encodeKeyIndexRow volume.encoding row) row)
    : parseKeywordIndexEntriesWith volume.minimumRowLen rowLenContext readRow
        (validateKeyBlockSizesWith volume.version.width volume.encoding.text limits)
        volume.keyIndex volume.keyBlocks.length (volume.offset 3)
        = .ok volume.keyBlockDescriptors := by
  have hindex := volume.length_keyIndex
  have hbound := hfits.length_keyIndex_lt
  have hlen := hfits.lt
  have hblocks : volume.offset 3 + volume.keyBlockBytes.length ≤ volume.source.len :=
    section_le rfl
  have hentries := volume.length_entries_le
  have hmem : ∀ row ∈ volume.rows.map volume.indexRow,
      row.Fits volume.version volume.encoding
        ∧ validateKeyBlockSizesWith volume.version.width volume.encoding.text limits
          row.entryCount row.compSize row.decompSize = .ok () := by
    intro row hrow
    obtain ⟨rows, hrows, rfl⟩ := List.mem_map.mp hrow
    exact ⟨hfits.indexRow_fits hrows, hfits.validateKeyBlockSizes hrows⟩
  have hrestores := parseKeyIndexRows_restores (fun row hrow => hread row (hmem row hrow).1)
    (fun row hrow => (hmem row hrow).2) (volume.offset 3) 0
    (by rw [sum_compSize]; omega) (by rw [sum_entryCount]; omega)
  rw [List.length_map, length_rows] at hrestores
  obtain ⟨cursor, hrun, hat⟩ := hrestores (.new volume.keyIndex) []
    (by rw [List.append_nil]; exact Cursor.at_new hbound)
  have hminimum : volume.minimumRowLen < u64Bound := by
    have hunit : volume.encoding.text.unitSize ≤ 2 := by
      cases volume.encoding <;> decide
    unfold minimumRowLen
    split
    . decide
    . unfold u64Bound
      omega
  unfold parseKeywordIndexEntriesWith
  rw [checkedUsize_of_lt hminimum, except_ok_bind, checkedMul_of_lt (by omega), okOr_some,
    except_ok_bind, failIf_of_not (by omega), except_ok_bind, hrun, except_ok_bind]
  dsimp only
  rw [failIf_of_not (not_not_intro hat.isEmpty)]
  rfl

/-! ## The section -/

variable {options : OpenOptions} {header : Header}

theorem encryptionMode_of_plain (h : header.encrypted = 0)
    : header.encryptionMode.hasKeywordHeader = false
        ∧ header.encryptionMode.hasKeywordIndex = false := by
  unfold Header.encryptionMode
  rw [h]
  exact ⟨rfl, rfl⟩

/-- What both versions reserve for the metadata. -/
theorem Fits.retainedBytes (hfits : volume.Fits limits) (p : Platform)
    : ∃ decodedLen retainedBytes,
        volume.encoding.text.maxDecodedLen p volume.keyIndex.length = .ok decodedLen
          ∧ (checkedMul volume.keyBlocks.length sizeOfKeyBlockDescriptor).bind
              (checkedAdd decodedLen) = some retainedBytes := by
  have hbound := hfits.length_keyIndex_lt
  have hindex := volume.length_keyIndex
  have hpos : 14 ≤ volume.minimumRowLen := by
    unfold minimumRowLen
    split
    . exact Nat.le_refl _
    . omega
  have hblocks : volume.keyBlocks.length * 14 ≤ volume.keyIndex.length :=
    (Nat.mul_le_mul_left _ hpos).trans hindex
  obtain ⟨decodedLen, hdecoded, hle⟩ :=
    volume.encoding.exists_maxDecodedLen p hbound
  have hu64 : 16 < u64Bound := by decide
  refine ⟨decodedLen, decodedLen + volume.keyBlocks.length * 88, hdecoded, ?_⟩
  unfold sizeOfKeyBlockDescriptor
  rw [checkedMul_of_lt (by omega), Option.bind_some, checkedAdd_of_lt (by omega)]

/-- What both versions check of the blocks at the end. -/
theorem Fits.checkBlocks (hfits : volume.Fits limits) (p : Platform)
    : totalKeyEntries volume.keyBlockDescriptors = .ok volume.entries.length
        ∧ sumCompSizes 0 volume.keyBlockDescriptors = .ok volume.keyBlockBytes.length
        ∧ Yields p (volume.keyBlockDescriptors.forM fun block =>
          (volume.source.ensureRange block.compOffset block.compSize "keyword block" : Exec Unit))
          (.ok ()) := by
  have hlen := hfits.lt
  have hblocks : volume.offset 3 + volume.keyBlockBytes.length ≤ volume.source.len :=
    section_le rfl
  have hentries := volume.length_entries_le
  have hsum := volume.sum_compSize
  have hcount := volume.sum_entryCount
  refine ⟨?_, ?_, ensureRanges_keyBlocksAt (by omega) hlen p⟩
  . cases hrows : volume.rows with
    | nil =>
      rw [hrows] at hcount
      rw [keyBlockDescriptors, hrows, ← hcount]
      rfl
    | cons rows others =>
      rw [keyBlockDescriptors, totalKeyEntries_keyBlocksAt _ (by omega), hcount, Nat.zero_add]
      rw [hrows]
      exact List.cons_ne_nil _ _
  . rw [keyBlockDescriptors, sumCompSizes_keyBlocksAt (by omega), hsum, Nat.zero_add]

theorem Fits.parseKeywordSection_v1 (hfits : volume.Fits options.limits)
    (hversion : volume.version = .v1) (hplain : header.encrypted = 0) (p : Platform)
    : ∃ retainedBytes, Yields p
        (V1.parseKeywordSection volume.source header volume.encoding.text (volume.offset 1) options)
        (.ok (volume.keywordSection retainedBytes)) := by
  have hheader : volume.keywordHeader = Bytes.ofBE 4 volume.keyBlocks.length
      ++ (Bytes.ofBE 4 volume.entries.length ++ (Bytes.ofBE 4 volume.keyIndex.length
      ++ (Bytes.ofBE 4 volume.keyBlockBytes.length ++ []))) := by
    rw [keywordHeader, hversion]
    simp only [List.append_assoc, List.append_nil]
  have hindex : volume.keywordIndex = volume.keyIndex := by
    rw [Volume.keywordIndex, hversion]
  have hheaderLen : volume.keywordHeader.length = V1.keywordHeaderLen := by
    rw [hheader]
    simp only [List.length_append, Bytes.length_ofBE, List.length_nil]
    rfl
  obtain ⟨henc, henc'⟩ := encryptionMode_of_plain hplain
  have hlen := hfits.lt
  have hbound := hfits.length
  have hindexLt := hfits.lt_width volume.keyIndex (by simp)
  have hblocksLt := hfits.lt_width volume.keyBlockBytes (by simp)
  rw [hversion] at hindexLt hblocksLt
  have hentries := volume.length_entries_le
  have hblocks := volume.length_keyBlocks_le
  have h₂ : volume.offset 2 = volume.offset 1 + volume.keywordHeader.length := offset_succ rfl
  have h₃ : volume.offset 3 = volume.offset 2 + volume.keywordIndex.length := offset_succ rfl
  have h₄ : volume.offset 4 = volume.offset 3 + volume.keyBlockBytes.length := offset_succ rfl
  have hstop : volume.offset 4 ≤ volume.source.len := volume.offset_le 4
  have hheaderLe : volume.keywordHeader.length ≤ volume.bytes.length :=
    length_le_of_mem (by simp [sections])
  have hread := readSection_yields (p := p) (i := 1) hfits rfl "keyword section header"
  have hreadIndex := readSection_yields (p := p) (i := 2) hfits rfl "keyword index"
  have hensure := ensureSection (i := 2) hfits rfl "keyword index"
  have hat := Cursor.at_new_of_eq (by omega) hheader
  rw [hheaderLen] at hread h₂
  rw [hindex] at hreadIndex hensure h₃
  obtain ⟨c₁, hnumBlocks, hat⟩ := Cursor.readU32Be_restores "keyword num_blocks"
    (Nat.lt_of_le_of_lt (hblocks.trans hentries) hblocksLt) _ _ hat
  obtain ⟨c₂, hnumEntries, hat⟩ := Cursor.readU32Be_restores "keyword num_entries"
    (Nat.lt_of_le_of_lt hentries hblocksLt) _ _ hat
  obtain ⟨c₃, hkeyInfoLen, hat⟩ :=
    Cursor.readU32Be_restores "keyword index length" hindexLt _ _ hat
  obtain ⟨c₄, hkeyBlocksLen, -⟩ :=
    Cursor.readU32Be_restores "keyword blocks length" hblocksLt _ _ hat
  dsimp only at hnumBlocks hnumEntries hkeyInfoLen hkeyBlocksLen
  obtain ⟨decodedLen, retainedBytes, hdecoded, hretained⟩ := hfits.retainedBytes p
  obtain ⟨htotal, hsum, hranges⟩ := hfits.checkBlocks p
  have hrow : volume.minimumRowLen = V1.minKeyInfoRowLen := by
    rw [minimumRowLen, hversion]
  have hwidth : volume.version.width = 4 := by
    rw [hversion]
    rfl
  have hcounts := hfits.validateKeywordHeaderCounts
  have hparse := hfits.parseKeywordIndexEntries "minimum keyword index row length"
    (V1.readKeyIndexRow p volume.encoding.text)
  rw [hrow] at hcounts hparse
  rw [hversion] at hparse
  have hparse := hparse fun row hrow => V1.readKeyIndexRow_restores hrow
  change V1.validateKeywordHeaderCounts _ _ _ _ = _ at hcounts
  change V1.parseKeywordIndexEntries _ _ _ _ _ _ = _ at hparse
  have hlimit := hfits.keywordIndex
  rw [hindex] at hlimit
  unfold V1.parseKeywordSection
  refine ⟨retainedBytes, .ok_bind (failIf_of_not (by rw [henc, henc']; decide)) <|
    .ok_bind (checkedUsize_of_lt (by decide)) <| .reserve_bind <| hread.bind_ok <|
    .ok_bind hnumBlocks <| .ok_bind hnumEntries <| .ok_bind hkeyInfoLen <| .ok_bind hkeyBlocksLen <|
    .ok_bind (ensureLimit_of_le hlimit) <| .ok_bind hcounts <|
    .ok_bind (h₂ ▸ addU64_of_lt (by omega)) <| .ok_bind (h₃ ▸ addU64_of_lt (by omega)) <|
    .ok_bind (h₄ ▸ addU64_of_lt (by omega)) <| .ok_bind hensure <|
    .ok_bind (ensureSection hfits rfl _) <| .ok_bind (checkedUsize_of_lt (by omega)) <|
    .reserve_bind <| hreadIndex.bind_ok <| .platform_bind <| .ok_bind hdecoded <|
    .ok_bind (by rw [hretained, okOr_some]) <| .reserve_bind <| .ok_bind hparse <|
    .ok_bind htotal <| .ok_bind (failIf_of_not (not_not_intro rfl)) <| .ok_bind hsum <|
    .ok_bind (failIf_of_not (not_not_intro rfl)) <| hranges.bind_ok ?_⟩
  rw [keywordSection, hheaderLen, hindex]
  exact .pure

/-- The checksum of the header is the canonical one. -/
theorem detectKeywordIndexLayout_canonical (bytes : Bytes) (policy : ChecksumPolicy)
    : V2.detectKeywordIndexLayout bytes (Bytes.ofBE 4 (adler32 bytes)) policy = .ok .canonical := by
  unfold V2.detectKeywordIndexLayout
  rw [Bytes.toBE_ofBE_of_lt (adler32_lt bytes)]
  exact if_pos rfl

theorem Fits.parseKeywordSection_v2 (hfits : volume.Fits options.limits)
    (hversion : volume.version = .v2) (hplain : header.encrypted = 0) (p : Platform)
    : ∃ retainedBytes, Yields p
        (V2.parseKeywordSection volume.source header volume.encoding.text (volume.offset 1) options)
        (.ok (volume.keywordSection retainedBytes)) := by
  obtain ⟨plain, hplainHeader⟩ : ∃ plain, plain = Bytes.ofBE 8 volume.keyBlocks.length
      ++ (Bytes.ofBE 8 volume.entries.length ++ (Bytes.ofBE 8 volume.keyIndex.length
      ++ (Bytes.ofBE 8 (envelope volume.keyIndex).length
      ++ (Bytes.ofBE 8 volume.keyBlockBytes.length ++ [])))) := ⟨_, rfl⟩
  have hheader : volume.keywordHeader = plain ++ Bytes.ofBE 4 (adler32 plain) := by
    rw [keywordHeader, hversion, hplainHeader]
    simp only [List.append_assoc, List.append_nil]
  have hindex : volume.keywordIndex = envelope volume.keyIndex := by
    rw [Volume.keywordIndex, hversion]
  have hplainLen : plain.length = 40 := by
    rw [hplainHeader]
    simp only [List.length_append, Bytes.length_ofBE, List.length_nil]
  have hheaderLen : volume.keywordHeader.length = 44 := by
    rw [hheader, List.length_append, Bytes.length_ofBE, hplainLen]
  have htake : volume.keywordHeader.take 40 = plain := by
    rw [hheader, List.take_left' hplainLen]
  have hdrop : (volume.keywordHeader.drop 40).take 4 = Bytes.ofBE 4 (adler32 plain) := by
    rw [hheader, List.drop_left' hplainLen, List.take_of_length_le (by rw [Bytes.length_ofBE])]
  obtain ⟨henc, henc'⟩ := encryptionMode_of_plain hplain
  have hlen := hfits.lt
  have hbound := hfits.length
  have hindexBound := hfits.length_keyIndex_lt
  have hblocksLt := hfits.lt_width volume.keyBlockBytes (by simp)
  rw [hversion] at hblocksLt
  have hentries := volume.length_entries_le
  have hblocks := volume.length_keyBlocks_le
  have h₂ : volume.offset 2 = volume.offset 1 + volume.keywordHeader.length := offset_succ rfl
  have h₃ : volume.offset 3 = volume.offset 2 + volume.keywordIndex.length := offset_succ rfl
  have h₄ : volume.offset 4 = volume.offset 3 + volume.keyBlockBytes.length := offset_succ rfl
  have hstop : volume.offset 4 ≤ volume.source.len := volume.offset_le 4
  have hheaderLe : volume.keywordHeader.length ≤ volume.bytes.length :=
    length_le_of_mem (by simp [sections])
  have hread := readSection_yields (p := p) (i := 1) hfits rfl "keyword section header"
  have hreadIndex :=
    readSection_yields (p := p) (i := 2) hfits rfl "keyword index block"
  have hensure := ensureSection (i := 2) hfits rfl "keyword index block"
  have hlength := length_envelope volume.keyIndex
  have hlimit := hfits.keywordIndex
  rw [hheaderLen] at hread h₂
  rw [hindex] at hreadIndex hensure h₃ hlimit
  have hat := Cursor.at_new_of_eq (by omega) hplainHeader
  obtain ⟨c₁, hnumBlocks, hat⟩ := Cursor.readU64Be_restores "keyword num_blocks"
    (Nat.lt_of_le_of_lt (hblocks.trans hentries) hblocksLt) _ _ hat
  obtain ⟨c₂, hnumEntries, hat⟩ := Cursor.readU64Be_restores "keyword num_entries"
    (Nat.lt_of_le_of_lt hentries hblocksLt) _ _ hat
  obtain ⟨c₃, hkeyIndexDecompLen, hat⟩ := Cursor.readU64Be_restores
    "keyword index decompressed length" (show volume.keyIndex.length < u64Bound by omega) _ _ hat
  obtain ⟨c₄, hkeyIndexCompLen, hat⟩ := Cursor.readU64Be_restores "keyword index compressed length"
    (show (envelope volume.keyIndex).length < u64Bound by omega) _ _ hat
  obtain ⟨c₅, hkeyBlocksLen, -⟩ :=
    Cursor.readU64Be_restores "keyword blocks length" hblocksLt _ _ hat
  dsimp only at hnumBlocks hnumEntries hkeyIndexDecompLen hkeyIndexCompLen hkeyBlocksLen
  obtain ⟨decodedLen, retainedBytes, hdecoded, hretained⟩ := hfits.retainedBytes p
  obtain ⟨htotal, hsum, hranges⟩ := hfits.checkBlocks p
  have hunit : volume.encoding.text.unitSize ≤ 2 := by
    cases volume.encoding <;> decide
  have hrow : V2.minimumKeywordIndexEntryBytes volume.encoding.text .canonical
      = .ok volume.minimumRowLen := by
    have hsmall : 32 < u64Bound := by decide
    rw [minimumRowLen, hversion, Nat.mul_comm 2]
    unfold V2.minimumKeywordIndexEntryBytes
    dsimp only
    rw [checkedMul_of_lt (by omega), Option.bind_some, checkedAdd_of_lt (by omega), okOr_some]
  have hcounts : V2.validateKeywordHeaderCounts volume.keyBlocks.length volume.entries.length
      volume.keyIndex.length volume.encoding.text .canonical options.limits
      = .ok volume.keyBlocks.length := by
    unfold V2.validateKeywordHeaderCounts
    rw [hrow, except_ok_bind, hfits.validateKeywordHeaderCounts]
  have hrows := hfits.parseKeywordIndexEntries "minimum keyword index entry length"
    (V2.readKeyIndexRow p volume.encoding.text .canonical)
  rw [hversion] at hrows
  have hparse : V2.parseKeywordIndexEntries p volume.keyIndex volume.keyBlocks.length
      volume.encoding.text .canonical (volume.offset 3) options.limits
      = .ok volume.keyBlockDescriptors := by
    unfold V2.parseKeywordIndexEntries
    rw [hrow, except_ok_bind]
    exact hrows fun row hrow => V2.readKeyIndexRow_restores hrow
  obtain ⟨hcomp, hdecomp⟩ := hfits.payloads volume.keyIndex
    (by rw [Volume.payloads, hversion]; simp)
  have hdecode := decodeBlock_envelope (p := p) options.checksumPolicy "keyword index block" hcomp
    hdecomp
  have hplainKeywordHeader
      : V2.plainKeywordHeader header options volume.keywordHeader = .ok plain := by
    rw [V2.plainKeywordHeader, henc, if_neg Bool.false_ne_true, htake]
  have hplainKeywordIndex : V2.plainKeywordIndex header (envelope volume.keyIndex)
      = .ok (envelope volume.keyIndex) := by
    rw [V2.plainKeywordIndex, henc', if_neg Bool.false_ne_true]
  have hlayout := detectKeywordIndexLayout_canonical plain options.checksumPolicy
  rw [← hdrop] at hlayout
  unfold V2.parseKeywordSection
  refine ⟨retainedBytes, .reserve_bind <| hread.bind_ok <| .ok_bind hplainKeywordHeader <|
    .ok_bind hlayout <| .ok_bind hnumBlocks <| .ok_bind hnumEntries <|
    .ok_bind hkeyIndexDecompLen <| .ok_bind hkeyIndexCompLen <| .ok_bind hkeyBlocksLen <|
    .ok_bind (ensureLimit_of_le (by omega)) <| .ok_bind (ensureLimit_of_le hlimit) <|
    .ok_bind (failIf_of_not (by omega)) <| .ok_bind hcounts <|
    .ok_bind (h₂ ▸ okOr_eq_ok.mpr (checkedAdd_of_lt (by omega))) <|
    .ok_bind (h₃ ▸ okOr_eq_ok.mpr (checkedAdd_of_lt (by omega))) <|
    .ok_bind (h₄ ▸ okOr_eq_ok.mpr (checkedAdd_of_lt (by omega))) <| .ok_bind hensure <|
    .ok_bind (ensureSection hfits rfl _) <| .ok_bind (checkedUsize_of_lt (by omega)) <|
    .reserve_bind <| hreadIndex.bind_ok <| .ok_bind hplainKeywordIndex <|
    .ok_bind (checkedUsize_of_lt (by omega)) <| .reserve_bind <| .platform_bind <|
    .ok_bind hdecoded <| .ok_bind (by rw [hretained, okOr_some]) <| .reserve_bind <|
    hdecode.bind_ok <| .ok_bind hparse <| .ok_bind htotal <|
    .ok_bind (failIf_of_not (not_not_intro rfl)) <| .ok_bind hsum <|
    .ok_bind (failIf_of_not (not_not_intro rfl)) <| hranges.bind_ok ?_⟩
  rw [keywordSection, hheaderLen, hindex]
  exact .pure

end Volume

end Mdict
