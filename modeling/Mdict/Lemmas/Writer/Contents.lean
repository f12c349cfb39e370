import Mdict.Lemmas.Spans
import Mdict.Lemmas.Writer.Open

/-!
This module contains that the blocks of a written file decode to what was written into them.
-/

namespace Mdict

open Effect Unicode

/-! ## Places of blocks -/

theorem getElem?_keyBlocksAt (compOffset entryStartIndex : Nat) {rows : List KeyIndexRow} {i : Nat}
    {row : KeyIndexRow} (h : rows[i]? = some row)
    : ∃ entryStartIndex', (keyBlocksAt compOffset entryStartIndex rows)[i]? = some
        { entryCount := row.entryCount, entryStartIndex := entryStartIndex'
          firstKey := row.firstKey, lastKey := row.lastKey
          compOffset := compOffset + Search.start (rows.map (·.compSize)) i
          compSize := row.compSize, decompSize := row.decompSize } := by
  induction rows generalizing compOffset entryStartIndex i with
  | nil => contradiction
  | cons first rows ih =>
    cases i with
    | zero =>
      rw [List.getElem?_cons_zero, Option.some.injEq] at h
      subst h
      exact ⟨entryStartIndex, rfl⟩
    | succ i =>
      obtain ⟨entryStartIndex', ih⟩ := ih (compOffset + first.compSize)
        (entryStartIndex + first.entryCount) h
      refine ⟨entryStartIndex', ?_⟩
      rw [Nat.add_assoc] at ih
      exact ih

theorem getElem?_recordBlocksAt (compOffset decompOffset : Nat) {sizes : List (Nat × Nat)} {i : Nat}
    {size : Nat × Nat} (h : sizes[i]? = some size)
    : ∃ decompOffset', (recordBlocksAt compOffset decompOffset sizes)[i]? = some
        { compOffset := compOffset + Search.start (sizes.map (·.1)) i, compSize := size.1
          decompOffset := decompOffset', decompSize := size.2 } := by
  induction sizes generalizing compOffset decompOffset i with
  | nil => contradiction
  | cons first sizes ih =>
    cases i with
    | zero =>
      rw [List.getElem?_cons_zero, Option.some.injEq] at h
      subst h
      exact ⟨decompOffset, rfl⟩
    | succ i =>
      obtain ⟨decompOffset', ih⟩ := ih (compOffset + first.1) (decompOffset + first.2) h
      refine ⟨decompOffset', ?_⟩
      rw [Nat.add_assoc] at ih
      exact ih

theorem length_keyBlocksAt (compOffset entryStartIndex : Nat) (rows : List KeyIndexRow)
    : (keyBlocksAt compOffset entryStartIndex rows).length = rows.length := by
  induction rows generalizing compOffset entryStartIndex with
  | nil => rfl
  | cons row rows ih => rw [keyBlocksAt, List.length_cons, List.length_cons, ih]

theorem length_recordBlocksAt (compOffset decompOffset : Nat) (sizes : List (Nat × Nat))
    : (recordBlocksAt compOffset decompOffset sizes).length = sizes.length := by
  induction sizes generalizing compOffset decompOffset with
  | nil => rfl
  | cons size sizes ih => rw [recordBlocksAt, List.length_cons, List.length_cons, ih]

/-! ## Keys do not grow much -/

/-- The text of a key is at most twelve bytes for each of its characters. -/
theorem length_normalizeText_le_mul (n : KeyNormalizer) {p : Platform}
    (hlower : ∀ character, (p.toLowercase character).length ≤ 3) (raw : Str)
    : (Unicode.utf8 (n.normalizeText p raw)).length ≤ 12 * raw.length := by
  have hutf8 (s : Str) : (Unicode.utf8 s).length ≤ 4 * s.length := by
    induction s with
    | nil => exact Nat.le_refl _
    | cons c s ih =>
      have hc : (String.utf8EncodeChar c).length ≤ 4 := by
        rw [String.length_utf8EncodeChar]
        exact c.utf8Size_le_four
      rw [Unicode.utf8, List.flatMap_cons, List.length_append, List.length_cons]
      rw [Unicode.utf8] at ih
      omega
  have hlowered (c : Char) : (n.lowered p c).length ≤ 3 := by
    unfold KeyNormalizer.lowered
    split
    . exact Nat.le_of_ble_eq_true rfl
    . exact hlower c
  have hfrom (atPathStart : Bool) : (n.normalizeFrom p atPathStart raw).length ≤ 3 * raw.length := by
    induction raw generalizing atPathStart with
    | nil => exact Nat.le_refl _
    | cons c raw ih =>
      have hc := hlowered (n.separator c)
      have hleading := ih atPathStart
      have hrest := ih false
      unfold KeyNormalizer.normalizeFrom
      rw [List.length_cons]
      split
      . omega
      . split
        . omega
        . rw [List.length_append]
          omega
  have h := hutf8 (n.normalizeText p raw)
  have h' := hfrom true
  rw [KeyNormalizer.normalizeText] at h ⊢
  omega

theorem UnicodeEncoding.length_le_encode (encoding : UnicodeEncoding) (s : Str)
    : s.length ≤ (encoding.encode s).length := by
  cases encoding with
  | utf8 =>
    have h := @mul_le_length_flatMap _ _ String.utf8EncodeChar 1 s fun c _ => by
      rw [String.length_utf8EncodeChar]
      exact c.utf8Size_pos
    rwa [Nat.mul_one] at h
  | utf16Le =>
    have h := @mul_le_length_flatMap _ _ utf16Units 1 s fun c _ => by
      unfold utf16Units
      split <;> exact Nat.le_of_ble_eq_true rfl
    rw [Nat.mul_one] at h
    rw [encode, length_utf16le]
    omega

namespace Volume

variable {volume : Volume} {options : OpenOptions} {header : Header} {file : MdictFile}
variable {p : Platform} {i : Nat}

/-! ## Reading blocks -/

/-- A block of a section is read where the blocks before it end. -/
theorem readBlock_yields (hfits : volume.Fits options.limits) {k : Nat} {blocks : List Bytes}
    {block : Bytes} (hsection : volume.sections[k]? = some blocks.flatten)
    (hblock : blocks[i]? = some block) (context : String)
    : Yields p (volume.source.readExactAt
        (volume.offset k + Search.start (blocks.map List.length) i) block.length context)
        (.ok block) := by
  obtain ⟨hlt, rfl⟩ := List.getElem?_eq_some_iff.mp hblock
  have hlen : Search.start (blocks.map List.length) i + blocks[i].length ≤ blocks.flatten.length := by
    have hnext := @Search.start_succ (blocks.map List.length) i (by rw [List.length_map]; exact hlt)
    have hsum := Search.start_le_sum (blocks.map List.length) (i + 1)
    rw [List.getElem_map] at hnext
    rw [List.length_flatten]
    omega
  have hle := section_le hsection
  have hread := @readExactAt_yields p volume.source
    (volume.offset k + Search.start (blocks.map List.length) i) blocks[i].length
    (by change _ ≤ volume.bytes.length; omega) hfits.lt context
  have hinner := Search.slice_flatten (a := 0) hblock (Nat.le_refl blocks[i].length)
  have houter := Search.slice_flatten (a := Search.start (blocks.map List.length) i + 0) hsection
    hlen
  rw [Nat.add_zero] at hinner houter
  rw [hinner, Search.slice_zero_length] at houter
  rw [Nat.add_assoc] at hread
  change Search.slice volume.bytes (volume.offset k + _) (volume.offset k + _) = _ at houter
  change Yields p _ (.ok (Search.slice volume.bytes _ _)) at hread
  rwa [houter] at hread

/-! ## Keys -/

theorem Fits.keySummaryMatches (hfits : volume.Fits options.limits)
    (hlower : ∀ character, (p.toLowercase character).length ≤ 3) {rows : List DecodedKeyRow}
    (hrows : rows ∈ volume.rows) {row : DecodedKeyRow} (hrow : row ∈ rows)
    : Yields p (file.keySummaryMatches row.key row.key) (.ok true) := by
  have hgrow := length_normalizeText_le_mul file.normalizer hlower row.key
  have hencode := volume.encoding.length_le_encode row.key
  have hpayload := volume.length_encode_le hrow
  have hblock := length_envelope_le hrows
  have hlength := length_envelope (volume.keyPayload rows)
  have hbytes : volume.keyBlockBytes.length ≤ volume.bytes.length :=
    length_le_of_mem (by simp [sections])
  have hbound := hfits.length
  have hlt : (Unicode.utf8 (file.normalizer.normalizeText p row.key)).length < u64Bound := by omega
  have hlen := file.normalizer.normalizedLen_of_lt p hlt
  have htext := file.normalizer.normalize_of_lt p hlt
  unfold MdictFile.keySummaryMatches
  refine .platform_bind <| .ok_bind hlen <| .ok_bind hlen <|
    .ok_bind (okOr_eq_ok.mpr (checkedAdd_of_lt (by omega))) <| .reserve_bind <|
    .ok_bind htext <| .ok_bind htext ?_
  rw [beq_self_eq_true]
  exact .pure

theorem Fits.decodeKeyRows (hfits : volume.Fits options.limits) {rows : List DecodedKeyRow}
    (hrows : rows ∈ volume.rows) (p : Platform)
    : volume.version.wire.decodeKeyRows p (volume.keyPayload rows)
        { encoding := volume.encoding.text, expectedEntries := rows.length
          totalDecodedRecordLen := volume.recordBlocks.flatten.length } = .ok rows := by
  have hpayload := volume.length_le_keyPayload rows
  have hblock := length_envelope_le hrows
  have hlength := length_envelope (volume.keyPayload rows)
  have hbytes : volume.keyBlockBytes.length ≤ volume.bytes.length :=
    length_le_of_mem (by simp [sections])
  have hbound := hfits.length
  have hstarts := startsFrom_of_mem hrows
  have hrecords : volume.recordBlocks.flatten.length < 256 ^ volume.version.width :=
    Nat.lt_of_le_of_lt volume.length_recordBlocks_le (hfits.lt_width _ (by simp))
  have hstart : ∀ row ∈ rows, row.recordStart < 256 ^ volume.version.width :=
    fun row hrow => Nat.lt_of_le_of_lt (hstarts.1 row hrow).2 hrecords
  unfold keyPayload at hlength hblock hpayload ⊢
  cases hversion : volume.version with
  | v1 =>
    rw [hversion] at hstart hlength hblock hpayload
    exact decodeKeyRowsWith_restores (fun row hrow => Cursor.readU32Be_restores _ (hstart row hrow))
      rfl rfl (terminated_of_mem hrows) hstarts (by omega) (by omega)
  | v2 =>
    rw [hversion] at hstart hlength hblock hpayload
    exact decodeKeyRowsWith_restores (fun row hrow => Cursor.readU64Be_restores _ (hstart row hrow))
      rfl rfl (terminated_of_mem hrows) hstarts (by omega) (by omega)

/-- A key block decodes to the rows that were written. -/
theorem IsOpen.ownRows (hopen : volume.IsOpen options header file)
    (hfits : volume.Fits options.limits)
    (hlower : ∀ character, (p.toLowercase character).length ≤ 3) {rows : List DecodedKeyRow}
    (h : volume.rows[i]? = some rows)
    : file.ownRows p i = .ok rows := by
  have hrows := List.mem_of_getElem? h
  have hne := rows_ne_nil hrows
  have hindexRow : (volume.rows.map volume.indexRow)[i]? = some (volume.indexRow rows) := by
    rw [List.getElem?_map, h, Option.map_some]
  obtain ⟨entryStartIndex, hblock⟩ :=
    getElem?_keyBlocksAt (volume.offset 3) 0 hindexRow
  have henvelope : (volume.rows.map fun rows => envelope (volume.keyPayload rows))[i]?
      = some (envelope (volume.keyPayload rows)) := by
    rw [List.getElem?_map, h, Option.map_some]
  have hread := readBlock_yields (p := p) hfits (k := 3) rfl henvelope "key block"
  have hsizes : (volume.rows.map fun rows => envelope (volume.keyPayload rows)).map List.length
      = (volume.rows.map volume.indexRow).map (·.compSize) := by
    rw [List.map_map, List.map_map]
    rfl
  rw [hsizes] at hread
  obtain ⟨hcomp, hdecomp⟩ := hfits.payloads (volume.keyPayload rows)
    (List.mem_append_left _ (List.mem_append_right _ (List.mem_map_of_mem hrows)))
  have hdecode := decodeBlock_envelope (p := p) options.checksumPolicy "key block" hcomp hdecomp
  have hparse := hfits.decodeKeyRows hrows p
  have hentries := volume.length_keyPayload rows
  have hwidth : 4 ≤ volume.version.width := by
    cases volume.version <;> decide
  have hcount : rows.length * 4 ≤ (volume.keyPayload rows).length :=
    (Nat.mul_le_mul_left _ (by omega)).trans hentries
  have hlength := length_envelope (volume.keyPayload rows)
  have hle := length_envelope_le hrows
  have hbytes : volume.keyBlockBytes.length ≤ volume.bytes.length :=
    length_le_of_mem (by simp [sections])
  have hbound := hfits.length
  obtain ⟨decodedLen, hdecoded, hdecodedLe⟩ := volume.encoding.exists_maxDecodedLen p
    (show 64 * (volume.keyPayload rows).length < u64Bound by omega)
  have hmetadata : checkedMul rows.length sizeOfDecodedKeyRow
      = some (rows.length * sizeOfDecodedKeyRow) := by
    unfold sizeOfDecodedKeyRow
    exact checkedMul_of_lt (by omega)
  have hretained : checkedAdd decodedLen (rows.length * sizeOfDecodedKeyRow)
      = some (decodedLen + rows.length * sizeOfDecodedKeyRow) := by
    unfold sizeOfDecodedKeyRow
    exact checkedAdd_of_lt (by omega)
  have hfirst := List.head?_eq_some_head hne
  have hlast := List.getLast?_eq_some_getLast hne
  have hboundaries : Yields p (file.boundariesMatch (rows.head hne) (rows.getLast hne)
      { entryCount := (volume.indexRow rows).entryCount, entryStartIndex
        firstKey := (volume.indexRow rows).firstKey, lastKey := (volume.indexRow rows).lastKey
        compOffset := volume.offset 3
          + Search.start ((volume.rows.map volume.indexRow).map (·.compSize)) i
        compSize := (volume.indexRow rows).compSize
        decompSize := (volume.indexRow rows).decompSize }) (.ok true) := by
    unfold MdictFile.boundariesMatch
    dsimp only [indexRow]
    rw [hfirst, hlast]
    exact (hfits.keySummaryMatches hlower hrows (List.head_mem hne)).bind_ok
      (hfits.keySummaryMatches hlower hrows (List.getLast_mem hne))
  have hcompSize : (envelope (volume.keyPayload rows)).length < u64Bound := by omega
  have hdecompSize : (volume.keyPayload rows).length < u64Bound := by omega
  have hentryCount : rows.length < u64Bound := by omega
  apply Yields.outcome_eq
  unfold MdictFile.decodeKeyBlockUncached
  rw [hopen.layout, hopen.source, hopen.limits, hopen.policy]
  exact .ok_bind (okOr_eq_ok.mpr hblock) <| .ok_bind (checkedUsize_of_lt hcompSize) <|
    .ok_bind (checkedUsize_of_lt hdecompSize) <| .ok_bind (checkedUsize_of_lt hentryCount) <|
    .platform_bind <| .ok_bind hdecoded <| .ok_bind (okOr_eq_ok.mpr hmetadata) <|
    .ok_bind (okOr_eq_ok.mpr hretained) <| .reserve_bind <| .reserve_bind <| .reserve_bind <|
    hread.bind_ok <| hdecode.bind_ok <| .ok_bind hparse <| .ok_bind (okOr_eq_ok.mpr hfirst) <|
    .ok_bind (okOr_eq_ok.mpr hlast) <| hboundaries.bind_ok <|
    .ok_bind (failIf_of_not (not_not_intro rfl)) .pure

/-- On a fresh handle, too: the starts do not decrease from one block to the next. -/
theorem IsOpen.decodesTo (hopen : volume.IsOpen options header file)
    (hfits : volume.Fits options.limits)
    (hlower : ∀ character, (p.toLowercase character).length ≤ 3)
    : file.DecodesTo p volume.rows where
  length_eq := by
    rw [MdictFile.keyBlockCount, hopen.layout]
    change _ = (keyBlocksAt _ _ _).length
    rw [length_keyBlocksAt, List.length_map]
  freshRows := by
    intro i rows hrows
    refine (file.freshRows_eq_ok p).mpr ⟨hopen.ownRows hfits hlower hrows, ?_⟩
    rintro previous rfl
    obtain ⟨hlt, hrow⟩ := List.getElem?_eq_some_iff.mp hrows
    have hlt' : previous < volume.rows.length := by omega
    refine ⟨_, hopen.ownRows hfits hlower (List.getElem?_eq_getElem hlt'), ?_⟩
    intro last first hlast hfirst
    have hpairwise := (List.pairwise_flatten.mp volume.startsFrom_rows.2).2
    have hordered := List.pairwise_iff_getElem.mp hpairwise _ _ hlt' hlt (Nat.lt_succ_self _)
    rw [hrow] at hordered
    exact hordered _ (List.mem_of_getLast? hlast) _ (List.mem_of_head? hfirst)

/-! ## Records -/

/-- A record block decodes to what was written. -/
theorem IsOpen.ownRecords (hopen : volume.IsOpen options header file)
    (hfits : volume.Fits options.limits) {block : Bytes}
    (h : volume.recordBlocks[i]? = some block)
    : file.ownRecords p i = .ok block := by
  have hmem := List.mem_of_getElem? h
  have hsize : volume.recordSizes[i]? = some ((envelope block).length, block.length) := by
    rw [recordSizes, List.getElem?_map, h, Option.map_some]
  obtain ⟨decompOffset, hblock⟩ :=
    getElem?_recordBlocksAt (volume.offset 6) 0 hsize
  have henvelope : (volume.recordBlocks.map envelope)[i]? = some (envelope block) := by
    rw [List.getElem?_map, h, Option.map_some]
  have hread := readBlock_yields (p := p) hfits (k := 6) rfl henvelope "record block"
  have hsizes : (volume.recordBlocks.map envelope).map List.length
      = volume.recordSizes.map (·.1) := by
    rw [recordSizes, List.map_map, List.map_map]
    rfl
  rw [hsizes] at hread
  obtain ⟨hcomp, hdecomp⟩ := hfits.payloads block (List.mem_append_right _ hmem)
  have hdecode := decodeBlock_envelope (p := p) options.checksumPolicy "record block" hcomp hdecomp
  have hlength := length_envelope block
  have hle := length_record_le hmem
  have hbytes : volume.recordBlockBytes.length ≤ volume.bytes.length :=
    length_le_of_mem (by simp [sections])
  have hbound := hfits.length
  have hcompSize : (envelope block).length < u64Bound := by omega
  have hdecompSize : block.length < u64Bound := by omega
  apply Yields.outcome_eq
  unfold MdictFile.decodeRecordBlockUncached
  rw [hopen.layout, hopen.source, hopen.limits, hopen.policy]
  exact .ok_bind (okOr_eq_ok.mpr hblock) <| .ok_bind (checkedUsize_of_lt hcompSize) <|
    .ok_bind (checkedUsize_of_lt hdecompSize) <| .reserve_bind <| .reserve_bind <|
    hread.bind_ok hdecode

theorem IsOpen.recordsDecodeTo (hopen : volume.IsOpen options header file)
    (hfits : volume.Fits options.limits)
    : file.RecordsDecodeTo p volume.recordBlocks where
  length_eq := by
    rw [hopen.layout]
    change _ = (recordBlocksAt _ _ _).length
    rw [length_recordBlocksAt, List.length_map]
  ownRecords := fun _ _ hblock => hopen.ownRecords hfits hblock

end Volume

end Mdict
