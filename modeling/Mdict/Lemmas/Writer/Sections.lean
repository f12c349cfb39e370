import Mdict.Lemmas.Checksum
import Mdict.Lemmas.Session
import Mdict.Lemmas.Writer.Rows
import Mdict.Core.File

/-!
This module contains that the sections of a written file are parsed to what they were written for.
-/

namespace Mdict

open Effect Unicode

/-! ## Programs that leave the caches alone -/

namespace Yields

variable {α β : Type} {p : Platform} {r : Except Error β}

/-- What succeeds without touching the world goes on with its value. -/
theorem ok_bind {x : Except Error α} {a : α} {f : α → Exec β} (hx : x = .ok a)
    (hf : Yields p (f a) r)
    : Yields p (MonadLiftT.monadLift x >>= f) r := by
  subst hx
  exact Yields.liftM.bind_ok hf

theorem reserve_bind {bytes : Nat} {context : String} {f : Unit → Exec β} (hf : Yields p (f ()) r)
    : Yields p (Exec.reserve bytes context >>= f) r :=
  Yields.reserve.bind_ok hf

theorem platform_bind {f : Platform → Exec β} (hf : Yields p (f p) r)
    : Yields p (Exec.platform >>= f) r :=
  Yields.platform.bind_ok hf

end Yields

/-! ## Rows -/

theorem map_key_rowsFrom (start : Nat) (entries : List (Str × Bytes))
    : (rowsFrom start entries).map (·.key) = entries.map (·.1) := by
  induction entries generalizing start with
  | nil => rfl
  | cons entry entries ih =>
    rw [rowsFrom, List.map_cons, List.map_cons, ih]

theorem length_rowsFrom (start : Nat) (entries : List (Str × Bytes))
    : (rowsFrom start entries).length = entries.length := by
  have h := congrArg List.length (map_key_rowsFrom start entries)
  rwa [List.length_map, List.length_map] at h

theorem rowsFrom_append (start : Nat) (entries others : List (Str × Bytes))
    : rowsFrom start (entries ++ others)
        = rowsFrom start entries
          ++ rowsFrom (start + (entries.flatMap (·.2)).length) others := by
  induction entries generalizing start with
  | nil => rfl
  | cons entry entries ih =>
    rw [List.cons_append, rowsFrom, rowsFrom, ih, List.flatMap_cons, List.length_append,
      List.cons_append, Nat.add_assoc]

/-- The rows of all blocks are those of all entries. -/
theorem flatten_blocksFrom (start : Nat) (blocks : List (List (Str × Bytes)))
    : (blocksFrom start blocks).flatten = rowsFrom start blocks.flatten := by
  induction blocks generalizing start with
  | nil => rfl
  | cons entries blocks ih =>
    rw [blocksFrom, List.flatten_cons, List.flatten_cons, ih, rowsFrom_append]

theorem map_length_blocksFrom (start : Nat) (blocks : List (List (Str × Bytes)))
    : (blocksFrom start blocks).map List.length = blocks.map List.length := by
  induction blocks generalizing start with
  | nil => rfl
  | cons entries blocks ih =>
    rw [blocksFrom, List.map_cons, List.map_cons, ih, length_rowsFrom]

/-- Records start one after the other. -/
theorem startsFrom_rowsFrom {total start : Nat} {entries : List (Str × Bytes)}
    (h : start + (entries.flatMap (·.2)).length ≤ total)
    : StartsFrom total start (rowsFrom start entries) := by
  induction entries generalizing start with
  | nil => exact .nil
  | cons entry entries ih =>
    rw [List.flatMap_cons, List.length_append] at h
    have ih := ih (by omega : start + entry.2.length + _ ≤ total)
    refine StartsFrom.cons ⟨?_, ih.2⟩ (Nat.le_refl _) (by dsimp only; omega)
    intro row hrow
    have := ih.1 row hrow
    dsimp only
    omega

/-- Parts of at least `n` bytes each. -/
theorem mul_le_length_flatMap {α β : Type} {f : α → List β} {n : Nat} {as : List α}
    (h : ∀ a ∈ as, n ≤ (f a).length)
    : as.length * n ≤ (as.flatMap f).length := by
  induction as with
  | nil =>
    rw [List.length_nil, Nat.zero_mul]
    exact Nat.zero_le _
  | cons a as ih =>
    have hhead := h a List.mem_cons_self
    have ih := ih fun b hb => h b (List.mem_cons_of_mem _ hb)
    rw [List.flatMap_cons, List.length_append, List.length_cons, Nat.succ_mul]
    omega

/-! ## Envelopes -/

@[simp]
theorem length_envelope (payload : Bytes) : (envelope payload).length = payload.length + 8 := by
  rw [envelope, List.length_append, List.length_append, Bytes.length_ofBE]
  exact Nat.add_comm _ _

theorem verifyChecksum_adler32 (policy : ChecksumPolicy) (context : String) (bytes : Bytes)
    : verifyChecksum policy context bytes (adler32 bytes) = .ok () := by
  cases policy with
  | skip => rfl
  | verify => exact failIf_of_not (not_not_intro rfl)

/-- An envelope is opened to its payload, whatever the policy. -/
theorem decodeBlock_envelope {p : Platform} {payload : Bytes} {limits : Limits}
    (policy : ChecksumPolicy) (context : String)
    (hcompressed : payload.length + 8 ≤ limits.compressedBlockBytes)
    (hdecompressed : payload.length ≤ limits.decompressedBlockBytes)
    : Yields p (decodeBlock context (envelope payload) payload.length limits policy)
        (.ok payload) := by
  have htag : (envelope payload).take 4 = [0, 0, 0, 0] := rfl
  have hdrop : (envelope payload).drop 4 = Bytes.ofBE 4 (adler32 payload) ++ payload := rfl
  have hchecksum : ((envelope payload).drop 4).take 4 = Bytes.ofBE 4 (adler32 payload) := by
    rw [hdrop, List.take_left' (Bytes.length_ofBE _ _)]
  have hpayload : (envelope payload).drop 8 = payload := by
    change ((envelope payload).drop 4).drop 4 = payload
    rw [hdrop, List.drop_left' (Bytes.length_ofBE _ _)]
  have hplain : Yields p (decodeUncompressedBlock context payload payload.length) (.ok payload) := by
    unfold decodeUncompressedBlock
    exact .ok_bind (failIf_of_not (by simp)) <| Yields.log.bind_ok .pure
  unfold decodeBlock
  rw [htag, hchecksum, hpayload, Bytes.toBE_ofBE_of_lt (adler32_lt payload)]
  refine .ok_bind (failIf_of_not (by rw [length_envelope]; omega)) <|
    .ok_bind (ensureLimit_of_le (by rw [length_envelope]; exact hcompressed)) <|
    .ok_bind (ensureLimit_of_le hdecompressed) <| .ok_bind rfl <| .platform_bind <|
    hplain.bind_ok <| .ok_bind (failIf_of_not (by simp)) <|
    .ok_bind (verifyChecksum_adler32 _ _ _) .pure

/-! ## Ranges of a file -/

section

variable {p : Platform} {source : FileSource} {offset len : Nat}

theorem ensureRange_of_le (h : offset + len ≤ source.len) (hlen : source.len < u64Bound)
    (context : String)
    : source.ensureRange offset len context = .ok () := by
  unfold FileSource.ensureRange
  rw [checkedAdd_of_lt (by omega), okOr_some, except_ok_bind, failIf_of_not (by omega)]

theorem readExactAt_yields (h : offset + len ≤ source.len) (hlen : source.len < u64Bound)
    (context : String)
    : Yields p (source.readExactAt offset len context)
        (.ok (Search.slice source.bytes offset (offset + len))) := by
  unfold FileSource.readExactAt Search.slice
  rw [Nat.add_sub_cancel_left]
  exact .ok_bind (ensureRange_of_le h hlen _) <| Yields.log.bind_ok <| Yields.io.bind_ok .pure

end

namespace Volume

variable {volume : Volume} {limits : Limits} {p : Platform} {i : Nat} {part : Bytes}

/-- The file that was written. -/
def source (volume : Volume) : FileSource := { bytes := volume.bytes }

theorem offset_succ (h : volume.sections[i]? = some part)
    : volume.offset (i + 1) = volume.offset i + part.length := by
  obtain ⟨hlt, rfl⟩ := List.getElem?_eq_some_iff.mp h
  rw [offset, Search.start_succ (by rw [List.length_map]; exact hlt), List.getElem_map]
  rfl

theorem offset_le (volume : Volume) (i : Nat) : volume.offset i ≤ volume.bytes.length := by
  rw [bytes, List.length_flatten]
  exact Search.start_le_sum _ _

theorem section_le (h : volume.sections[i]? = some part)
    : volume.offset i + part.length ≤ volume.bytes.length := by
  rw [← offset_succ h]
  exact volume.offset_le _

theorem Fits.lt (h : volume.Fits limits) : volume.source.len < u64Bound := by
  have := h.length
  have : volume.source.len = volume.bytes.length := rfl
  omega

theorem slice_section (h : volume.sections[i]? = some part)
    : Search.slice volume.bytes (volume.offset i) (volume.offset i + part.length) = part := by
  have hslice := Search.slice_flatten (a := 0) h (Nat.le_refl part.length)
  rw [Nat.add_zero, Search.slice_zero_length] at hslice
  exact hslice

theorem readSection_yields (hfits : volume.Fits limits) (h : volume.sections[i]? = some part)
    (context : String)
    : Yields p (volume.source.readExactAt (volume.offset i) part.length context) (.ok part) := by
  have hread := @readExactAt_yields p volume.source _ _ (section_le h) hfits.lt context
  rwa [source, slice_section h] at hread

theorem ensureSection (hfits : volume.Fits limits) (h : volume.sections[i]? = some part)
    (context : String)
    : volume.source.ensureRange (volume.offset i) part.length context = .ok () :=
  ensureRange_of_le (section_le h) hfits.lt context

/-! ## Sizes -/

theorem length_rows (volume : Volume) : volume.rows.length = volume.keyBlocks.length := by
  have h := congrArg List.length (map_length_blocksFrom 0 volume.keyBlocks)
  rwa [List.length_map, List.length_map] at h

theorem flatten_rows (volume : Volume) : volume.rows.flatten = rowsFrom 0 volume.entries :=
  flatten_blocksFrom 0 volume.keyBlocks

/-- Every block has rows. -/
theorem rows_ne_nil {rows : List DecodedKeyRow} (h : rows ∈ volume.rows) : rows ≠ [] := by
  have hlen := List.mem_map_of_mem (f := List.length) h
  rw [Volume.rows, map_length_blocksFrom, List.mem_map] at hlen
  obtain ⟨block, hblock, hlen⟩ := hlen
  have hpos := List.length_pos_of_ne_nil (volume.keyBlocks_ne_nil block hblock)
  exact List.ne_nil_of_length_pos (by omega)

theorem length_records (volume : Volume)
    : (volume.entries.flatMap (·.2)).length = volume.recordBlocks.flatten.length := by
  rw [volume.recordBlocks_flatten]
  rfl

/-- The records of all rows start one after the other in the record stream. -/
theorem startsFrom_rows (volume : Volume)
    : StartsFrom volume.recordBlocks.flatten.length 0 volume.rows.flatten := by
  rw [flatten_rows]
  apply startsFrom_rowsFrom
  rw [length_records]
  omega

theorem startsFrom_of_mem {rows : List DecodedKeyRow} (h : rows ∈ volume.rows)
    : StartsFrom volume.recordBlocks.flatten.length 0 rows := by
  have hall := volume.startsFrom_rows
  exact ⟨fun row hrow => hall.1 row (List.mem_flatten.mpr ⟨rows, h, hrow⟩),
    hall.2.sublist (List.sublist_flatten_of_mem h)⟩

theorem terminated_of_mem {rows : List DecodedKeyRow} (h : rows ∈ volume.rows)
    : ∀ row ∈ rows, Char.ofNat 0 ∉ row.key := by
  intro row hrow
  have hmem : row.key ∈ (volume.rows.flatten).map (·.key) :=
    List.mem_map_of_mem (List.mem_flatten.mpr ⟨rows, h, hrow⟩)
  rw [flatten_rows, map_key_rowsFrom, List.mem_map] at hmem
  obtain ⟨entry, hentry, hkey⟩ := hmem
  rw [← hkey]
  exact volume.keys_terminated entry hentry

/-- A row takes at least its record start and a terminator. -/
theorem length_keyPayload (volume : Volume) (rows : List DecodedKeyRow)
    : rows.length * (volume.version.width + volume.encoding.text.unitSize)
        ≤ (volume.keyPayload rows).length := by
  apply mul_le_length_flatMap
  intro row _
  have hterminator : volume.encoding.terminator.length = volume.encoding.text.unitSize :=
    List.length_replicate
  rw [encodeKeyRow, List.length_append, List.length_append, Bytes.length_ofBE, hterminator]
  omega

theorem length_le_keyPayload (volume : Volume) (rows : List DecodedKeyRow)
    : rows.length ≤ (volume.keyPayload rows).length := by
  have h := volume.length_keyPayload rows
  have hpos := volume.encoding.unitSize_pos
  exact (Nat.le_mul_of_pos_right _ (by omega)).trans h

theorem length_envelope_le {rows : List DecodedKeyRow} (h : rows ∈ volume.rows)
    : (envelope (volume.keyPayload rows)).length ≤ volume.keyBlockBytes.length := by
  have hmem : envelope (volume.keyPayload rows)
      ∈ volume.rows.map fun rows => envelope (volume.keyPayload rows) :=
    List.mem_map_of_mem (f := fun rows => envelope (volume.keyPayload rows)) h
  exact (List.sublist_flatten_of_mem hmem).length_le

/-- The metadata says how long all blocks are together. -/
theorem sum_compSize (volume : Volume)
    : ((volume.rows.map volume.indexRow).map (·.compSize)).sum = volume.keyBlockBytes.length := by
  rw [keyBlockBytes, List.length_flatten, List.map_map, List.map_map]
  rfl

theorem sum_entryCount (volume : Volume)
    : ((volume.rows.map volume.indexRow).map (·.entryCount)).sum = volume.entries.length := by
  rw [entries, List.length_flatten, ← map_length_blocksFrom 0, List.map_map]
  rfl

/-- A block takes at least a byte for each of its entries. -/
theorem sum_entryCount_le (volume : Volume) (blocks : List (List DecodedKeyRow))
    : ((blocks.map volume.indexRow).map (·.entryCount)).sum
        ≤ ((blocks.map volume.indexRow).map (·.compSize)).sum := by
  induction blocks with
  | nil => exact Nat.le_refl _
  | cons rows blocks ih =>
    have hle := volume.length_le_keyPayload rows
    have hlength := length_envelope (volume.keyPayload rows)
    simp only [List.map_cons, List.sum_cons, indexRow] at ih ⊢
    omega

theorem length_entries_le (volume : Volume)
    : volume.entries.length ≤ volume.keyBlockBytes.length := by
  rw [← sum_entryCount, ← sum_compSize]
  exact volume.sum_entryCount_le _

theorem length_keyBlocks_le (volume : Volume)
    : volume.keyBlocks.length ≤ volume.entries.length := by
  have h := @mul_le_length_flatMap _ _ id 1 volume.keyBlocks
    fun block hblock => List.length_pos_of_ne_nil (volume.keyBlocks_ne_nil block hblock)
  rwa [Nat.mul_one, List.flatMap_id] at h

/-! ## Bounds -/

theorem length_le_of_mem (h : part ∈ volume.sections) : part.length ≤ volume.bytes.length :=
  (List.sublist_flatten_of_mem h).length_le

/-- What the width of the fields bounds. -/
theorem Fits.lt_width (hfits : volume.Fits limits) (part : Bytes)
    (h : part ∈ [volume.keyIndex, volume.keyBlockBytes, volume.recordIndex, volume.recordBlockBytes])
    : part.length < 256 ^ volume.version.width := by
  cases hversion : volume.version with
  | v1 => exact hfits.narrow hversion part h
  | v2 =>
    have hindex : volume.keyIndex.length ≤ volume.keywordIndex.length := by
      rw [Volume.keywordIndex, hversion, length_envelope]
      omega
    have hle : part.length ≤ volume.bytes.length := by
      simp only [List.mem_cons, List.not_mem_nil, or_false] at h
      rcases h with rfl | rfl | rfl | rfl
      . exact hindex.trans (length_le_of_mem (by simp [sections]))
      . exact length_le_of_mem (by simp [sections])
      . exact length_le_of_mem (by simp [sections])
      . exact length_le_of_mem (by simp [sections])
    have hlt := hfits.lt
    exact Nat.lt_of_le_of_lt hle hlt

theorem length_encode_le (volume : Volume) {rows : List DecodedKeyRow} {row : DecodedKeyRow}
    (h : row ∈ rows)
    : (volume.encoding.encode row.key).length ≤ (volume.keyPayload rows).length := by
  have hrow : (encodeKeyRow volume.version.width volume.encoding row).length
      ≤ (volume.keyPayload rows).length :=
    (List.sublist_flatten_of_mem (List.mem_map_of_mem h)).length_le
  rw [encodeKeyRow, List.length_append, List.length_append] at hrow
  omega

/-- What the metadata says about a block can be written. -/
theorem Fits.indexRow_fits (hfits : volume.Fits limits) {rows : List DecodedKeyRow}
    (h : rows ∈ volume.rows)
    : (volume.indexRow rows).Fits volume.version volume.encoding := by
  have hblock := hfits.lt_width volume.keyBlockBytes (by simp)
  have henvelope := length_envelope_le h
  have hlength := length_envelope (volume.keyPayload rows)
  have hrows := volume.length_le_keyPayload rows
  have hbytes : volume.keyBlockBytes.length ≤ volume.bytes.length :=
    length_le_of_mem (by simp [sections])
  have hbound := hfits.length
  have hsummary : ∀ row ∈ rows, SummaryFits volume.version volume.encoding row.key := by
    intro row hrow
    have hkey := volume.length_encode_le hrow
    exact ⟨hfits.summaries rows h row hrow, by omega⟩
  have hne := rows_ne_nil h
  refine ⟨?_, ?_, ?_, ?_, ?_⟩ <;> dsimp only [indexRow]
  . omega
  . rw [List.head?_eq_some_head hne]
    exact hsummary _ (List.head_mem hne)
  . rw [List.getLast?_eq_some_getLast hne]
    exact hsummary _ (List.getLast_mem hne)
  . omega
  . omega

end Volume

end Mdict
