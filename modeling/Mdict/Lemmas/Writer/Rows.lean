import Mdict.Lemmas.KeyRows
import Mdict.Lib.Scan
import Mdict.Writer

/-!
This module contains that the readers of numbers, texts and rows restore what was written, whatever
comes behind it.
-/

namespace Mdict

open Effect Unicode

namespace Cursor

variable {α : Type} {cursor cursor' : Cursor} {tail : Bytes}

/--
What is left to read is `tail`. There are so few bytes that no computation of a position or of a size
in memory overflows.
-/
structure At (cursor : Cursor) (tail : Bytes) : Prop where
  bound : 64 * cursor.bytes.length < u64Bound
  offset_le : cursor.offset ≤ cursor.bytes.length
  rest_eq : cursor.rest = tail

theorem at_new {bytes : Bytes} (h : 64 * bytes.length < u64Bound) : (Cursor.new bytes).At bytes :=
  ⟨h, Nat.zero_le _, rfl⟩

theorem at_new_of_eq {bytes : Bytes} (h : 64 * bytes.length < u64Bound) (heq : bytes = tail)
    : (Cursor.new bytes).At tail := by
  subst heq
  exact at_new h

theorem At.length_le (h : cursor.At tail) : 64 * tail.length < u64Bound := by
  have hlen := congrArg List.length h.rest_eq
  rw [rest, List.length_drop] at hlen
  have := h.bound
  omega

theorem At.isEmpty (h : cursor.At []) : cursor.isEmpty = true :=
  isEmpty_iff.mpr h.rest_eq

/-- A reader reads `a` off its bytes, whatever comes behind them. -/
def Restores (read : Cursor → Except Error (α × Cursor)) (bytes : Bytes) (a : α) : Prop :=
  ∀ cursor tail, cursor.At (bytes ++ tail) →
    ∃ cursor', read cursor = .ok (a, cursor') ∧ cursor'.At tail

theorem readBytes_restores {part : Bytes} {len : Nat} {context : String} (hlen : part.length = len)
    : Restores (readBytes · len context) part part := by
  rintro cursor tail ⟨hbound, hoffset, hrest⟩
  have hlength := congrArg List.length hrest
  rw [rest, List.length_drop, List.length_append] at hlength
  have hadd : checkedAdd cursor.offset len = some (cursor.offset + len) := by
    rw [checkedAdd_eq_some]
    omega
  have hget : cursor.bytes.get? cursor.offset (cursor.offset + len) = some part := by
    rw [Bytes.get?_eq_some_iff]
    refine ⟨Nat.le_add_right _ _, by omega, ?_⟩
    change part = (cursor.rest).take _
    rw [Nat.add_sub_cancel_left, hrest, List.take_left' hlen]
  refine ⟨{ cursor with offset := cursor.offset + len }, ?_, ⟨hbound, by dsimp only; omega, ?_⟩⟩
  . dsimp only
    unfold readBytes
    rw [hadd, okOr_some, except_ok_bind, hget, okOr_some, except_ok_bind]
    rfl
  . change cursor.bytes.drop _ = tail
    rw [← List.drop_drop]
    change (cursor.rest).drop len = tail
    rw [hrest, List.drop_left' hlen]

namespace Restores

variable {β γ : Type} {read : Cursor → Except Error (α × Cursor)} {part part' : Bytes}
variable {a : α} {b : β}

theorem pure : Restores (fun cursor => Pure.pure (a, cursor)) [] a :=
  fun cursor _ hat => ⟨cursor, rfl, hat⟩

theorem bind {f : α × Cursor → Except Error (β × Cursor)} (h : Restores read part a)
    (hf : Restores (fun cursor => f (a, cursor)) part' b)
    : Restores (fun cursor => read cursor >>= f) (part ++ part') b := by
  intro cursor tail hat
  rw [List.append_assoc] at hat
  obtain ⟨cursor', hread, hat'⟩ := h cursor _ hat
  obtain ⟨cursor'', hrun, hat''⟩ := hf cursor' tail hat'
  exact ⟨cursor'', by dsimp only; rw [hread]; exact hrun, hat''⟩

/-- What is computed between two reads takes no bytes. -/
theorem ok_bind {x : Except Error γ} {c : γ} {f : γ → Cursor → Except Error (β × Cursor)}
    (hx : x = .ok c) (hf : Restores (f c) part b)
    : Restores (fun cursor => x >>= fun c => f c cursor) part b := by
  rw [hx]
  exact hf

theorem of_eq (h : Restores read part a) (heq : part = part') : Restores read part' a := heq ▸ h

end Restores

/-- A number is restored when its bytes are as many as are read. -/
theorem readNumber_restores {width v : Nat} {part : Bytes} {decode : Bytes → Nat} {context : String}
    {read : Cursor → String → Except Error (Nat × Cursor)}
    (hread : ∀ cursor, read cursor context
      = cursor.readBytes width context >>= fun part => .ok (decode part.1, part.2))
    (hlen : part.length = width) (hdecode : decode part = v)
    : Restores (read · context) part v := by
  intro cursor tail hat
  obtain ⟨cursor', hrun, hat'⟩ := readBytes_restores hlen cursor tail hat
  refine ⟨cursor', ?_, hat'⟩
  dsimp only at hrun ⊢
  rw [hread, hrun, except_ok_bind, hdecode]

variable {v : Nat}

theorem readU8_restores (context : String) (h : v < 256 ^ 1)
    : Restores (readU8 · context) (Bytes.ofBE 1 v) v :=
  readNumber_restores (fun _ => rfl) (Bytes.length_ofBE 1 v) (Bytes.toBE_ofBE_of_lt h)

theorem readU16Be_restores (context : String) (h : v < 256 ^ 2)
    : Restores (readU16Be · context) (Bytes.ofBE 2 v) v :=
  readNumber_restores (fun _ => rfl) (Bytes.length_ofBE 2 v) (Bytes.toBE_ofBE_of_lt h)

theorem readU32Be_restores (context : String) (h : v < 256 ^ 4)
    : Restores (readU32Be · context) (Bytes.ofBE 4 v) v :=
  readNumber_restores (fun _ => rfl) (Bytes.length_ofBE 4 v) (Bytes.toBE_ofBE_of_lt h)

theorem readU32Le_restores (context : String) (h : v < 256 ^ 4)
    : Restores (readU32Le · context) (Bytes.ofLE 4 v) v :=
  readNumber_restores (fun _ => rfl) (Bytes.length_ofLE 4 v) (Bytes.toLE_ofLE_of_lt h)

theorem readU64Be_restores (context : String) (h : v < 256 ^ 8)
    : Restores (readU64Be · context) (Bytes.ofBE 8 v) v :=
  readNumber_restores (fun _ => rfl) (Bytes.length_ofBE 8 v) (Bytes.toBE_ofBE_of_lt h)

end Cursor

/-! ## Text -/

namespace UnicodeEncoding

variable {encoding : UnicodeEncoding} {p : Platform} {s : Str} {context : String}

theorem length_utf16le (s : Str) : (utf16le s).length = 2 * (s.flatMap utf16Units).length := by
  rw [utf16le]
  induction s.flatMap utf16Units with
  | nil => rfl
  | cons u units ih =>
    rw [List.flatMap_cons, List.length_append, ih, Bytes.length_ofLE, List.length_cons]
    omega

theorem unitsOf_mul (encoding : UnicodeEncoding) (s : Str)
    : encoding.unitsOf s * encoding.text.unitSize = (encoding.encode s).length := by
  apply Nat.div_mul_cancel
  cases encoding with
  | utf8 => exact Nat.one_dvd _
  | utf16Le => exact ⟨_, length_utf16le s⟩

/-- What a text takes once decoded, at most. -/
theorem exists_maxDecodedLen (encoding : UnicodeEncoding) (p : Platform) {len : Nat}
    (h : 64 * len < u64Bound)
    : ∃ decodedLen, encoding.text.maxDecodedLen p len = .ok decodedLen
        ∧ 2 * decodedLen ≤ 3 * (len + 1) := by
  cases encoding with
  | utf8 => exact ⟨len, rfl, by omega⟩
  | utf16Le =>
    have hone : 1 < u64Bound := by decide
    refine ⟨(len + 1) / 2 * 3, ?_, by omega⟩
    change okOr ((checkedAdd len 1).bind fun bytes => checkedMul (bytes / 2) 3) _ = _
    rw [checkedAdd_of_lt (by omega), Option.bind_some, checkedMul_of_lt (by omega), okOr_some]

theorem decode_encode (h : 64 * (encoding.encode s).length < u64Bound)
    : encoding.text.decode p (encoding.encode s) context = .ok s := by
  cases encoding with
  | utf8 =>
    simp only [text, encode, TextEncoding.decode, utf8Decode?_utf8, okOr_some]
  | utf16Le =>
    rw [encode] at h
    have hlen := length_utf16le s
    have hmul : checkedMul ((utf16le s).length / 2) 3 = some ((utf16le s).length / 2 * 3) := by
      rw [checkedMul_eq_some]
      exact ⟨rfl, by omega⟩
    change TextEncoding.utf16Le.decode p (utf16le s) context = .ok s
    unfold TextEncoding.decode
    dsimp only
    rw [failIf_of_not (by omega), except_ok_bind, hmul, okOr_some, except_ok_bind,
      utf16leDecode?_utf16le, okOr_some]

/-- The units of text without a terminator are not zero. -/
theorem findZeroUnit_units {units : List Nat} (hlt : ∀ u ∈ units, u < 0x10000)
    (hne : ∀ u ∈ units, u ≠ 0) (rest : Bytes)
    : TextEncoding.findZeroUnit (units.flatMap (Bytes.ofLE 2) ++ ([0, 0] ++ rest))
        = some units.length := by
  induction units with
  | nil => rfl
  | cons u units ih =>
    have hunit : ¬(UInt8.ofNat u = 0 ∧ UInt8.ofNat (u / 256) = 0) := by
      rintro ⟨hlow, hhigh⟩
      have hlow := congrArg UInt8.toNat hlow
      have hhigh := congrArg UInt8.toNat hhigh
      rw [UInt8.toNat_ofNat'] at hlow hhigh
      change _ = 0 at hlow hhigh
      have := hlt u List.mem_cons_self
      have := hne u List.mem_cons_self
      omega
    have ih := ih (fun u hu => hlt u (List.mem_cons_of_mem _ hu))
      fun u hu => hne u (List.mem_cons_of_mem _ hu)
    simp only [List.flatMap_cons, Bytes.ofLE, List.cons_append, List.nil_append] at ih ⊢
    rw [TextEncoding.findZeroUnit, if_neg hunit, ih]
    rfl

theorem utf16Units_ne_zero {c : Char} (hc : c ≠ Char.ofNat 0) : ∀ u ∈ utf16Units c, u ≠ 0 := by
  intro u hu
  unfold utf16Units at hu
  split at hu
  . rw [List.mem_singleton] at hu
    rintro rfl
    apply hc
    apply Char.ext
    apply UInt32.toNat_inj.mp
    exact hu.symm
  . simp only [List.mem_cons, List.not_mem_nil, or_false] at hu
    omega

/-- The terminator of a text is found where the text ends. -/
theorem splitTerminated_encode {bytes rest : Bytes} {offset : Nat} (hs : Char.ofNat 0 ∉ s)
    (hbound : 64 * bytes.length < u64Bound) (hoffset : offset ≤ bytes.length)
    (hrest : bytes.drop offset = encoding.encode s ++ encoding.terminator ++ rest)
    : encoding.text.splitTerminated bytes offset context
        = .ok (encoding.encode s,
            offset + (encoding.encode s ++ encoding.terminator).length) := by
  have hlen := congrArg List.length hrest
  rw [List.length_drop, List.length_append, List.length_append] at hlen
  cases encoding with
  | utf8 =>
    have hfind : (Unicode.utf8 s ++ [0] ++ rest).findIdx? (· == 0)
        = some (Unicode.utf8 s).length := by
      have hnone : (Unicode.utf8 s).findIdx? (· == 0) = none := findIdx?_utf8_eq_none (by decide) hs
      rw [List.append_assoc, List.findIdx?_append, hnone, Option.none_or, List.singleton_append,
        List.findIdx?_cons, beq_self_eq_true, if_pos rfl, Option.map_some, Nat.zero_add]
    have hterminator : terminator .utf8 = [0] := rfl
    unfold TextEncoding.splitTerminated text
    rw [hterminator] at hrest hlen ⊢
    rw [encode] at hrest hlen ⊢
    rw [List.length_singleton] at hlen
    dsimp only
    rw [failIf_of_not (by omega), except_ok_bind, hrest, hfind, okOr_some, except_ok_bind,
      checkedAdd_eq_some.mpr ⟨rfl, by omega⟩, okOr_some, except_ok_bind,
      checkedAdd_eq_some.mpr ⟨rfl, by omega⟩, okOr_some, except_ok_bind, List.append_assoc,
      List.take_left, List.length_append]
    rfl
  | utf16Le =>
    have hunits := length_utf16le s
    have hfind : TextEncoding.findZeroUnit (utf16le s ++ [0, 0] ++ rest)
        = some (s.flatMap utf16Units).length := by
      rw [List.append_assoc]
      apply findZeroUnit_units
      . intro u hu
        obtain ⟨c, -, hc⟩ := List.mem_flatMap.mp hu
        exact utf16Units_lt c u hc
      . intro u hu
        obtain ⟨c, hmem, hc⟩ := List.mem_flatMap.mp hu
        apply utf16Units_ne_zero _ u hc
        rintro rfl
        exact hs hmem
    have hterminator : terminator .utf16Le = [0, 0] := rfl
    have htwo : [(0 : UInt8), 0].length = 2 := rfl
    unfold TextEncoding.splitTerminated text
    rw [hterminator] at hrest hlen ⊢
    rw [encode] at hrest hlen ⊢
    rw [htwo] at hlen
    dsimp only
    rw [failIf_of_not (by omega), except_ok_bind, hrest, hfind, okOr_some, except_ok_bind,
      checkedMul_eq_some.mpr ⟨rfl, by omega⟩, okOr_some, except_ok_bind,
      checkedAdd_eq_some.mpr ⟨rfl, by omega⟩, okOr_some, except_ok_bind,
      checkedAdd_eq_some.mpr ⟨rfl, by omega⟩, okOr_some, except_ok_bind, List.append_assoc,
      Nat.mul_comm _ 2, ← hunits, List.take_left, List.length_append]
    rfl

end UnicodeEncoding

/-! ## Keyword metadata -/

variable {p : Platform} {encoding : UnicodeEncoding} {s : Str}

namespace V1

theorem readSummary_restores (context : String) (hunits : encoding.unitsOf s < 256 ^ 1)
    (hlen : 64 * (encoding.encode s).length < u64Bound)
    : Cursor.Restores (readSummary p · encoding.text context) (encodeSummary encoding s) s := by
  have hmul := encoding.unitsOf_mul s
  have hlength : checkedMul (encoding.unitsOf s) encoding.text.unitSize
      = some (encoding.encode s).length := by
    rw [checkedMul_eq_some]
    omega
  refine Cursor.Restores.of_eq (.bind (Cursor.readU8_restores context hunits) <|
    .ok_bind (by rw [hlength, okOr_some]) <| .bind (Cursor.readBytes_restores rfl) <|
    .ok_bind (UnicodeEncoding.decode_encode hlen) .pure) ?_
  rw [encodeSummary, List.append_nil]

end V1

/-- A summary that its length field can describe. -/
structure SummaryFits (version : WireVersion) (encoding : UnicodeEncoding) (s : Str) : Prop where
  units : encoding.unitsOf s < 256 ^ version.summaryWidth
  length : 64 * (encoding.encode s).length < u64Bound

/-- A row of keyword metadata whose fields can be written. -/
structure KeyIndexRow.Fits (version : WireVersion) (encoding : UnicodeEncoding) (row : KeyIndexRow)
    : Prop where
  entryCount : row.entryCount < 256 ^ version.width
  firstKey : SummaryFits version encoding row.firstKey
  lastKey : SummaryFits version encoding row.lastKey
  compSize : row.compSize < 256 ^ version.width
  decompSize : row.decompSize < 256 ^ version.width

variable {row : KeyIndexRow}

theorem V1.readKeyIndexRow_restores (h : row.Fits .v1 encoding)
    : Cursor.Restores (readKeyIndexRow p encoding.text) (encodeKeyIndexRow encoding row) row := by
  refine Cursor.Restores.of_eq (.bind (Cursor.readU32Be_restores _ h.entryCount) <|
    .bind (readSummary_restores _ h.firstKey.units h.firstKey.length) <|
    .bind (readSummary_restores _ h.lastKey.units h.lastKey.length) <|
    .bind (Cursor.readU32Be_restores _ h.compSize) <|
    .bind (Cursor.readU32Be_restores _ h.decompSize) .pure) ?_
  simp only [encodeKeyIndexRow, List.append_assoc, List.append_nil]

namespace V2

theorem readSummary_restores (which invalidTerminator : String) (h : SummaryFits .v2 encoding s)
    : Cursor.Restores (readSummary p · encoding.text .canonical which invalidTerminator)
        (encodeSummary encoding .canonical s) s := by
  have hmul := encoding.unitsOf_mul s
  have hlen := h.length
  have hlength : checkedMul (encoding.unitsOf s) encoding.text.unitSize
      = some (encoding.encode s).length := by
    rw [checkedMul_eq_some]
    omega
  have hterminator : encoding.terminator.length = encoding.text.unitSize := List.length_replicate
  have hzero : ¬(encoding.terminator.any (· != 0)) = true := by
    cases encoding <;> decide
  refine Cursor.Restores.of_eq (.bind (Cursor.readU16Be_restores _ h.units) <|
    .ok_bind (by rw [hlength, okOr_some]) <| .bind (Cursor.readBytes_restores rfl) <|
    .ok_bind (UnicodeEncoding.decode_encode h.length) <|
    .bind (Cursor.readBytes_restores hterminator) <| .ok_bind (failIf_of_not hzero) .pure) ?_
  simp only [encodeSummary, KeywordIndexLayout.terminator, List.append_assoc, List.append_nil]

theorem readKeyIndexRow_restores (h : row.Fits .v2 encoding)
    : Cursor.Restores (readKeyIndexRow p encoding.text .canonical)
        (encodeKeyIndexRow encoding .canonical row) row := by
  refine Cursor.Restores.of_eq (.bind (Cursor.readU64Be_restores _ h.entryCount) <|
    .bind (readSummary_restores _ _ h.firstKey) <| .bind (readSummary_restores _ _ h.lastKey) <|
    .bind (Cursor.readU64Be_restores _ h.compSize) <|
    .bind (Cursor.readU64Be_restores _ h.decompSize) .pure) ?_
  simp only [encodeKeyIndexRow, List.append_assoc, List.append_nil]

end V2

theorem parseKeyIndexRows_restores {readRow : Cursor → Except Error (KeyIndexRow × Cursor)}
    {encode : KeyIndexRow → Bytes}
    {validate : (entryCount compSize decompSize : Nat) → Except Error Unit}
    {rows : List KeyIndexRow}
    (hread : ∀ row ∈ rows, Cursor.Restores readRow (encode row) row)
    (hvalid : ∀ row ∈ rows, validate row.entryCount row.compSize row.decompSize = .ok ())
    (compOffset entryStartIndex : Nat)
    (hoffset : compOffset + (rows.map (·.compSize)).sum < u64Bound)
    (hindex : entryStartIndex + (rows.map (·.entryCount)).sum < u64Bound)
    : Cursor.Restores (parseKeyIndexRows readRow validate rows.length compOffset entryStartIndex)
        (rows.flatMap encode) (keyBlocksAt compOffset entryStartIndex rows) := by
  induction rows generalizing compOffset entryStartIndex with
  | nil => exact .pure
  | cons row rows ih =>
    rw [List.map_cons, List.sum_cons] at hoffset hindex
    have ih := ih (fun row hrow => hread row (List.mem_cons_of_mem _ hrow))
      (fun row hrow => hvalid row (List.mem_cons_of_mem _ hrow)) (compOffset + row.compSize)
      (entryStartIndex + row.entryCount) (by omega) (by omega)
    refine Cursor.Restores.of_eq (.bind (hread row List.mem_cons_self) <|
      .ok_bind (hvalid row List.mem_cons_self) <|
      .ok_bind (addU64_eq_ok.mpr ⟨rfl, by omega⟩) <|
      .ok_bind (addU64_eq_ok.mpr ⟨rfl, by omega⟩) <| .bind ih .pure) ?_
    rw [List.flatMap_cons, List.append_nil]

/-! ## Key rows -/

variable {readOffset : ReadField} {width : Nat} {context : KeyRowContext}

theorem StartsFrom.of_cons {total previous : Nat} {row : DecodedKeyRow} {rows : List DecodedKeyRow}
    (h : StartsFrom total previous (row :: rows))
    : previous ≤ row.recordStart ∧ row.recordStart ≤ total
        ∧ StartsFrom total row.recordStart rows := by
  have hrows := List.pairwise_cons.mp h.2
  refine ⟨(h.1 row List.mem_cons_self).1, (h.1 row List.mem_cons_self).2, ?_, hrows.2⟩
  intro other hother
  exact ⟨hrows.1 other hother, (h.1 other (List.mem_cons_of_mem _ hother)).2⟩

theorem decodeKeyRowsFrom_restores {rows : List DecodedKeyRow} {previous : Option Nat}
    {cursor : Cursor}
    (hread : ∀ row ∈ rows, Cursor.Restores (readOffset · "key block record offset")
      (Bytes.ofBE width row.recordStart) row.recordStart)
    (hencoding : context.encoding = encoding.text)
    (hkeys : ∀ row ∈ rows, Char.ofNat 0 ∉ row.key)
    (hstarts : StartsFrom context.totalDecodedRecordLen (previous.getD 0) rows)
    (hat : cursor.At (rows.flatMap (encodeKeyRow width encoding)))
    : decodeKeyRowsFrom p readOffset context rows.length previous cursor = .ok rows := by
  induction rows generalizing previous cursor with
  | nil =>
    unfold decodeKeyRowsFrom
    rw [if_pos hat.isEmpty]
  | cons row rows ih =>
    have hnotEmpty : ¬cursor.isEmpty = true := by
      have hpos := encoding.unitSize_pos
      have hterminator : encoding.terminator.length = encoding.text.unitSize := List.length_replicate
      rw [Cursor.isEmpty_iff, hat.rest_eq, ← List.length_eq_zero_iff, List.flatMap_cons,
        List.length_append, encodeKeyRow, List.length_append, List.length_append]
      omega
    rw [List.flatMap_cons, encodeKeyRow, List.append_assoc] at hat
    obtain ⟨c₁, hoffset, hat₁⟩ := hread row List.mem_cons_self cursor _ hat
    obtain ⟨hlow, hhigh, hrest⟩ := hstarts.of_cons
    have hprevious : ¬previous.any (· > row.recordStart) = true := by
      cases previous with
      | none => exact Bool.false_ne_true
      | some previous =>
        rw [Option.any_some, decide_eq_true_eq]
        exact Nat.not_lt_of_le hlow
    have hsplit := @UnicodeEncoding.splitTerminated_encode encoding row.key "key block entry key"
      c₁.bytes _ c₁.offset (hkeys row List.mem_cons_self) hat₁.bound hat₁.offset_le hat₁.rest_eq
    have hlen := hat₁.length_le
    rw [List.length_append, List.length_append] at hlen
    obtain ⟨c₂, hword, hat₂⟩ :=
      @Cursor.readBytes_restores _ _ "key block entry key bytes" rfl c₁ _ hat₁
    have ih := @ih (some row.recordStart) c₂
      (fun row hrow => hread row (List.mem_cons_of_mem _ hrow))
      (fun row hrow => hkeys row (List.mem_cons_of_mem _ hrow)) hrest hat₂
    dsimp only at hoffset hword
    have hword' : c₁.offset ≤ c₁.offset + (encoding.encode row.key ++ encoding.terminator).length :=
      Nat.le_add_right _ _
    unfold decodeKeyRowsFrom
    rw [if_neg hnotEmpty]
    dsimp only [List.length_cons]
    rw [hoffset, except_ok_bind]
    dsimp only
    rw [failIf_of_not (by omega), except_ok_bind, failIf_of_not hprevious, except_ok_bind,
      hencoding, hsplit, except_ok_bind]
    dsimp only
    rw [UnicodeEncoding.decode_encode (by omega), except_ok_bind, checkedSub, if_pos hword',
      Nat.add_sub_cancel_left, okOr_some, except_ok_bind, hword, except_ok_bind]
    dsimp only
    rw [ih]
    rfl

theorem decodeKeyRowsWith_restores {rows : List DecodedKeyRow}
    (hread : ∀ row ∈ rows, Cursor.Restores (readOffset · "key block record offset")
      (Bytes.ofBE width row.recordStart) row.recordStart)
    (hencoding : context.encoding = encoding.text) (hcount : context.expectedEntries = rows.length)
    (hkeys : ∀ row ∈ rows, Char.ofNat 0 ∉ row.key)
    (hstarts : StartsFrom context.totalDecodedRecordLen 0 rows)
    (hbound : 64 * (rows.flatMap (encodeKeyRow width encoding)).length < u64Bound)
    (hlen : rows.length < u64Bound)
    : decodeKeyRowsWith p readOffset (rows.flatMap (encodeKeyRow width encoding)) context
        = .ok rows := by
  have hrows : decodeKeyRowsFrom p readOffset context rows.length none
      (.new (rows.flatMap (encodeKeyRow width encoding))) = .ok rows :=
    decodeKeyRowsFrom_restores hread hencoding hkeys hstarts (Cursor.at_new hbound)
  unfold decodeKeyRowsWith
  rw [checkedUsize_eq_ok.mpr ⟨rfl, by omega⟩, except_ok_bind, hcount, hrows, except_ok_bind,
    failIf_of_not (by omega)]
  rfl

/-! ## The record index -/

theorem parseRecordIndex_restores {source : FileSource} {readField : ReadField} {limits : Limits}
    {sizes : List (Nat × Nat)} (state : RecordIndexState)
    (hread : ∀ size ∈ sizes, ∀ context,
      Cursor.Restores (readField · context) (Bytes.ofBE width size.1) size.1
        ∧ Cursor.Restores (readField · context) (Bytes.ofBE width size.2) size.2)
    (hvalid : ∀ size ∈ sizes, validateRecordBlockSizes size.1 size.2 limits = .ok ())
    (hcomp : state.compOffset + (sizes.map (·.1)).sum ≤ source.len) (hsource : source.len < u64Bound)
    (htotal : state.totalComp ≤ state.compOffset)
    (hdecomp : state.decompOffset + (sizes.map (·.2)).sum < u64Bound)
    (hat : state.cursor.At (sizes.flatMap fun size =>
      Bytes.ofBE width size.1 ++ Bytes.ofBE width size.2))
    : ∃ cursor, parseRecordIndex source readField limits sizes.length state
        = .ok (recordBlocksAt state.compOffset state.decompOffset sizes,
          { compOffset := state.compOffset + (sizes.map (·.1)).sum
            decompOffset := state.decompOffset + (sizes.map (·.2)).sum
            totalComp := state.totalComp + (sizes.map (·.1)).sum
            cursor })
        ∧ cursor.At [] := by
  induction sizes generalizing state with
  | nil => exact ⟨state.cursor, rfl, hat⟩
  | cons size sizes ih =>
    obtain ⟨compSize, decompSize⟩ := size
    rw [List.map_cons, List.sum_cons] at hcomp hdecomp
    dsimp only at hcomp hdecomp
    rw [List.flatMap_cons, List.append_assoc] at hat
    obtain ⟨c₁, hfirst, hat₁⟩ :=
      (hread _ List.mem_cons_self "record block compressed size").1 state.cursor _ hat
    obtain ⟨c₂, hsecond, hat₂⟩ :=
      (hread _ List.mem_cons_self "record block decompressed size").2 c₁ _ hat₁
    dsimp only at hfirst hsecond
    have hrange : source.ensureRange state.compOffset compSize "record block" = .ok () := by
      unfold FileSource.ensureRange
      rw [checkedAdd_eq_some.mpr ⟨rfl, by omega⟩, okOr_some, except_ok_bind,
        failIf_of_not (by omega)]
    obtain ⟨cursor, hrun, hcursor⟩ := ih
      { compOffset := state.compOffset + compSize, decompOffset := state.decompOffset + decompSize
        totalComp := state.totalComp + compSize, cursor := c₂ }
      (fun size hsize => hread size (List.mem_cons_of_mem _ hsize))
      (fun size hsize => hvalid size (List.mem_cons_of_mem _ hsize))
      (by dsimp only; omega) (by dsimp only; omega) (by dsimp only; omega) hat₂
    refine ⟨cursor, ?_, hcursor⟩
    unfold parseRecordIndex
    dsimp only [List.length_cons]
    rw [hfirst, except_ok_bind]
    dsimp only
    rw [hsecond, except_ok_bind]
    dsimp only
    rw [hvalid _ List.mem_cons_self, except_ok_bind, hrange, except_ok_bind,
      addU64_eq_ok.mpr ⟨rfl, by omega⟩, except_ok_bind, addU64_eq_ok.mpr ⟨rfl, by omega⟩,
      except_ok_bind, addU64_eq_ok.mpr ⟨rfl, by omega⟩, except_ok_bind, hrun]
    simp only [List.map_cons, List.sum_cons, Nat.add_assoc]
    rfl

end Mdict
