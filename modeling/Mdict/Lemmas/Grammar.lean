import Mdict.Format.V1.Keyword
import Mdict.Format.V2.Keyword
import Mdict.Lemmas.Cursor

/-!
This module contains how the keyword metadata and the rows of key blocks are written, in either
version, and that what is accepted has been written so.
-/

namespace Mdict

open Effect Unicode

/-! ## Text -/

/-- The encodings of Unicode. -/
inductive UnicodeEncoding where
  | utf8
  | utf16Le
  deriving DecidableEq, Repr

namespace UnicodeEncoding

def text : (encoding : UnicodeEncoding) → TextEncoding
  | utf8 => .utf8
  | utf16Le => .utf16Le

/-- The bytes of a text. -/
def encode : (encoding : UnicodeEncoding) → (s : Str) → Bytes
  | utf8, s => Unicode.utf8 s
  | utf16Le, s => Unicode.utf16le s

/-- One zero unit. -/
def terminator (encoding : UnicodeEncoding) : Bytes := List.replicate encoding.text.unitSize 0

variable {encoding : UnicodeEncoding} {p : Platform} {bytes tail : Bytes} {s : Str}
variable {context : String}

theorem unitSize_pos : 0 < encoding.text.unitSize := by
  cases encoding <;> decide

/-- Decoded text is encoded to the same bytes. -/
theorem encode_of_decode (h : encoding.text.decode p bytes context = .ok s)
    : encoding.encode s = bytes := by
  cases encoding with
  | utf8 =>
    simp only [text, TextEncoding.decode, okOr_eq_ok] at h
    exact utf8_of_utf8Decode? h
  | utf16Le =>
    simp only [text, TextEncoding.decode, except_bind_eq_ok, okOr_eq_ok] at h
    obtain ⟨_, -, _, -, h⟩ := h
    exact utf16le_of_utf16leDecode? h

/-- Up to the first zero unit there are whole units, and what comes later does not matter. -/
theorem findZeroUnit_eq_some {i : Nat} (h : TextEncoding.findZeroUnit tail = some i)
    : (∃ rest, tail = tail.take (i * 2) ++ ([0, 0] ++ rest)) ∧ i * 2 ≤ tail.length
        ∧ ∀ extra, TextEncoding.findZeroUnit (tail ++ extra) = some i := by
  induction tail using TextEncoding.findZeroUnit.induct generalizing i with
  | case1 a b rest hzero =>
    obtain ⟨rfl, rfl⟩ := hzero
    cases h
    exact ⟨⟨rest, rfl⟩, Nat.zero_le _, fun extra => rfl⟩
  | case2 a b rest hne ih =>
    rw [TextEncoding.findZeroUnit, if_neg hne, Option.map_eq_some_iff] at h
    obtain ⟨j, hj, rfl⟩ := h
    obtain ⟨⟨last, hlast⟩, hle, hextra⟩ := ih hj
    refine ⟨⟨last, ?_⟩, ?_, ?_⟩
    . rw [Nat.add_mul, Nat.one_mul, List.take_succ_cons, List.take_succ_cons, List.cons_append,
        List.cons_append, ← hlast]
    . rw [List.length_cons, List.length_cons]
      omega
    . intro extra
      rw [List.cons_append, List.cons_append, TextEncoding.findZeroUnit, if_neg hne, hextra]
      rfl
  | case3 tail hshort =>
    unfold TextEncoding.findZeroUnit at h
    split at h
    . next a b rest => exact absurd rfl (hshort a b rest)
    . contradiction

theorem findIdx?_zero_eq_some {i : Nat} (h : tail.findIdx? (· == 0) = some i)
    : (∃ rest, tail = tail.take i ++ ([0] ++ rest)) ∧ i ≤ tail.length
        ∧ ∀ extra, (tail ++ extra).findIdx? (· == 0) = some i := by
  have hlt := (List.findIdx?_eq_some_iff_getElem.mp h).1
  have hzero := (List.findIdx?_eq_some_iff_getElem.mp h).2.1
  refine ⟨⟨tail.drop (i + 1), ?_⟩, by omega, ?_⟩
  . have hdrop : tail.drop i = tail[i] :: tail.drop (i + 1) := List.drop_eq_getElem_cons hlt
    rw [eq_of_beq hzero] at hdrop
    rw [List.singleton_append, ← hdrop, List.take_append_drop]
  . intro extra
    rw [List.findIdx?_append, h]
    rfl

/-- A terminated text is followed by its terminator, and what comes later does not matter. -/
theorem splitTerminated_eq_ok {offset next : Nat} {part : Bytes}
    (h : encoding.text.splitTerminated bytes offset context = .ok (part, next))
    : next = offset + (part ++ encoding.terminator).length
        ∧ (∃ rest, bytes.drop offset = part ++ encoding.terminator ++ rest)
        ∧ ∀ extra, encoding.text.splitTerminated (bytes ++ extra) offset context
          = .ok (part, next) := by
  have hdrop (hle : ¬bytes.length < offset) (extra : Bytes)
      : ¬(bytes ++ extra).length < offset
        ∧ (bytes ++ extra).drop offset = bytes.drop offset ++ extra := by
    rw [List.length_append, List.drop_append_of_le_length (by omega)]
    exact ⟨by omega, rfl⟩
  cases encoding with
  | utf16Le =>
    simp only [text, TextEncoding.splitTerminated, except_bind_eq_ok, failIf_eq_ok, okOr_eq_ok,
      checkedMul_eq_some, checkedAdd_eq_some, except_pure_eq_ok, Prod.mk.injEq] at h
    obtain ⟨_, hle, unit, hunit, _, ⟨rfl, hmul⟩, _, ⟨rfl, hstop⟩, _, ⟨rfl, hnext⟩, rfl, rfl⟩ := h
    obtain ⟨⟨rest, hrest⟩, hlen, hextra⟩ := findZeroUnit_eq_some hunit
    refine ⟨?_, ⟨rest, ?_⟩, ?_⟩
    . rw [List.length_append, List.length_take, Nat.min_eq_left hlen]
      rfl
    . rw [List.append_assoc]
      exact hrest
    . intro extra
      obtain ⟨hle', htail⟩ := hdrop hle extra
      unfold TextEncoding.splitTerminated text
      dsimp only
      rw [failIf_of_not hle', except_ok_bind, htail, hextra, okOr_some, except_ok_bind,
        checkedMul_eq_some.mpr ⟨rfl, hmul⟩, okOr_some, except_ok_bind,
        checkedAdd_eq_some.mpr ⟨rfl, hstop⟩, okOr_some, except_ok_bind,
        checkedAdd_eq_some.mpr ⟨rfl, hnext⟩, okOr_some, except_ok_bind,
        List.take_append_of_le_length hlen]
      rfl
  | utf8 =>
    simp only [text, TextEncoding.splitTerminated, except_bind_eq_ok, failIf_eq_ok, okOr_eq_ok,
      checkedAdd_eq_some, except_pure_eq_ok, Prod.mk.injEq] at h
    obtain ⟨_, hle, relative, hrelative, _, ⟨rfl, hstop⟩, _, ⟨rfl, hnext⟩, rfl, rfl⟩ := h
    obtain ⟨⟨rest, hrest⟩, hlen, hextra⟩ := findIdx?_zero_eq_some hrelative
    refine ⟨?_, ⟨rest, ?_⟩, ?_⟩
    . rw [List.length_append, List.length_take, Nat.min_eq_left hlen]
      rfl
    . rw [List.append_assoc]
      exact hrest
    . intro extra
      obtain ⟨hle', htail⟩ := hdrop hle extra
      unfold TextEncoding.splitTerminated text
      dsimp only
      rw [failIf_of_not hle', except_ok_bind, htail, hextra, okOr_some, except_ok_bind,
        checkedAdd_eq_some.mpr ⟨rfl, hstop⟩, okOr_some, except_ok_bind,
        checkedAdd_eq_some.mpr ⟨rfl, hnext⟩, okOr_some, except_ok_bind,
        List.take_append_of_le_length hlen]
      rfl

end UnicodeEncoding

/-! ## Keyword metadata -/

variable {p : Platform} {encoding : UnicodeEncoding}

/-- The length of a text in units of its encoding. -/
def UnicodeEncoding.unitsOf (encoding : UnicodeEncoding) (s : Str) : Nat :=
  (encoding.encode s).length / encoding.text.unitSize

/-- Text that was read by its length in units. -/
theorem UnicodeEncoding.unitsOf_eq {units : Nat} {bytes : Bytes} {s : Str} {context : String}
    (hlen : bytes.length = units * encoding.text.unitSize)
    (h : encoding.text.decode p bytes context = .ok s)
    : encoding.unitsOf s = units := by
  rw [unitsOf, encode_of_decode h, hlen, Nat.mul_div_cancel _ unitSize_pos]

namespace V1

/-- A one-byte length in units and the text. -/
def encodeSummary (encoding : UnicodeEncoding) (s : Str) : Bytes :=
  Bytes.ofBE 1 (encoding.unitsOf s) ++ encoding.encode s

theorem readSummary_readsAs (context : String)
    : Cursor.ReadsAs (readSummary p · encoding.text context) (encodeSummary encoding) where
  takes := by
    intro cursor s cursor' h
    simp only [readSummary, except_bind_eq_ok, okOr_eq_ok, checkedMul_eq_some,
      except_pure_eq_ok, Prod.mk.injEq] at h
    obtain ⟨⟨units, c₁⟩, hunits, _, ⟨rfl, -⟩, ⟨bytes, c₂⟩, hbytes, _, hdecode, rfl, rfl⟩ := h
    obtain ⟨htakes, hlen, -⟩ := Cursor.readBytes_eq_ok hbytes
    rw [encodeSummary, UnicodeEncoding.unitsOf_eq hlen hdecode,
      UnicodeEncoding.encode_of_decode hdecode]
    exact ((Cursor.readU8_readsAs context).takes hunits).trans htakes
  extend := by
    intro cursor s cursor' h extra
    simp only [readSummary, except_bind_eq_ok, okOr_eq_ok, except_pure_eq_ok, Prod.mk.injEq] at h
    obtain ⟨⟨units, c₁⟩, hunits, len, hlen, ⟨bytes, c₂⟩, hbytes, _, hdecode, rfl, rfl⟩ := h
    unfold readSummary
    rw [(Cursor.readU8_readsAs context).extend hunits extra, except_ok_bind]
    dsimp only
    rw [hlen, okOr_some, except_ok_bind, (Cursor.readBytes_eq_ok hbytes).2.2 extra, except_ok_bind]
    dsimp only
    rw [hdecode]
    rfl

/-- The fields of a row, one after the other. -/
def encodeKeyIndexRow (encoding : UnicodeEncoding) (row : KeyIndexRow) : Bytes :=
  Bytes.ofBE 4 row.entryCount ++ encodeSummary encoding row.firstKey
    ++ encodeSummary encoding row.lastKey ++ Bytes.ofBE 4 row.compSize
    ++ Bytes.ofBE 4 row.decompSize

theorem readKeyIndexRow_readsAs
    : Cursor.ReadsAs (readKeyIndexRow p encoding.text) (encodeKeyIndexRow encoding) where
  takes := by
    intro cursor row cursor' h
    simp only [readKeyIndexRow, except_bind_eq_ok, except_pure_eq_ok, Prod.mk.injEq] at h
    obtain ⟨⟨entryCount, c₁⟩, hcount, ⟨firstKey, c₂⟩, hfirst, ⟨lastKey, c₃⟩, hlast,
      ⟨compSize, c₄⟩, hcomp, ⟨decompSize, c₅⟩, hdecomp, rfl, rfl⟩ := h
    exact (((((Cursor.readU32Be_readsAs _).takes hcount).trans
      ((readSummary_readsAs _).takes hfirst)).trans
      ((readSummary_readsAs _).takes hlast)).trans
      ((Cursor.readU32Be_readsAs _).takes hcomp)).trans
      ((Cursor.readU32Be_readsAs _).takes hdecomp)
  extend := by
    intro cursor row cursor' h extra
    simp only [readKeyIndexRow, except_bind_eq_ok, except_pure_eq_ok, Prod.mk.injEq] at h
    obtain ⟨⟨entryCount, c₁⟩, hcount, ⟨firstKey, c₂⟩, hfirst, ⟨lastKey, c₃⟩, hlast,
      ⟨compSize, c₄⟩, hcomp, ⟨decompSize, c₅⟩, hdecomp, rfl, rfl⟩ := h
    unfold readKeyIndexRow
    rw [(Cursor.readU32Be_readsAs _).extend hcount extra, except_ok_bind]
    dsimp only
    rw [(readSummary_readsAs _).extend hfirst extra, except_ok_bind]
    dsimp only
    rw [(readSummary_readsAs _).extend hlast extra, except_ok_bind]
    dsimp only
    rw [(Cursor.readU32Be_readsAs _).extend hcomp extra, except_ok_bind]
    dsimp only
    rw [(Cursor.readU32Be_readsAs _).extend hdecomp extra]
    rfl

end V1

namespace V2

/-- What follows a summary. -/
def KeywordIndexLayout.terminator (encoding : UnicodeEncoding)
    : (layout : KeywordIndexLayout) → Bytes
  | .canonical => encoding.terminator
  | .legacyLittleEndianChecksumWithoutSummaryTerminators => []

/-- A two-byte length in units, the text and, canonically, a terminator. -/
def encodeSummary (encoding : UnicodeEncoding) (layout : KeywordIndexLayout) (s : Str) : Bytes :=
  Bytes.ofBE 2 (encoding.unitsOf s) ++ encoding.encode s ++ layout.terminator encoding

/-- Zero bytes are those of a terminator. -/
theorem eq_terminator {bytes : Bytes} (hlen : bytes.length = encoding.text.unitSize)
    (hzero : ¬bytes.any (· != 0) = true)
    : bytes = encoding.terminator := by
  rw [UnicodeEncoding.terminator, List.eq_replicate_iff]
  refine ⟨hlen, fun b hb => ?_⟩
  by_contra hne
  exact hzero (List.any_eq_true.mpr ⟨b, hb, bne_iff_ne.mpr hne⟩)

theorem readSummary_readsAs (layout : KeywordIndexLayout) (which invalidTerminator : String)
    : Cursor.ReadsAs (readSummary p · encoding.text layout which invalidTerminator)
        (encodeSummary encoding layout) where
  takes := by
    intro cursor s cursor' h
    simp only [readSummary, except_bind_eq_ok, okOr_eq_ok, checkedMul_eq_some] at h
    obtain ⟨⟨units, c₁⟩, hunits, _, ⟨rfl, -⟩, ⟨bytes, c₂⟩, hbytes, summary, hdecode, h⟩ := h
    dsimp only at hbytes hdecode
    obtain ⟨htakes, hlen, -⟩ := Cursor.readBytes_eq_ok hbytes
    have hsummary := ((Cursor.readU16Be_readsAs _).takes hunits).trans htakes
    rw [← UnicodeEncoding.unitsOf_eq hlen hdecode,
      ← UnicodeEncoding.encode_of_decode hdecode] at hsummary
    cases layout with
    | canonical =>
      simp only [except_bind_eq_ok, failIf_eq_ok, except_pure_eq_ok, Prod.mk.injEq] at h
      obtain ⟨⟨zeros, c₃⟩, hzeros, _, hzero, rfl, rfl⟩ := h
      obtain ⟨htakes', hlen', -⟩ := Cursor.readBytes_eq_ok hzeros
      rw [eq_terminator hlen' hzero] at htakes'
      exact hsummary.trans htakes'
    | legacyLittleEndianChecksumWithoutSummaryTerminators =>
      cases h
      rw [encodeSummary, KeywordIndexLayout.terminator, List.append_nil]
      exact hsummary
  extend := by
    intro cursor s cursor' h extra
    simp only [readSummary, except_bind_eq_ok, okOr_eq_ok] at h
    obtain ⟨⟨units, c₁⟩, hunits, len, hlen, ⟨bytes, c₂⟩, hbytes, summary, hdecode, h⟩ := h
    unfold readSummary
    rw [(Cursor.readU16Be_readsAs _).extend hunits extra, except_ok_bind]
    dsimp only
    rw [hlen, okOr_some, except_ok_bind, (Cursor.readBytes_eq_ok hbytes).2.2 extra, except_ok_bind]
    dsimp only
    rw [hdecode, except_ok_bind]
    cases layout with
    | canonical =>
      simp only [except_bind_eq_ok, failIf_eq_ok, except_pure_eq_ok, Prod.mk.injEq] at h
      obtain ⟨⟨zeros, c₃⟩, hzeros, _, hzero, rfl, rfl⟩ := h
      dsimp only
      rw [(Cursor.readBytes_eq_ok hzeros).2.2 extra, except_ok_bind]
      dsimp only
      rw [failIf_of_not hzero]
      rfl
    | legacyLittleEndianChecksumWithoutSummaryTerminators =>
      cases h
      rfl

/-- The fields of a row, one after the other. -/
def encodeKeyIndexRow (encoding : UnicodeEncoding) (layout : KeywordIndexLayout) (row : KeyIndexRow)
    : Bytes :=
  Bytes.ofBE 8 row.entryCount ++ encodeSummary encoding layout row.firstKey
    ++ encodeSummary encoding layout row.lastKey ++ Bytes.ofBE 8 row.compSize
    ++ Bytes.ofBE 8 row.decompSize

theorem readKeyIndexRow_readsAs (layout : KeywordIndexLayout)
    : Cursor.ReadsAs (readKeyIndexRow p encoding.text layout)
        (encodeKeyIndexRow encoding layout) where
  takes := by
    intro cursor row cursor' h
    simp only [readKeyIndexRow, except_bind_eq_ok, except_pure_eq_ok, Prod.mk.injEq] at h
    obtain ⟨⟨entryCount, c₁⟩, hcount, ⟨firstKey, c₂⟩, hfirst, ⟨lastKey, c₃⟩, hlast,
      ⟨compSize, c₄⟩, hcomp, ⟨decompSize, c₅⟩, hdecomp, rfl, rfl⟩ := h
    exact (((((Cursor.readU64Be_readsAs _).takes hcount).trans
      ((readSummary_readsAs layout _ _).takes hfirst)).trans
      ((readSummary_readsAs layout _ _).takes hlast)).trans
      ((Cursor.readU64Be_readsAs _).takes hcomp)).trans
      ((Cursor.readU64Be_readsAs _).takes hdecomp)
  extend := by
    intro cursor row cursor' h extra
    simp only [readKeyIndexRow, except_bind_eq_ok, except_pure_eq_ok, Prod.mk.injEq] at h
    obtain ⟨⟨entryCount, c₁⟩, hcount, ⟨firstKey, c₂⟩, hfirst, ⟨lastKey, c₃⟩, hlast,
      ⟨compSize, c₄⟩, hcomp, ⟨decompSize, c₅⟩, hdecomp, rfl, rfl⟩ := h
    unfold readKeyIndexRow
    rw [(Cursor.readU64Be_readsAs _).extend hcount extra, except_ok_bind]
    dsimp only
    rw [(readSummary_readsAs layout _ _).extend hfirst extra, except_ok_bind]
    dsimp only
    rw [(readSummary_readsAs layout _ _).extend hlast extra, except_ok_bind]
    dsimp only
    rw [(Cursor.readU64Be_readsAs _).extend hcomp extra, except_ok_bind]
    dsimp only
    rw [(Cursor.readU64Be_readsAs _).extend hdecomp extra]
    rfl

end V2

/-- The fields of a descriptor that its row has. -/
def KeyBlockDescriptor.row (block : KeyBlockDescriptor) : KeyIndexRow where
  entryCount := block.entryCount
  firstKey := block.firstKey
  lastKey := block.lastKey
  compSize := block.compSize
  decompSize := block.decompSize

variable {readRow : Cursor → Except Error (KeyIndexRow × Cursor)} {encode : KeyIndexRow → Bytes}
variable {validate : (entryCount compSize decompSize : Nat) → Except Error Unit}

theorem parseKeyIndexRows_takes (hread : Cursor.ReadsAs readRow encode) {numBlocks compOffset
    entryStartIndex : Nat} {cursor cursor' : Cursor} {blocks : List KeyBlockDescriptor}
    (hoffset : cursor.offset ≤ cursor.bytes.length)
    (h : parseKeyIndexRows readRow validate numBlocks compOffset entryStartIndex cursor
      = .ok (blocks, cursor'))
    : cursor.Takes cursor' (blocks.flatMap (encode ·.row))
        ∧ ∀ extra, parseKeyIndexRows readRow validate numBlocks compOffset entryStartIndex
            (cursor.extend extra)
          = .ok (blocks, cursor'.extend extra) := by
  induction numBlocks generalizing compOffset entryStartIndex cursor blocks with
  | zero =>
    cases h
    exact ⟨⟨rfl, hoffset, rfl⟩, fun extra => rfl⟩
  | succ numBlocks ih =>
    simp only [parseKeyIndexRows, except_bind_eq_ok, except_pure_eq_ok, Prod.mk.injEq] at h
    obtain ⟨⟨row, c₁⟩, hrow, _, hvalid, nextOffset, hnext, nextIndex, hindex, ⟨rows, c₂⟩, hrows, rfl,
      rfl⟩ := h
    have htakes := hread.takes hrow
    obtain ⟨htakes', hextend⟩ := ih htakes.offset_le hrows
    refine ⟨htakes.trans htakes', fun extra => ?_⟩
    rw [parseKeyIndexRows, hread.extend hrow extra, except_ok_bind]
    dsimp only
    rw [hvalid, except_ok_bind, hnext, except_ok_bind, hindex, except_ok_bind, hextend extra]
    rfl

/-! ## Canonical grammars -/

/--
What is accepted is what is written for the value. So no two byte strings have the same value, and
of accepted bytes neither an extension nor a part from the start is accepted.
-/
structure Canonical {α : Type} (parse : Bytes → Except Error α) (encode : α → Bytes) : Prop where
  encode_eq : ∀ bytes a, parse bytes = .ok a → encode a = bytes
  unique : ∀ bytes bytes' a, parse bytes = .ok a → parse bytes' = .ok a → bytes = bytes'
  extended : ∀ bytes a, parse bytes = .ok a → ∀ extra ≠ [], ∃ e, parse (bytes ++ extra) = .error e
  truncated : ∀ bytes a, parse bytes = .ok a → ∀ len < bytes.length,
    ∃ e, parse (bytes.take len) = .error e

theorem canonical_of_extended {α : Type} {parse : Bytes → Except Error α} {encode : α → Bytes}
    (hencode : ∀ bytes a, parse bytes = .ok a → encode a = bytes)
    (hextended : ∀ bytes a, parse bytes = .ok a → ∀ extra ≠ [],
      ∃ e, parse (bytes ++ extra) = .error e)
    : Canonical parse encode where
  encode_eq := hencode
  unique := fun bytes bytes' a h h' => (hencode bytes a h).symm.trans (hencode bytes' a h')
  extended := hextended
  truncated := by
    intro bytes a h len hlen
    cases hpart : parse (bytes.take len) with
    | error e => exact ⟨e, rfl⟩
    | ok b =>
      have hne : bytes.drop len ≠ [] := List.ne_nil_of_length_pos (by rw [List.length_drop]; omega)
      obtain ⟨e, he⟩ := hextended _ b hpart (bytes.drop len) hne
      rw [List.take_append_drop, h] at he
      contradiction

theorem parseKeywordIndexEntriesWith_canonical (hread : Cursor.ReadsAs readRow encode)
    (minimumRowLen : Nat) (rowLenContext : String) (numBlocks keyBlocksOffset : Nat)
    : Canonical (fun bytes => parseKeywordIndexEntriesWith minimumRowLen rowLenContext readRow
        validate bytes numBlocks keyBlocksOffset) (·.flatMap (encode ·.row)) := by
  apply canonical_of_extended
  . intro bytes blocks h
    simp only [parseKeywordIndexEntriesWith, except_bind_eq_ok, failIf_eq_ok, not_not,
      except_pure_eq_ok] at h
    obtain ⟨_, -, _, -, _, -, ⟨blocks, last⟩, hrows, _, hempty, rfl⟩ := h
    have hrest := (parseKeyIndexRows_takes hread (Nat.zero_le _) hrows).1.rest_eq
    rw [Cursor.isEmpty_iff.mp hempty, List.append_nil] at hrest
    exact hrest.symm
  . intro bytes blocks h extra hextra
    simp only [parseKeywordIndexEntriesWith, except_bind_eq_ok, failIf_eq_ok, not_not,
      except_pure_eq_ok] at h
    obtain ⟨rowLen, hrowLen, minimumLen, hminimum, _, hle, ⟨blocks, last⟩, hrows, -⟩ := h
    obtain ⟨htakes, hextend⟩ := parseKeyIndexRows_takes hread (Nat.zero_le _) hrows
    have hle' : ¬minimumLen > (bytes ++ extra).length := by
      rw [List.length_append]
      omega
    have hrest : ¬(last.extend extra).isEmpty = true := by
      rw [Cursor.isEmpty_extend htakes.offset_le hextra]
      exact Bool.false_ne_true
    have hrun : parseKeyIndexRows readRow validate numBlocks keyBlocksOffset 0 (.new (bytes ++ extra))
        = .ok (blocks, last.extend extra) := hextend extra
    unfold parseKeywordIndexEntriesWith
    rw [hrowLen, except_ok_bind, hminimum, except_ok_bind, failIf_of_not hle', except_ok_bind, hrun,
      except_ok_bind]
    dsimp only
    rw [failIf_of hrest]
    exact ⟨_, rfl⟩

/-! ## Key rows -/

/-- A record start and a terminated key. -/
def encodeKeyRow (width : Nat) (encoding : UnicodeEncoding) (row : DecodedKeyRow) : Bytes :=
  Bytes.ofBE width row.recordStart ++ (encoding.encode row.key ++ encoding.terminator)

variable {readOffset : ReadField} {width : Nat} {context : KeyRowContext}

/-- The rows are all that is there, and there may not be more when there are no rows left. -/
theorem decodeKeyRowsFrom_eq_ok
    (hread : Cursor.ReadsAs (readOffset · "key block record offset") (Bytes.ofBE width))
    (hencoding : context.encoding = encoding.text) {left : Nat} {previous : Option Nat}
    {cursor : Cursor} {rows : List DecodedKeyRow} (hoffset : cursor.offset ≤ cursor.bytes.length)
    (h : decodeKeyRowsFrom p readOffset context left previous cursor = .ok rows)
    : cursor.rest = rows.flatMap (encodeKeyRow width encoding)
        ∧ (rows.length = left → ∀ extra ≠ [],
            ∃ e, decodeKeyRowsFrom p readOffset context left previous (cursor.extend extra)
              = .error e) := by
  induction left generalizing previous cursor rows with
  | zero =>
    unfold decodeKeyRowsFrom at h
    split at h
    . next hempty =>
      cases h
      refine ⟨Cursor.isEmpty_iff.mp hempty, fun _ extra hextra => ?_⟩
      unfold decodeKeyRowsFrom
      rw [if_neg (by rw [Cursor.isEmpty_extend hoffset hextra]; exact Bool.false_ne_true)]
      exact ⟨_, rfl⟩
    . contradiction
  | succ left ih =>
    unfold decodeKeyRowsFrom at h
    split at h
    . next hempty =>
      cases h
      exact ⟨Cursor.isEmpty_iff.mp hempty, fun hlen => absurd hlen (by simp)⟩
    . next hempty =>
      simp only [except_bind_eq_ok, failIf_eq_ok, okOr_eq_ok, checkedSub_eq_some,
        except_pure_eq_ok] at h
      obtain ⟨⟨recordStart, c₁⟩, hstart, _, htotal, _, hprevious, ⟨part, next⟩, hsplit, key, hkey, _,
        ⟨hle, rfl⟩, ⟨word, c₂⟩, hword, rows, hrows, rfl⟩ := h
      dsimp only at htotal hprevious hsplit hkey hle hword hrows
      rw [hencoding] at hsplit hkey
      obtain ⟨hnext, ⟨last, hlast⟩, hsplit'⟩ := UnicodeEncoding.splitTerminated_eq_ok hsplit
      have hwordLen' : next - c₁.offset = (part ++ encoding.terminator).length := by omega
      rw [hwordLen'] at hword
      obtain ⟨htakes, hwordLen, hword'⟩ := Cursor.readBytes_eq_ok hword
      -- The second cursor reads what the search for the terminator has found.
      have hwordEq : word = encoding.encode key ++ encoding.terminator := by
        have hrest := htakes.rest_eq
        rw [Cursor.rest, hlast] at hrest
        rw [UnicodeEncoding.encode_of_decode hkey]
        exact (List.append_inj_left hrest hwordLen.symm).symm
      obtain ⟨hrest, hextend⟩ := ih htakes.offset_le hrows
      refine ⟨?_, fun hlen extra hextra => ?_⟩
      . rw [((hread.takes hstart).trans htakes).rest_eq, hrest, hwordEq]
        rfl
      . obtain ⟨e, he⟩ := hextend (by simpa using hlen) extra hextra
        have hsplit'' : context.encoding.splitTerminated (c₁.extend extra).bytes
            (c₁.extend extra).offset "key block entry key" = .ok (part, next) := by
          rw [hencoding]
          exact hsplit' extra
        have hkeyLen : checkedSub next (c₁.extend extra).offset
            = some (part ++ encoding.terminator).length := by
          rw [checkedSub_eq_some, ← hwordLen']
          exact ⟨hle, rfl⟩
        unfold decodeKeyRowsFrom
        rw [if_neg (Cursor.not_isEmpty_extend hempty)]
        dsimp only
        rw [hread.extend hstart extra, except_ok_bind]
        dsimp only
        rw [failIf_of_not htotal, except_ok_bind, failIf_of_not hprevious, except_ok_bind, hsplit'',
          except_ok_bind]
        dsimp only
        rw [hencoding, hkey, except_ok_bind, hkeyLen, okOr_some, except_ok_bind, hword' extra,
          except_ok_bind]
        dsimp only
        rw [he]
        exact ⟨_, rfl⟩

theorem decodeKeyRowsWith_canonical
    (hread : Cursor.ReadsAs (readOffset · "key block record offset") (Bytes.ofBE width))
    (hencoding : context.encoding = encoding.text)
    : Canonical (fun bytes => decodeKeyRowsWith p readOffset bytes context)
        (·.flatMap (encodeKeyRow width encoding)) := by
  apply canonical_of_extended
  . intro bytes rows h
    simp only [decodeKeyRowsWith, except_bind_eq_ok, failIf_eq_ok, except_pure_eq_ok] at h
    obtain ⟨_, -, rows, hrows, _, -, rfl⟩ := h
    exact (decodeKeyRowsFrom_eq_ok hread hencoding (Nat.zero_le _) hrows).1.symm
  . intro bytes rows h extra hextra
    simp only [decodeKeyRowsWith, except_bind_eq_ok, failIf_eq_ok, except_pure_eq_ok, ne_eq,
      not_not] at h
    obtain ⟨count, hcount, rows, hrows, _, hlen, -⟩ := h
    obtain ⟨e, he⟩ :=
      (decodeKeyRowsFrom_eq_ok hread hencoding (Nat.zero_le _) hrows).2 hlen extra hextra
    have hrun : decodeKeyRowsFrom p readOffset context count none (.new (bytes ++ extra))
        = .error e := he
    unfold decodeKeyRowsWith
    rw [hcount, except_ok_bind, hrun]
    exact ⟨_, rfl⟩

/-! ## The grammars -/

theorem V2.parseKeywordIndexEntries_canonical (layout : V2.KeywordIndexLayout)
    (numBlocks keyBlocksOffset : Nat) (limits : Limits)
    : Canonical (fun bytes => V2.parseKeywordIndexEntries p bytes numBlocks encoding.text layout
          keyBlocksOffset limits)
        (·.flatMap fun block => V2.encodeKeyIndexRow encoding layout block.row) := by
  obtain ⟨rowLen, hrowLen⟩ : ∃ rowLen,
      V2.minimumKeywordIndexEntryBytes encoding.text layout = .ok rowLen := by
    cases encoding <;> cases layout <;> exact ⟨_, rfl⟩
  unfold V2.parseKeywordIndexEntries
  simp only [hrowLen, except_ok_bind]
  exact parseKeywordIndexEntriesWith_canonical (V2.readKeyIndexRow_readsAs layout) _ _ _ _

theorem V1.parseKeywordIndexEntries_canonical (numBlocks keyBlocksOffset : Nat) (limits : Limits)
    : Canonical (fun bytes => V1.parseKeywordIndexEntries p bytes numBlocks encoding.text
          keyBlocksOffset limits)
        (·.flatMap fun block => V1.encodeKeyIndexRow encoding block.row) :=
  parseKeywordIndexEntriesWith_canonical V1.readKeyIndexRow_readsAs _ _ _ _

theorem V2.decodeKeyRows_canonical {context : KeyRowContext}
    (hencoding : context.encoding = encoding.text)
    : Canonical (fun bytes => V2.decodeKeyRows p bytes context)
        (·.flatMap (encodeKeyRow 8 encoding)) :=
  decodeKeyRowsWith_canonical (Cursor.readU64Be_readsAs _) hencoding

theorem V1.decodeKeyRows_canonical {context : KeyRowContext}
    (hencoding : context.encoding = encoding.text)
    : Canonical (fun bytes => V1.decodeKeyRows p bytes context)
        (·.flatMap (encodeKeyRow 4 encoding)) :=
  decodeKeyRowsWith_canonical (Cursor.readU32Be_readsAs _) hencoding

end Mdict
