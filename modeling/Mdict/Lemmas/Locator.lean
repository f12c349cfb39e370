import Mdict.Lib.SortedIndex
import Mdict.Lemmas.Access
import Mdict.Lemmas.Normalize

/-!
This module contains the theory of the key locator: what it represents, and that building it over
all key blocks yields the one of the physical keys.
-/

namespace Mdict

open Effect

/-! ## What a locator represents -/

namespace KeyLocator

variable {texts : List Str} {digests : List Nat}

/-- The bounds of the texts in the arena. -/
theorem bounds_ofTexts {texts : List Bytes} {i : Nat} (hi : i ≤ texts.length)
    : (ofTexts texts digests).bounds[i]? = some (Search.start (texts.map List.length) i) := by
  simp only [ofTexts]
  rw [List.getElem?_map, List.getElem?_range (by omega)]
  rfl

/-- The text of a row is the one that was put there. -/
theorem row_ofTexts {row : Nat} {text : Str} (hrow : texts[row]? = some text)
    : (ofTexts (texts.map Unicode.utf8) digests).row row = Unicode.utf8 text := by
  obtain ⟨hlt, -⟩ := List.getElem?_eq_some_iff.mp hrow
  have hbytes : (texts.map Unicode.utf8)[row]? = some (Unicode.utf8 text) := by
    rw [List.getElem?_map, hrow]
    rfl
  have harena (i : Nat) : ((texts.map Unicode.utf8).take i).flatten
      = Unicode.utf8 (texts.take i).flatten := by
    rw [← List.map_take]
    induction texts.take i with
    | nil => rfl
    | cons t ts ih => rw [List.map_cons, List.flatten_cons, List.flatten_cons, ih, Unicode.utf8_append]
  have hboundary (i : Nat) : Unicode.isCharBoundary (texts.map Unicode.utf8).flatten
      (Search.start ((texts.map Unicode.utf8).map List.length) i) := by
    have hall := harena texts.length
    rw [List.take_of_length_le (by simp), List.take_of_length_le (by simp)] at hall
    rw [← Search.length_flatten_take, harena, hall]
    conv in texts.flatten => rw [← List.take_append_drop i texts, List.flatten_append]
    rw [Unicode.utf8_append]
    exact Unicode.isCharBoundary_utf8_append _ _
  have hlen : row < (texts.map Unicode.utf8).length := by
    rw [List.length_map]
    exact hlt
  have hstop : Search.start ((texts.map Unicode.utf8).map List.length) (row + 1)
      = Search.start ((texts.map Unicode.utf8).map List.length) row
        + (Unicode.utf8 text).length := by
    rw [Search.start_succ (by rw [List.length_map]; exact hlen), List.getElem_map,
      (List.getElem?_eq_some_iff.mp hbytes).2]
  have hslice := Search.slice_flatten (a := 0) hbytes (Nat.le_refl _)
  rw [Search.slice_zero_length, Nat.add_zero] at hslice
  have htext : textSlice (texts.map Unicode.utf8).flatten
      (Search.start ((texts.map Unicode.utf8).map List.length) row)
      (Search.start ((texts.map Unicode.utf8).map List.length) (row + 1)) = Unicode.utf8 text := by
    have hle := Search.start_le_sum ((texts.map Unicode.utf8).map List.length) (row + 1)
    rw [← List.length_flatten] at hle
    unfold textSlice
    rw [hboundary, hboundary, Bool.and_self, if_pos rfl]
    rw [hstop] at hle ⊢
    rw [Bytes.get?, if_pos ⟨by omega, hle⟩]
    exact hslice
  rw [KeyLocator.row, rowText, bounds_ofTexts (by omega), bounds_ofTexts (by omega)]
  exact htext

theorem isLE_compareRows {text : Bytes} {bounds : List Nat} (left right : Nat)
    : (compareRows text bounds left right).isLE
        ↔ rowText text bounds left < rowText text bounds right
          ∨ rowText text bounds left = rowText text bounds right ∧ left ≤ right := by
  unfold compareRows
  rw [SortedIndex.isLE_then, SortedIndex.isLE_compare_nat]

/-- The order lists the rows by their texts. -/
theorem sorted_ofTexts (texts : List Bytes) (digests : List Nat)
    : SortedIndex.Sorted (ofTexts texts digests).row texts.length (ofTexts texts digests).order :=
  .of_mergeSort (fun _ _ => isLE_compareRows _ _) _

section Range

variable {locator : KeyLocator} {n : Nat} {query : Bytes}

/-- The range of a query holds the rows with this text, in ascending order. -/
theorem equalRange_eq_some (h : SortedIndex.Sorted locator.row n locator.order) {start stop : Nat}
    (heq : locator.equalRange query = some (start, stop))
    : start < stop ∧ stop ≤ n ∧ Search.slice locator.order start stop
        = (List.range n).filter (fun row => locator.row row = query) := by
  have hupto : ∀ row, decide (¬query < locator.row row) ↔ ¬query < locator.row row :=
    fun _ => decide_eq_true_iff
  simp only [equalRange, Option.ite_none_right_eq_some, Option.some.injEq, Prod.mk.injEq] at heq
  obtain ⟨hlt, rfl, rfl⟩ := heq
  refine ⟨hlt, ?_, h.equalRange (fun _ => decide_eq_true_iff) hupto (fun _ => decide_eq_true_iff)⟩
  rw [← h.length_eq, Search.partitionPoint_eq (h.pairwise_upto hupto)]
  exact List.length_filter_le _ _

/-- Only a query that is the text of no row has no range. -/
theorem equalRange_eq_none (h : SortedIndex.Sorted locator.row n locator.order)
    (heq : locator.equalRange query = none)
    : (List.range n).filter (fun row => locator.row row = query) = [] := by
  by_contra hne
  have hlt := (h.partitionPoint_lt_iff (q := query) (fun _ => decide_eq_true_iff)
    (fun _ => decide_eq_true_iff) (fun _ => decide_eq_true_iff)).mpr hne
  simp only [equalRange, if_pos hlt] at heq
  contradiction

end Range

/-- Appending a text to the arena. -/
theorem ofTexts_concat (texts : List Bytes) (digests : List Nat) (text : Bytes)
    : (ofTexts (texts ++ [text]) digests).text = (ofTexts texts digests).text ++ text
        ∧ (ofTexts (texts ++ [text]) digests).bounds
          = (ofTexts texts digests).bounds ++ [((ofTexts texts digests).text ++ text).length] := by
  constructor
  . simp [ofTexts]
  . simp only [ofTexts, List.length_append, List.length_singleton, List.map_append, List.map_cons,
      List.map_nil]
    rw [List.range_succ, List.map_append, List.map_cons, List.map_nil]
    congr 1
    . apply List.map_congr_left
      intro i hi
      rw [List.mem_range] at hi
      rw [Search.start, Search.start, List.take_append_of_le_length (by simp; omega)]
    . rw [List.cons.injEq]
      refine ⟨?_, rfl⟩
      rw [Search.start, List.take_of_length_le (by simp), List.sum_append, List.length_flatten]
      simp

end KeyLocator

/-! ## Building it -/

namespace MdictFile

variable {file : MdictFile} {w : World} {I : Session → Prop} {p : Platform}
variable {blocks : List (List DecodedKeyRow)} {fixed : Nat}

/-- The accumulators of the loop over all rows after these ones. -/
def rowsOf (file : MdictFile) (p : Platform) (fixed : Nat) (rows : List DecodedKeyRow)
    : LocatorRows :=
  let locator := file.locatorOf p (rows.map (·.key))
  { text := locator.text
    bounds := locator.bounds
    digests := locator.rawDigest
    estimatedBytes := fixed + locator.text.length
    previousRecordStart := rows.getLast?.map (·.recordStart) }

/-- The texts of these rows are within the limits. -/
structure RowsFit (file : MdictFile) (p : Platform) (fixed : Nat) (rows : List DecodedKeyRow)
    : Prop where
  bytes : fixed + (rows.flatMap (fun row => file.keyText p row.key)).length
    ≤ file.limits.locatorBytes
  text : (rows.flatMap (fun row => file.keyText p row.key)).length < u32Bound

theorem RowsFit.of_isPrefix {rows rows' : List DecodedKeyRow} (h : file.RowsFit p fixed rows')
    (hbegins : rows <+: rows')
    : file.RowsFit p fixed rows := by
  obtain ⟨rest, rfl⟩ := hbegins
  have hlen : (rows.flatMap (fun row => file.keyText p row.key)).length
      ≤ ((rows ++ rest).flatMap (fun row => file.keyText p row.key)).length := by
    rw [List.flatMap_append, List.length_append]
    omega
  exact ⟨by have := h.bytes; omega, by have := h.text; omega⟩

theorem text_rowsOf (rows : List DecodedKeyRow)
    : (file.rowsOf p fixed rows).text = rows.flatMap (fun row => file.keyText p row.key) := by
  simp [rowsOf, locatorOf, KeyLocator.ofTexts, List.flatMap, Function.comp_def]

theorem rowsOf_concat (file : MdictFile) (p : Platform) (fixed : Nat) (done : List DecodedKeyRow)
    (row : DecodedKeyRow)
    : file.rowsOf p fixed (done ++ [row]) =
        { text := (file.rowsOf p fixed done).text ++ file.keyText p row.key
          bounds := (file.rowsOf p fixed done).bounds
            ++ [((file.rowsOf p fixed done).text ++ file.keyText p row.key).length]
          digests := (file.rowsOf p fixed done).digests ++ [rawDigest row.key]
          estimatedBytes := (file.rowsOf p fixed done).estimatedBytes
            + (file.keyText p row.key).length
          previousRecordStart := some row.recordStart } := by
  obtain ⟨htext, hbounds⟩ := KeyLocator.ofTexts_concat
    ((done.map (·.key)).map (file.keyText p)) ((done ++ [row]).map (rawDigest ·.key))
    (file.keyText p row.key)
  simp only [rowsOf, locatorOf, List.map_append, List.map_map, List.map_cons, List.map_nil,
    List.getLast?_append, List.getLast?_singleton, Option.map_some, Option.some_or,
    LocatorRows.mk.injEq] at *
  refine ⟨htext, hbounds, rfl, ?_, trivial⟩
  have hlen := congrArg List.length htext
  rw [List.length_append] at hlen
  simp only [KeyLocator.ofTexts] at hlen ⊢
  omega

/-- Appending one row, whose text fits and whose start is in order. -/
theorem appendLocatorRow_ensures (hI : LogInvariant I) (hfixed : fixed + u32Bound ≤ u64Bound)
    (done : List DecodedKeyRow) (row : DecodedKeyRow)
    : Ensures w I (file.appendLocatorRow (file.rowsOf w.platform fixed done) row)
        (fun rows => rows = file.rowsOf w.platform fixed (done ++ [row])
          ∧ file.RowsFit w.platform fixed (done ++ [row]))
        (fun e => Interrupted w e ∨ ¬(file.RowsFit w.platform fixed (done ++ [row])
          ∧ StartsFrom file.layout.totalDecodedRecordLen 0 (done ++ [row]))) := by
  have hlen : ((done ++ [row]).flatMap (fun row => file.keyText w.platform row.key)).length
      = (file.rowsOf w.platform fixed done).text.length
        + (file.keyText w.platform row.key).length := by
    rw [text_rowsOf, List.flatMap_append, List.length_append]
    simp
  unfold appendLocatorRow
  apply ensures_failIf_bind
  . intro h
    right
    rintro ⟨-, hstarts⟩
    have := (hstarts.1 row (by simp)).2
    omega
  intro _
  apply ensures_failIf_bind
  . intro h
    right
    rintro ⟨-, hstarts⟩
    cases hlast : done.getLast? with
    | none => simp [rowsOf, hlast] at h
    | some last =>
      simp only [rowsOf, hlast, Option.map_some, Option.any_some, decide_eq_true_eq] at h
      have := (List.pairwise_append.mp hstarts.2).2.2 last (List.mem_of_getLast? hlast) row (by simp)
      omega
  intro _
  apply ensures_platform_bind
  apply Ensures.liftM_bind
  . intro e he
    right
    rintro ⟨hfit, -⟩
    have := hfit.text
    rw [KeyNormalizer.normalizedLen_of_lt] at he
    . contradiction
    . rw [hlen] at this
      change (file.keyText w.platform row.key).length < u64Bound
      have : u32Bound ≤ u64Bound := by decide
      omega
  intro normalizedLen hnormalized
  rw [KeyNormalizer.normalizedLen_eq_ok] at hnormalized
  obtain ⟨rfl, -⟩ := hnormalized
  have hkey : Unicode.utf8 (file.normalizer.normalizeText w.platform row.key)
      = file.keyText w.platform row.key := rfl
  simp only [hkey]
  have hestimated : (file.rowsOf w.platform fixed done).estimatedBytes
      = fixed + (file.rowsOf w.platform fixed done).text.length := rfl
  apply ensures_okOr_bind
  . intro h
    right
    rintro ⟨hfit, -⟩
    have := hfit.text
    rw [checkedAdd_eq_none] at h
    omega
  intro estimatedBytes h
  obtain ⟨rfl, -⟩ := checkedAdd_eq_some.mp h
  apply ensures_failIf_bind
  . intro h
    right
    rintro ⟨hfit, -⟩
    have := hfit.bytes
    omega
  intro hbytes
  apply ensures_reserve_bind hI
  . exact fun e he => .inl he
  have hconcat := file.rowsOf_concat w.platform fixed done row
  have htext : (file.rowsOf w.platform fixed (done ++ [row])).text
      = (file.rowsOf w.platform fixed done).text ++ file.keyText w.platform row.key := by
    rw [hconcat]
  rw [text_rowsOf] at htext
  apply ensures_okOr_bind
  . intro h
    right
    rintro ⟨hfit, -⟩
    have := hfit.text
    simp only [toU32?, ite_eq_right_iff, reduceCtorEq, imp_false] at h
    rw [← htext] at h
    omega
  intro bound h
  rw [toU32?_eq_some, ← htext] at h
  obtain ⟨hbound, htextlen⟩ := h
  apply Ensures.pure
  refine ⟨?_, ?_, htextlen⟩
  . rw [hconcat, ← hbound, htext]
  . omega

/-- A failure of the construction: from outside, or because the locator does not fit. -/
def BuildFails (file : MdictFile) (w : World) (e : Error) : Prop :=
  Interrupted w e ∨ ∀ blocks, file.DecodesTo w.platform blocks →
    ¬file.LocatorFits w.platform (keysOf blocks)

/-- What the index slots of a locator take. -/
def fixedBytes (file : MdictFile) : Nat := (file.len + 1 + file.len * 2) * 4

theorem RowsFit.of_locatorFits (hblocks : file.DecodesTo p blocks)
    (h : file.LocatorFits p (keysOf blocks))
    : file.RowsFit p file.fixedBytes blocks.flatten := by
  have hflat : (keysOf blocks).flatMap (file.keyText p)
      = blocks.flatten.flatMap (fun row => file.keyText p row.key) := by
    rw [keysOf, List.flatMap_map]
  obtain ⟨-, hbytes, htext⟩ := h
  rw [hflat] at hbytes htext
  rw [hblocks.length_keysOf] at hbytes
  exact ⟨hbytes, htext⟩

theorem appendLocatorBlock_ensures (hI : file.Invariant w.platform I)
    (hfixed : file.fixedBytes + u32Bound ≤ u64Bound) {done : List (List DecodedKeyRow)}
    (hdone : ∀ i rows, done[i]? = some rows → file.freshRows w.platform i = .ok rows)
    (hfit : file.RowsFit w.platform file.fixedBytes done.flatten)
    (hindex : done.length < file.keyBlockCount)
    : Ensures w I
        (file.appendLocatorBlock (file.rowsOf w.platform file.fixedBytes done.flatten) done.length)
        (fun state => ∃ rows, file.freshRows w.platform done.length = .ok rows
          ∧ state = file.rowsOf w.platform file.fixedBytes (done ++ [rows]).flatten
          ∧ file.RowsFit w.platform file.fixedBytes (done ++ [rows]).flatten)
        (file.BuildFails w) := by
  -- What has been gathered is a prefix of what all blocks decode to.
  have hbegins (all : List (List DecodedKeyRow)) (hall : file.DecodesTo w.platform all)
      : ∃ rest, all = done ++ rest := by
    refine ⟨all.drop done.length, ?_⟩
    have : all.take done.length = done := by
      apply List.ext_getElem
      . rw [List.length_take, hall.length_eq]
        omega
      . intro i hi hi'
        rw [List.getElem_take]
        have h1 := hall.freshRows i _ (List.getElem?_eq_getElem (by rw [List.length_take] at hi; omega))
        rw [hdone i _ (List.getElem?_eq_getElem hi'), Except.ok.injEq] at h1
        exact h1.symm
    conv_lhs => rw [← List.take_append_drop done.length all, this]
  have hblock := List.getElem?_eq_getElem (l := file.layout.keyBlocks) hindex
  generalize file.layout.keyBlocks[done.length] = block at hblock
  unfold appendLocatorBlock
  rw [hblock, okOr_some]
  apply Ensures.liftM_bind
  . intro e he
    contradiction
  rintro _ ⟨⟩
  apply Ensures.bind
  . apply (decodeKeyBlock_ensures hI done.length).mono (fun _ h => h)
    rintro e (he | ⟨origin, hle, he⟩)
    . exact .inl he
    . right
      intro all hall
      have hlt : origin < all.length := by
        rw [hall.length_eq]
        omega
      rw [hall.freshRows origin _ (List.getElem?_eq_getElem hlt)] at he
      contradiction
  intro rows hrows
  have hnext (all : List (List DecodedKeyRow)) (hall : file.DecodesTo w.platform all)
      : ∃ rest, all = done ++ rows :: rest := by
    obtain ⟨rest, rfl⟩ := hbegins all hall
    cases rest with
    | nil =>
      have := hall.length_eq
      rw [List.append_nil] at this
      omega
    | cons rows' rest =>
      have := hall.freshRows done.length rows' (by simp)
      rw [hrows, Except.ok.injEq] at this
      exact ⟨rest, by rw [this]⟩
  have hfold : Ensures w I
      (rows.foldlM file.appendLocatorRow (file.rowsOf w.platform file.fixedBytes done.flatten))
      (fun state => state = file.rowsOf w.platform file.fixedBytes (done.flatten ++ rows)
        ∧ file.RowsFit w.platform file.fixedBytes (done.flatten ++ rows))
      (file.BuildFails w) := by
    apply Ensures.foldlM (J := fun seen state =>
      state = file.rowsOf w.platform file.fixedBytes (done.flatten ++ seen)
        ∧ file.RowsFit w.platform file.fixedBytes (done.flatten ++ seen))
    . rintro seen row rest _ hsplit ⟨rfl, -⟩
      apply (appendLocatorRow_ensures hI.events hfixed (done.flatten ++ seen) row).mono
      . intro state hstate
        rw [List.append_assoc] at hstate
        exact hstate
      . rintro e (he | he)
        . exact .inl he
        . right
          intro all hall hfits
          obtain ⟨later, rfl⟩ := hnext all hall
          have hseen : (done.flatten ++ seen) ++ [row] <+: (done ++ rows :: later).flatten := by
            rw [List.flatten_append, List.flatten_cons, hsplit]
            exact ⟨rest ++ later.flatten, by simp⟩
          exact he ⟨(RowsFit.of_locatorFits hall hfits).of_isPrefix hseen,
            hall.startsFrom.of_isPrefix hseen⟩
    . rw [List.append_nil]
      exact ⟨rfl, hfit⟩
  apply Ensures.bind hfold
  rintro _ ⟨rfl, hfit'⟩
  have hflatten : done.flatten ++ rows = (done ++ [rows]).flatten := by simp
  rw [hflatten] at hfit' ⊢
  have hend : checkedAdd block.entryStartIndex block.entryCount
      = some (Search.start file.layout.entryCounts (done.length + 1)) := by
    rw [checkedAdd_eq_some]
    exact ⟨file.layoutVerified.entryEnd hblock, file.layoutVerified.entryStart_le _⟩
  have hcount : (file.rowsOf w.platform file.fixedBytes (done ++ [rows]).flatten).digests.length
      = Search.start file.layout.entryCounts (done.length + 1) := by
    have hlengths := file.lengths_of_freshRows w.platform
      (file.freshRows_concat w.platform hdone hrows)
    have hlen : (file.rowsOf w.platform file.fixedBytes (done ++ [rows]).flatten).digests.length
        = (done ++ [rows]).flatten.length := by
      rw [rowsOf, locatorOf, KeyLocator.ofTexts, List.length_map, List.length_map]
    rw [hlen, List.length_flatten, hlengths, List.length_append, List.length_singleton]
    rfl
  rw [hend, okOr_some]
  apply Ensures.liftM_bind
  . intro e he
    contradiction
  rintro _ ⟨⟩
  rw [hcount]
  apply ensures_failIf_bind
  . intro h
    exact absurd rfl h
  intro _
  exact .pure ⟨rows, hrows, rfl, hfit'⟩

/-- The construction yields the locator of all keys; it fails only when that does not fit. -/
theorem buildKeyLocator_ensures (hI : file.Invariant w.platform I)
    : Ensures w I file.buildKeyLocator
        (fun locator => ∃ blocks, file.DecodesTo w.platform blocks
          ∧ file.LocatorFits w.platform (keysOf blocks)
          ∧ locator = file.locatorOf w.platform (keysOf blocks))
        (file.BuildFails w) := by
  unfold buildKeyLocator
  apply ensures_failIf_bind
  . intro h
    right
    intro blocks hblocks hfits
    have := hfits.entries
    rw [hblocks.length_keysOf] at this
    omega
  intro hentries
  have hlen := file.layoutVerified.totalEntries_lt
  have hbound : u32Max + 1 = u32Bound ∧ u32Bound * 16 ≤ u64Bound := by decide
  have hmin : file.len ≤ u32Max := by omega
  rw [show checkedUsize file.len "locator entry count" = .ok file.len from
    checkedUsize_eq_ok.mpr ⟨rfl, hlen⟩]
  apply Ensures.liftM_bind
  . intro e he
    contradiction
  rintro _ ⟨⟩
  have hslots : (do
      let boundSlots ← checkedAdd file.len 1
      let orderAndDigestSlots ← checkedMul file.len 2
      let slots ← checkedAdd boundSlots orderAndDigestSlots
      checkedMul slots 4) = some file.fixedBytes := by
    rw [show checkedAdd file.len 1 = some (file.len + 1) by simp; omega,
      show checkedMul file.len 2 = some (file.len * 2) by simp; omega]
    simp only [Option.bind_eq_bind, Option.bind_some]
    rw [show checkedAdd (file.len + 1) (file.len * 2) = some (file.len + 1 + file.len * 2) by
      simp; omega]
    simp only [Option.bind_some]
    rw [checkedMul_eq_some, fixedBytes]
    omega
  have hfixed : file.fixedBytes + u32Bound ≤ u64Bound := by
    rw [fixedBytes]
    omega
  rw [hslots, okOr_some]
  apply Ensures.liftM_bind
  . intro e he
    contradiction
  rintro _ ⟨⟩
  apply ensures_failIf_bind
  . intro h
    right
    intro blocks hblocks hfits
    have := (RowsFit.of_locatorFits hblocks hfits).bytes
    omega
  intro hbytes
  apply ensures_reserve_bind hI.events
  . exact fun e he => .inl he
  -- After `i` blocks the loop has gathered the rows of the first `i` blocks.
  apply Ensures.bind (Ensures.foldlM_range (J := fun i state =>
    ∃ done : List (List DecodedKeyRow), done.length = i
      ∧ (∀ j rows, done[j]? = some rows → file.freshRows w.platform j = .ok rows)
      ∧ state = file.rowsOf w.platform file.fixedBytes done.flatten
      ∧ file.RowsFit w.platform file.fixedBytes done.flatten) ?step ?start)
  case step =>
    rintro i _ hi ⟨done, rfl, hdone, rfl, hfit⟩
    apply (appendLocatorBlock_ensures hI hfixed hdone hfit hi).mono _ (fun _ h => h)
    rintro state ⟨rows, hrows, hstate, hfit'⟩
    exact ⟨done ++ [rows], by simp, file.freshRows_concat w.platform hdone hrows, hstate, hfit'⟩
  case start =>
    refine ⟨[], rfl, by simp, rfl, ?_⟩
    constructor
    . simp only [List.flatten_nil, List.flatMap_nil, List.length_nil]
      omega
    . simp only [List.flatten_nil, List.flatMap_nil, List.length_nil]
      omega
  rintro _ ⟨blocks, hlength, hrows, rfl, hfit⟩
  have hblocks : file.DecodesTo w.platform blocks := ⟨hlength, hrows⟩
  have hkeys : blocks.flatten.map (·.key) = keysOf blocks := rfl
  have hcount : (keysOf blocks).length = file.len := hblocks.length_keysOf
  apply ensures_failIf_bind
  . intro h
    rw [rowsOf, locatorOf, KeyLocator.ofTexts, List.length_map, hkeys] at h
    exact absurd hcount h
  intro _
  apply Ensures.pure
  refine ⟨blocks, hblocks, ?_, ?_⟩
  . obtain ⟨hbytes', htext'⟩ := hfit
    have hflat : blocks.flatten.flatMap (fun row => file.keyText w.platform row.key)
        = (keysOf blocks).flatMap (file.keyText w.platform) := by
      rw [keysOf, List.flatMap_map]
    rw [hflat] at hbytes' htext'
    exact ⟨by rw [hcount]; omega, by rw [hcount]; exact hbytes', htext'⟩
  . rw [locatorOf, KeyLocator.ofTexts, List.length_map, hcount, rowsOf, hkeys, locatorOf,
      KeyLocator.ofTexts, List.length_map, hcount]

/-- What is kept of the construction is sound. -/
theorem buildAndKeepKeyLocator_ensures (hI : file.Invariant w.platform I)
    : Ensures w I file.buildAndKeepKeyLocator
        (fun locator => ∃ blocks, file.DecodesTo w.platform blocks
          ∧ file.LocatorFits w.platform (keysOf blocks)
          ∧ locator = file.locatorOf w.platform (keysOf blocks))
        (file.BuildFails w) := by
  unfold buildAndKeepKeyLocator
  apply Ensures.bind (Ensures.attempt_of (buildKeyLocator_ensures hI))
  intro result hresult
  cases result with
  | ok locator =>
    have hresult := hresult.1 locator rfl
    apply Ensures.bind (R := fun _ => True)
    . apply Ensures.modify _ trivial
      intro s hs
      apply hI.locator s _ hs
      constructor
      . intro l hl
        cases hl
        exact hresult
      . intro failure hfailure
        simp at hfailure
    . intro _ _
      exact .pure hresult
  | error e =>
    have hresult := hresult.2 e rfl
    intro s hs
    obtain ⟨kept, events, hcapture, hsome, -⟩ := CachedFailureKind.capture_run e w s
    dsimp only
    rw [Prog.bind_of_ok hcapture, Prog.modify_bind_apply, Prog.fail_apply]
    refine ⟨?_, hresult⟩
    cases kept with
    | none => exact hI.events s events hs
    | some failure =>
      have hs' := hI.events s events hs
      refine hI.locator _ (some (.failed failure)) hs' ⟨?_, ?_⟩
      . intro l hl
        simp at hl
      . intro failure' hfailure
        cases hfailure
        obtain ⟨-, hsettled⟩ := hsome failure rfl
        rcases hresult with hresult | hresult
        . simp [Error.isSettled, hresult.1] at hsettled
        . exact hresult

/-- The locator that a query searches is that of all keys. -/
theorem keyLocator_ensures (hI : file.Invariant w.platform I)
    : Ensures w I file.keyLocator
        (fun locator => ∃ blocks, file.DecodesTo w.platform blocks
          ∧ file.LocatorFits w.platform (keysOf blocks)
          ∧ locator = file.locatorOf w.platform (keysOf blocks))
        (file.BuildFails w) := by
  intro s hs
  rw [keyLocator, Prog.get_bind_apply]
  cases hlocator : s.locator with
  | none => exact buildAndKeepKeyLocator_ensures hI s hs
  | some value =>
    cases value with
    | ready locator => exact ⟨hs, (hI.sound s hs).locator.ready locator hlocator⟩
    | failed failure => exact ⟨hs, .inr ((hI.sound s hs).locator.failed failure hlocator)⟩

/-- A dictionary that decodes and fits the limits has its locator. -/
theorem keyLocator_answers (hI : file.Invariant w.platform I)
    (h : file.DecodesTo w.platform blocks) (hfits : file.LocatorFits w.platform (keysOf blocks))
    : Answers w I file.keyLocator (.ok (file.locatorOf w.platform (keysOf blocks))) := by
  apply (keyLocator_ensures hI).mono
  . rintro locator ⟨blocks', h', -, rfl⟩
    rw [h.unique h']
  . rintro e (he | he)
    . exact .inl he
    . exact absurd hfits (he blocks h)

end MdictFile

end Mdict
