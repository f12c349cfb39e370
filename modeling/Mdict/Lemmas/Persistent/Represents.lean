import Mdict.Lemmas.Page
import Mdict.Lemmas.Persistent.Rows

/-!
This module contains what it means that a key index represents the keys of a dictionary. Such an
index has the same ranges as the in-memory locator, and its rows verify against the source.
-/

namespace Mdict

open Effect Persistent

namespace PersistentKeyIndex

variable {index : PersistentKeyIndex}

theorem lowerBoundOf_le {query : Bytes} {inclusiveEnd : Bool}
    : index.lowerBoundOf query inclusiveEnd ≤ index.len :=
  Search.bisect_le _ _ _ (Nat.zero_le _)

theorem rangeOf_eq_some {query : Bytes} {start stop : Nat}
    (h : index.rangeOf query = some (start, stop))
    : start < stop ∧ stop ≤ index.len := by
  simp only [rangeOf, Option.ite_none_right_eq_some, Option.some.injEq, Prod.mk.injEq] at h
  obtain ⟨hlt, rfl, rfl⟩ := h
  exact ⟨hlt, lowerBoundOf_le⟩

theorem length_rowsIn {start stop : Nat} : (index.rowsIn start stop).length = stop - start := by
  rw [rowsIn, List.length_map, MdictFile.positions, List.length_range']

/-- The rows of an index in order. -/
def rows (index : PersistentKeyIndex) : List Nat := (List.range index.len).map index.orderOf

theorem getElem?_rows {position : Nat} (h : position < index.len)
    : index.rows[position]? = some (index.orderOf position) := by
  rw [rows, List.getElem?_map, List.getElem?_range h]
  rfl

theorem length_rows : index.rows.length = index.len := by
  rw [rows, List.length_map, List.length_range]

theorem rowsIn_eq_slice {start stop : Nat} (h : stop ≤ index.len)
    : index.rowsIn start stop = Search.slice index.rows start stop := by
  apply List.ext_getElem
  . by_cases hle : start ≤ stop
    . rw [length_rowsIn, Search.length_slice (by rw [length_rows]; exact h)]
    . rw [length_rowsIn, Search.slice_of_le (by omega), List.length_nil]
      omega
  . intro i hi hi'
    rw [length_rowsIn] at hi
    simp only [rowsIn, MdictFile.positions, rows, Search.slice, List.getElem_map,
      List.getElem_range', List.getElem_take, List.getElem_drop, List.getElem_range, Nat.one_mul]

theorem textOf_length_lt (h : index.Intact) {row : Nat} : (index.textOf row).length < u64Bound := by
  have := h.len_lt
  rw [textOf, sectionSlice, Search.slice, List.length_take, List.length_drop]
  rw [IndexSource.len] at this
  omega

end PersistentKeyIndex

/-! ## Faithful indexes -/

/-- The index is that of these blocks of keys. -/
structure PersistentKeyIndex.Represents (index : PersistentKeyIndex) (file : MdictFile)
    (p : Platform) (blocks : List (List DecodedKeyRow))
    : Prop where
  intact : index.Intact
  complete : index.Complete
  decodes : file.DecodesTo p blocks
  len_eq : index.len = file.len
  rowFits : ∀ row < index.len, index.RowFits row
  text : ∀ row key, (MdictFile.keysOf blocks)[row]? = some key →
    index.textOf row = file.keyText p key
  digest : ∀ row key, (MdictFile.keysOf blocks)[row]? = some key →
    index.digestOf row = rawDigest key
  order : index.rows = (file.locatorOf p (MdictFile.keysOf blocks)).order

namespace PersistentKeyIndex.Represents

open MdictFile

variable {index : PersistentKeyIndex} {file : MdictFile} {p : Platform}
variable {blocks : List (List DecodedKeyRow)}

theorem length_keysOf (h : index.Represents file p blocks)
    : (keysOf blocks).length = index.len := by
  rw [h.decodes.length_keysOf, h.len_eq]

theorem orderOf_lt (h : index.Represents file p blocks) {position : Nat}
    (hposition : position < index.len)
    : index.orderOf position < index.len := by
  rw [← h.length_keysOf]
  apply (@sorted_locatorOf file p (keysOf blocks)).lt_of_mem
  rw [← h.order]
  exact List.mem_of_getElem? (getElem?_rows hposition)

/-- Ordinals take four bytes in the index. -/
theorem len_le (h : index.Represents file p blocks) : index.len ≤ u32Bound := by
  by_contra hlt
  have hmem : u32Bound ∈ index.rows := by
    rw [h.order, (@sorted_locatorOf file p (keysOf blocks)).perm.mem_iff,
      List.mem_range, h.length_keysOf]
    omega
  rw [rows, List.mem_map] at hmem
  obtain ⟨position, -, hposition⟩ := hmem
  have := @numberAt_lt index .order 4 position
  rw [orderOf] at hposition
  rw [hposition, u32Bound] at this
  omega

theorem readable (h : index.Represents file p blocks) : index.Readable :=
  ⟨h.complete, h.rowFits, fun _ => h.orderOf_lt⟩

theorem exists_key (h : index.Represents file p blocks) {row : Nat} (hrow : row < index.len)
    : ∃ key, (keysOf blocks)[row]? = some key :=
  ⟨_, List.getElem?_eq_getElem (by rw [h.length_keysOf]; exact hrow)⟩

theorem textOf_eq (h : index.Represents file p blocks) {row : Nat} (hrow : row < index.len)
    : index.textOf row = (file.locatorOf p (keysOf blocks)).row row := by
  obtain ⟨key, hkey⟩ := h.exists_key hrow
  rw [h.text row key hkey, row_locatorOf hkey]

/-- Every row verifies with its own text. -/
theorem verifies (h : index.Represents file p blocks) {row : Nat} (hrow : row < index.len)
    : file.Verifies p index row (index.textOf row) := by
  obtain ⟨key, hkey⟩ := h.exists_key hrow
  refine ⟨h.readable, hrow, textOf_length_lt h.intact, fun _ => h.decodes.not_failsAt, key, ?_⟩
  exact ⟨h.decodes.hasKey_iff.mpr hkey, (h.text row key hkey).symm, rfl, h.digest row key hkey⟩

theorem freshKey_eq (h : index.Represents file p blocks) {row : Nat} (hrow : row < index.len)
    : file.freshKey p row = (keysOf blocks)[row]? := by
  obtain ⟨key, hkey⟩ := h.exists_key hrow
  rw [hkey, (h.decodes.hasKey_iff.mpr hkey).freshKey_eq]

/-- The searches of the index are those of the locator. -/
theorem bisect_eq (h : index.Represents file p blocks) (goes : Bytes → Bool)
    : Search.bisect (fun position => goes (index.textOf (index.orderOf position))) 0 index.len
        = Search.partitionPoint (fun row => goes ((file.locatorOf p (keysOf blocks)).row row))
          (file.locatorOf p (keysOf blocks)).order := by
  rw [Search.partitionPoint, ← h.order, length_rows]
  apply Search.bisect_congr
  intro position _ hposition
  rw [getElem?_rows hposition, Option.any_some, h.textOf_eq (h.orderOf_lt hposition)]

theorem lowerBoundOf_false (h : index.Represents file p blocks) (query : Bytes)
    : index.lowerBoundOf query false
        = Search.partitionPoint
          (fun row => decide ((file.locatorOf p (keysOf blocks)).row row < query))
          (file.locatorOf p (keysOf blocks)).order := by
  rw [← h.bisect_eq (fun text => decide (text < query)), lowerBoundOf]
  apply Search.bisect_congr
  intro position _ _
  simp only [goesLeft, Bool.false_eq_true, if_false, decide_not, Bool.not_not]

theorem lowerBoundOf_true (h : index.Represents file p blocks) (query : Bytes)
    : index.lowerBoundOf query true
        = Search.partitionPoint
          (fun row => decide (¬query < (file.locatorOf p (keysOf blocks)).row row))
          (file.locatorOf p (keysOf blocks)).order := by
  rw [← h.bisect_eq (fun text => decide (¬query < text)), lowerBoundOf]
  apply Search.bisect_congr
  intro position _ _
  simp only [goesLeft, if_true, decide_not]

theorem rangeOf_eq (h : index.Represents file p blocks) (query : Bytes)
    : index.rangeOf query = (file.locatorOf p (keysOf blocks)).equalRange query := by
  rw [rangeOf, h.lowerBoundOf_false, h.lowerBoundOf_true, KeyLocator.equalRange]

theorem rowsIn_eq (h : index.Represents file p blocks) {query : Bytes} {start stop : Nat}
    (hrange : index.rangeOf query = some (start, stop))
    : index.rowsIn start stop = file.textOrdinals p (keysOf blocks) query := by
  rw [rowsIn_eq_slice (rangeOf_eq_some hrange).2, h.order]
  rw [h.rangeOf_eq] at hrange
  exact (slice_equalRange hrange).2.2

/-- The rows in the range of a text have this text. -/
theorem textOf_of_mem (h : index.Represents file p blocks) {query : Bytes} {start stop row : Nat}
    (hrange : index.rangeOf query = some (start, stop)) (hrow : row ∈ index.rowsIn start stop)
    : row < index.len ∧ index.textOf row = query := by
  rw [h.rowsIn_eq hrange] at hrow
  obtain ⟨key, hkey, htext⟩ := mem_ordinalsWhere.mp hrow
  rw [← h.length_keysOf]
  refine ⟨(List.getElem?_eq_some_iff.mp hkey).1, ?_⟩
  rw [h.text row key hkey]
  simpa using htext

/-- Every key is in the range of its own normalized text. -/
theorem exists_range (h : index.Represents file p blocks) {row : Nat} {key : Str}
    (hkey : (keysOf blocks)[row]? = some key)
    : ∃ start stop, index.rangeOf (file.keyText p key) = some (start, stop) := by
  cases hrange : index.rangeOf (file.keyText p key) with
  | some range => exact ⟨range.1, range.2, rfl⟩
  | none =>
    rw [h.rangeOf_eq] at hrange
    have hmem : row ∈ file.textOrdinals p (keysOf blocks) (file.keyText p key) :=
      mem_ordinalsWhere.mpr ⟨key, hkey, by simp⟩
    rw [equalRange_eq_none hrange] at hmem
    contradiction

/-- The search for the text of a key ends at a row with this text. -/
theorem lowerBoundOf_keyText (h : index.Represents file p blocks) {row : Nat} {key : Str}
    (hkey : (keysOf blocks)[row]? = some key)
    : index.lowerBoundOf (file.keyText p key) false < index.len
        ∧ index.textOf (index.orderOf (index.lowerBoundOf (file.keyText p key) false))
          = file.keyText p key := by
  obtain ⟨start, stop, hrange⟩ := h.exists_range hkey
  obtain ⟨hlt, hle⟩ := rangeOf_eq_some hrange
  have hstart : index.lowerBoundOf (file.keyText p key) false = start := by
    simp only [rangeOf, Option.ite_none_right_eq_some, Option.some.injEq, Prod.mk.injEq] at hrange
    exact hrange.2.1
  have hmem : index.orderOf start ∈ index.rowsIn start stop := by
    rw [rowsIn, positions, List.mem_map]
    exact ⟨start, List.mem_range'_1.mpr ⟨Nat.le_refl _, by omega⟩, rfl⟩
  rw [hstart]
  exact ⟨by omega, (h.textOf_of_mem hrange hmem).2⟩

/-- The reader measures a row by its bounds, which are those of its text. -/
theorem short_iff (h : index.Represents file p blocks) {row : Nat} (hrow : row < index.len)
    : index.Short row ↔ (index.textOf row).length ≤ index.maxRowBytes := by
  have hstop := (h.rowFits row hrow).stop
  have hsection := h.intact.sections .text
  rw [IndexSource.len] at hsection
  rw [Short, textOf, sectionSlice, Search.length_slice (by omega), Nat.add_sub_add_left]

theorem verifies_of_mem (h : index.Represents file p blocks) {query : Bytes}
    {start stop row : Nat} (hrange : index.rangeOf query = some (start, stop))
    (hrow : row ∈ index.rowsIn start stop)
    : file.Verifies p index row query := by
  obtain ⟨hlt, htext⟩ := h.textOf_of_mem hrange hrow
  have := h.verifies hlt
  rwa [htext] at this

end PersistentKeyIndex.Represents

end Mdict
