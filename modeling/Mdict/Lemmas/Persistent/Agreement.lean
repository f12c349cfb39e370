import Mdict.Lemmas.Persistent.Queries

/-!
This module contains the agreement of the two backends: what an index of the dictionary answers is
what the in-memory locator answers.
-/

namespace Mdict.PersistentKeyIndex.Represents

open Effect MdictFile

variable {index : PersistentKeyIndex} {file : MdictFile} {p : Platform}
variable {blocks : List (List DecodedKeyRow)}

/-- The digest of the index rules out no row whose key is the query. -/
theorem isExactRow_eq (h : index.Represents file p blocks) {row : Nat} (hrow : row < index.len)
    (query : Str)
    : file.isExactRow p index query row = (keysOf blocks)[row]?.any (· == query) := by
  obtain ⟨key, hkey⟩ := h.exists_key hrow
  rw [isExactRow, h.freshKey_eq hrow, h.digest row key hkey, hkey, Option.any_some]
  by_cases heq : key = query
  . simp [heq]
  . simp [heq]

theorem indexFound_eq (h : index.Represents file p blocks) (query : Str)
    : file.indexFound p index query = file.found p (keysOf blocks) query := by
  cases hrange : index.rangeOf (file.keyText p query) with
  | none =>
    rw [indexFound, hrange]
    rw [h.rangeOf_eq] at hrange
    exact (found_of_equalRange_eq_none hrange).symm
  | some range =>
    obtain ⟨start, stop⟩ := range
    have hexact : (index.rowsIn start stop).filter (file.isExactRow p index query)
        = exactOrdinals (keysOf blocks) query := by
      rw [← @filter_textOrdinals file p, ← h.rowsIn_eq hrange]
      apply List.filter_congr
      intro row hrow
      exact h.isExactRow_eq (h.textOf_of_mem hrange hrow).1 query
    rw [indexFound, hrange]
    dsimp only
    rw [hexact, h.rowsIn_eq hrange]
    rw [h.rangeOf_eq] at hrange
    rw [found_of_equalRange hrange]
    by_cases hnil : exactOrdinals (keysOf blocks) query = []
    . simp [hnil]
    . simp [hnil]

theorem indexRows_eq (h : index.Represents file p blocks) (query : Str)
    : file.indexRows p index query
        = file.textOrdinals p (keysOf blocks) (file.keyText p query) := by
  cases hrange : index.rangeOf (file.keyText p query) with
  | none =>
    rw [indexRows, hrange]
    rw [h.rangeOf_eq] at hrange
    exact (equalRange_eq_none hrange).symm
  | some range =>
    obtain ⟨start, stop⟩ := range
    rw [indexRows, hrange]
    exact h.rowsIn_eq hrange

theorem indexRowsWhere_eq (h : index.Represents file p blocks) (query : Str)
    (isMatch : Str → Bool)
    : file.indexRowsWhere p index query isMatch
        = ordinalsWhere (keysOf blocks) fun key =>
          file.keyText p key = file.keyText p query && isMatch key := by
  rw [indexRowsWhere, h.indexRows_eq, ← filter_ordinalsWhere, ← textOrdinals]
  apply List.filter_congr
  intro row hrow
  obtain ⟨key, hkey, -⟩ := mem_ordinalsWhere.mp hrow
  rw [h.freshKey_eq]
  rw [← h.length_keysOf]
  exact (List.getElem?_eq_some_iff.mp hkey).1

theorem indexVariantsPage_eq (h : index.Represents file p blocks) (query : Str)
    (offset limit : Nat)
    : file.indexVariantsPage p index query offset limit
        = CaseVariants.pageOf offset limit (exactOrdinals (keysOf blocks) query)
          (file.variantOrdinals p (keysOf blocks) query) := by
  rw [indexVariantsPage, h.indexRowsWhere_eq, h.indexRowsWhere_eq, ← filter_ordinalsWhere,
    ← textOrdinals, filter_textOrdinals]
  rfl

theorem takeWhile_congr {α : Type} {p q : α → Bool} {xs : List α} (h : ∀ x ∈ xs, p x = q x)
    : xs.takeWhile p = xs.takeWhile q := by
  induction xs with
  | nil => rfl
  | cons x xs ih =>
    rw [List.takeWhile_cons, List.takeWhile_cons, h x List.mem_cons_self,
      ih fun x hx => h x (List.mem_cons_of_mem _ hx)]

/-- The rows with a prefix are those of the locator, in its order. -/
theorem rowsWithPrefix_eq (h : index.Represents file p blocks) (text : Bytes)
    : rowsWithPrefix index text (index.lowerBoundOf text false)
        = (file.locatorOf p (keysOf blocks)).order.filter fun row =>
          text.isPrefixOf ((file.locatorOf p (keysOf blocks)).row row) := by
  have hsorted := @sorted_locatorOf file p (keysOf blocks)
  rw [← hsorted.takeWhile_prefix (fun _ => decide_eq_true_iff)
    (fun _ => List.isPrefixOf_iff_prefix), ← h.lowerBoundOf_false, ← h.order, rowsWithPrefix]
  apply takeWhile_congr
  intro row hrow
  rw [h.textOf_eq]
  rw [← h.length_keysOf]
  apply hsorted.lt_of_mem
  rw [← h.order]
  exact List.mem_of_mem_drop hrow

theorem texts_eq (h : index.Represents file p blocks)
    : (List.range index.len).map index.textOf = (keysOf blocks).map (file.keyText p) := by
  apply List.ext_getElem?
  intro row
  rw [List.getElem?_map, List.getElem?_map]
  by_cases hrow : row < index.len
  . obtain ⟨key, hkey⟩ := h.exists_key hrow
    rw [hkey, List.getElem?_range hrow, Option.map_some, Option.map_some, h.text row key hkey]
  . rw [List.getElem?_eq_none (by rw [List.length_range]; omega),
      List.getElem?_eq_none (by rw [h.length_keysOf]; omega)]
    rfl

/-- Entries that are verified are those of the dictionary. -/
theorem entries_eq (h : index.Represents file p blocks) {rows : List Nat}
    {entries : List KeyEntry} (hentries : file.EntriesVerified p index rows entries)
    : entries = (rows.map fun row => (keysOf blocks)[row]?.map (KeyEntry.mk row)).filterMap id := by
  obtain ⟨rfl, hverified⟩ := hentries
  rw [List.map_map, List.filterMap_map]
  conv_lhs => rw [← List.filterMap_some (l := entries)]
  apply List.filterMap_congr
  intro entry hentry
  have := h.decodes.hasKey_iff.mp (hverified entry hentry).hasKey
  simp [this]

end Mdict.PersistentKeyIndex.Represents
