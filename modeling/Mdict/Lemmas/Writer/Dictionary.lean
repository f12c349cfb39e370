import Mdict.Lemmas.Desk
import Mdict.Lemmas.Writer.Contents

/-!
This module contains that a written file, once open, represents the dictionary of what was written.
-/

namespace Mdict

open Effect MdictFile

/-- The row of an entry starts its record where those before it end. -/
theorem getElem?_rowsFrom (first : Nat) (entries : List (Str × Bytes)) (i : Nat)
    : (rowsFrom first entries)[i]? = entries[i]?.map fun entry =>
        { key := entry.1
          recordStart := first + Search.start (entries.map fun entry => entry.2.length) i } := by
  induction entries generalizing first i with
  | nil => rfl
  | cons entry entries ih =>
    obtain ⟨key, record⟩ := entry
    rw [rowsFrom]
    cases i with
    | zero => simp
    | succ i =>
      rw [List.getElem?_cons_succ, List.getElem?_cons_succ, ih]
      congr 1
      funext entry
      rw [Search.start, Search.start, List.map_cons, List.take_succ_cons, List.sum_cons,
        Nat.add_assoc]

namespace Volume

/-- What is written, as its readers are to see it. -/
def dictionary (volume : Volume) (header : Header) (limits : Limits) : Dictionary where
  normalizer := .fromHeader header volume.kind
  recordEncoding :=
    match volume.kind with
    | .mdx => some volume.encoding.text
    | .mdd => none
  limits
  entries := volume.entries

variable {volume : Volume} {options : OpenOptions} {header : Header} {file : MdictFile}
variable {p : Platform}

/-- The span of a row in the record stream is its record. -/
theorem spans_rows (volume : Volume)
    : (descriptorsOf volume.recordBlocks.flatten.length volume.rows.flatten).map (fun descriptor =>
          (descriptor.key.key,
            Search.slice volume.recordBlocks.flatten descriptor.start descriptor.stop))
        = volume.entries := by
  have hstream : volume.recordBlocks.flatten = (volume.entries.map (·.2)).flatten := by
    rw [volume.recordBlocks_flatten]
    exact List.flatMap_def
  have hsizes : (volume.entries.map (·.2)).map List.length
      = volume.entries.map fun entry => entry.2.length := List.map_map
  have htotal : volume.recordBlocks.flatten.length
      = Search.start (volume.entries.map fun entry => entry.2.length) volume.entries.length := by
    rw [hstream, List.length_flatten, hsizes, ← Search.start_length, List.length_map]
  apply List.ext_getElem?
  intro i
  rw [List.getElem?_map, descriptorsOf, List.getElem?_mapIdx, Option.map_map, flatten_rows,
    getElem?_rowsFrom, Option.map_map]
  cases hentry : volume.entries[i]? with
  | none => rfl
  | some entry =>
    have hlt := (List.getElem?_eq_some_iff.mp hentry).1
    have hstop : stopOf volume.recordBlocks.flatten.length (rowsFrom 0 volume.entries) i
        = Search.start (volume.entries.map fun entry => entry.2.length) (i + 1) := by
      rw [stopOf, getElem?_rowsFrom, Option.map_map]
      cases hnext : volume.entries[i + 1]? with
      | none =>
        have hlast := List.getElem?_eq_none_iff.mp hnext
        rw [Option.map_none, Option.getD_none, htotal, show volume.entries.length = i + 1 by omega]
      | some next =>
        rw [Option.map_some, Option.getD_some]
        exact Nat.zero_add _
    have hsize : (volume.entries.map fun entry => entry.2.length)[i]? = some entry.2.length := by
      rw [List.getElem?_map, hentry, Option.map_some]
    obtain ⟨hlt', hget⟩ := List.getElem?_eq_some_iff.mp hsize
    have hrecord : (volume.entries.map (·.2))[i]? = some entry.2 := by
      rw [List.getElem?_map, hentry, Option.map_some]
    have hslice := Search.slice_flatten (a := 0) hrecord (Nat.le_refl _)
    rw [hsizes, Nat.add_zero, ← hget, ← Search.start_succ hlt', hget, Search.slice_zero_length,
      ← hstream] at hslice
    rw [Option.map_some]
    simp only [Function.comp, Nat.zero_add, hstop, hslice]

theorem IsOpen.represents (hopen : volume.IsOpen options header file)
    (hfits : volume.Fits options.limits)
    (hlower : ∀ character, (p.toLowercase character).length ≤ 3)
    : file.Represents p (volume.dictionary header options.limits) := by
  refine ⟨volume.rows, volume.recordBlocks, hopen.decodesTo hfits hlower,
    hopen.recordsDecodeTo hfits, ?_⟩
  have htotal : file.layout.totalDecodedRecordLen = volume.recordBlocks.flatten.length := by
    rw [hopen.layout]
    rfl
  rw [MdictFile.dictionary, htotal, spans_rows, dictionary, hopen.limits, normalizer, hopen.kind,
    hopen.layout]
  rfl

end Volume

end Mdict
