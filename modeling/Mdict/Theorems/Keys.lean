import Mdict.Theorems.Records

/-!
This module contains that a batch of ordinals is answered like its ordinals one by one, after any
history of calls on the dictionary.
-/

namespace Mdict

open Effect MdictFile

variable {w : World} {index : Option PersistentKeyIndex} {s : Session} {file : MdictFile}
variable {blocks : List (List DecodedKeyRow)}

/--
A batch answers for each of its ordinals, in their order, what a single lookup answers, whenever and
after whatever calls it is made.
-/
theorem keysAt_pointwise (h : Reachable file (·.platform = w.platform) index s)
    (hblocks : file.DecodesTo w.platform blocks) (ordinals : List Nat)
    : (w.Quiet → ∃ results s', file.keysAtOrdinals ordinals w s = (.ok results, s'))
        ∧ ∀ results, (file.keysAtOrdinals ordinals w s).1 = .ok results →
          results.length = ordinals.length
            ∧ ∀ (j ordinal : Nat), ordinals[j]? = some ordinal →
              ∃ found, results[j]? = some found
                ∧ (found = none ↔ file.len ≤ ordinal)
                ∧ ∀ (w' : World) (index' : Option PersistentKeyIndex) (s' : Session), w'.Quiet →
                  w'.platform = w.platform →
                  Reachable file (·.platform = w.platform) index' s' →
                  ∃ s'', file.keyAtOrdinal ordinal w' s' = (.ok found, s'') := by
  have hbatch := h.answer fun I hI => keysAtOrdinals_answers hI hblocks ordinals
  constructor
  . intro hw
    obtain ⟨s', hrun⟩ := hbatch.1 hw
    exact ⟨_, s', hrun⟩
  . intro results hresults
    have hsound := (h.allSound fun _ hw => hw).1
    have hanswer := keysAtOrdinals_answers (@file_invariant_allSound _ index _) hblocks ordinals
    have heq := (hanswer.outcome hsound).2.1 results hresults
    injection heq with heq
    subst heq
    refine ⟨List.length_map _, ?_⟩
    intro j ordinal hj
    rw [List.getElem?_map, hj]
    refine ⟨_, rfl, ?_, ?_⟩
    . rw [Option.map_eq_none_iff, List.getElem?_eq_none_iff, hblocks.length_keysOf]
    . intro w' index' s' hw' hplatform hreach
      rw [← hplatform] at hreach hblocks
      exact (hreach.answer fun I hI => keyAtOrdinal_answers hI hblocks ordinal).1 hw'

/-- The keys of the sample in reverse, with one repeated and one that is not there. -/
theorem keysAt_pointwise_sample
    : ∃ results s', Sample.file.keysAtOrdinals [2, 0, 7, 2] Sample.world .fresh = (.ok results, s')
        ∧ results.length = 4 ∧ results[2]? = some none := by
  obtain ⟨hquiet, hall⟩ := keysAt_pointwise Sample.reachable Sample.decodesTo [2, 0, 7, 2]
  obtain ⟨results, s', hrun⟩ := hquiet Sample.quiet
  obtain ⟨hlen, hpoint⟩ := hall results (by rw [hrun])
  obtain ⟨found, hfound, hnone, -⟩ := hpoint 2 7 rfl
  refine ⟨results, s', hrun, hlen, ?_⟩
  rw [hfound, hnone.mpr (by decide)]

end Mdict
