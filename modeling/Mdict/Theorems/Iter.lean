import Mdict.Lemmas.Iter
import Mdict.Lemmas.Layout
import Mdict.Lemmas.Sample

/-!
This module contains that iteration agrees with random access, also where blocks are corrupt.
-/

namespace Mdict

open Effect MdictFile

variable {file : MdictFile} {w w' : World}

/--
On fresh handles of a file that opens, each of the iterators yields what random access answers at
0, 1, 2 and so on up to the first failure, that failure, and nothing from then on. Random access
finds nothing exactly from the number of entries on.
-/
theorem iterators_agree {bytes : Bytes} {options : OpenOptions}
    (hopened : file.OpenedFrom bytes options) (hw : w.Quiet) (hw' : w'.Quiet)
    (hplatform : w'.platform = w.platform) (events events' : List Event) (count : Nat)
    : let fresh := { Session.fresh with events }
      let fresh' := { Session.fresh with events := events' }
      let keyAt := fun i => (file.keyAtOrdinal i w' fresh').1
      let entryAt := fun i => (MdxFile.entryAt ⟨file⟩ i w' fresh').1
      let resourceAt := fun i => (MddFile.resourceAt ⟨file⟩ i w' fresh').1
      (∃ s', items (KeyIter.next file) count .new w fresh
          = (.ok (accessed keyAt count 0), s'))
      ∧ (∃ s', items (MdxEntryIter.next ⟨file⟩) count ⟨.new, false⟩ w fresh
          = (.ok (accessed entryAt count 0), s'))
      ∧ (∃ s', items (MddResourceIter.next ⟨file⟩) count ⟨.new, false⟩ w fresh
          = (.ok (accessed resourceAt count 0), s'))
      ∧ ∀ i, (keyAt i = .ok none ↔ file.len ≤ i) ∧ (entryAt i = .ok none ↔ file.len ≤ i)
          ∧ (resourceAt i = .ok none ↔ file.len ≤ i) := by
  have hpos : ∀ block ∈ file.layout.keyBlocks, 0 < block.entryCount :=
    fun block hblock => (hopened.wellFormed.keyBlockSizes block hblock).1
  have hfresh {α : Type} {x : Exec α} (hx : Determined w.platform (file.Clean w.platform) x)
      : (x w' { Session.fresh with events := events' }).1 = outcome w.platform x := by
    rw [← hplatform] at hx ⊢
    obtain ⟨s', hrun, -⟩ := hx.replies clean_fresh hw' _ (clean_opened events')
    rw [hrun]
  have hstart := @RowIter.standsAt_new file w.platform
  have hentries := MdxEntryIter.readsRecords ⟨file⟩
  have hresources := MddResourceIter.readsRecords ⟨file⟩
  have hreadEntry := @MdxFile.readEntry_determined ⟨file⟩ w.platform
  have hreadResource := @MddFile.readResource_determined ⟨file⟩ w.platform
  refine ⟨?_, ?_, ?_, ?_⟩
  . simp only [hfresh (keyAtOrdinal_determined _)]
    exact items_eq (nextKey_steps hw hpos) nextKey_done count hstart (clean_opened events)
  . simp only [MdxFile.entryAt_eq, hfresh (readAt_determined hreadEntry _)]
    exact items_eq (hentries.steps hw hpos hreadEntry) hentries.done count
      ⟨.new, rfl, hstart⟩ (clean_opened events)
  . simp only [MddFile.resourceAt_eq, hfresh (readAt_determined hreadResource _)]
    exact items_eq (hresources.steps hw hpos hreadResource) hresources.done count
      ⟨.new, rfl, hstart⟩ (clean_opened events)
  . intro i
    dsimp only
    rw [MdxFile.entryAt_eq, MddFile.resourceAt_eq]
    exact ⟨keyAtOrdinal_eq_none, readAt_eq_none, readAt_eq_none⟩

/-- The keys of a small file, one and no more. -/
theorem iterators_agree_sample
    : ∃ file s', MdictFile.open Sample.container .mdx .new Sample.world .fresh = (.ok file, s')
        ∧ ∃ s'', items (KeyIter.next file) 2 .new Sample.world .fresh
          = (.ok (accessed (fun i => (file.keyAtOrdinal i Sample.world .fresh).1) 2 0), s'') := by
  have hopens := Sample.evaluates.container_opens
  match hrun : MdictFile.open Sample.container .mdx .new Sample.world .fresh with
  | (.ok file, s') =>
    exact ⟨file, s', rfl, (iterators_agree ⟨.mdx, Sample.world, .fresh, s', hrun⟩ Sample.quiet
      Sample.quiet rfl [] [] 2).1⟩
  | (.error e, s') =>
    rw [hrun] at hopens
    contradiction

end Mdict
