import Mdict.Lemmas.Sample
import Mdict.Lemmas.Trace

/-!
This module contains the main result on reads of a dictionary file: the limits are enforced before.
-/

namespace Mdict

open Effect

/--
Whatever a file contains, opening it and decoding its blocks read nothing that leaves the file,
exceeds the limit of its kind or has not been charged to the memory budget, and decode into no
buffer that is too large.
-/
theorem reads_limited (bytes : Bytes) (options : OpenOptions) (w : World) (s : Session)
    : (∀ kind, Extends (Lawful bytes.length options.limits) s.events
        (openLayout ⟨bytes⟩ kind options w s).2.events)
      ∧ ∀ file : MdictFile, file.OpenedFrom bytes options → ∀ index,
        Extends (Lawful bytes.length options.limits) s.events
          (file.decodeKeyBlock index w s).2.events
        ∧ Extends (Lawful bytes.length options.limits) s.events
          (file.decodeRecordBlock index w s).2.events := by
  refine ⟨fun kind => Logged.openLayout w s, ?_⟩
  intro file hopened index
  have hwithin := hopened.withinLimits
  obtain ⟨hsource, hlimits⟩ := hopened.source_eq
  have hkeys := MdictFile.decodeKeyBlock_logged hwithin index w s
  have hrecords := MdictFile.decodeRecordBlock_logged hwithin index w s
  rw [hsource, hlimits] at hkeys hrecords
  exact ⟨hkeys, hrecords⟩

/-- A small file opens, and its first key block is decoded by lawful reads. -/
theorem reads_limited_sample
    : ∃ file, MdictFile.OpenedFrom file Sample.container .new
        ∧ Extends (Lawful Sample.container.length Limits.new) []
          (file.decodeKeyBlock 0 Sample.world .fresh).2.events := by
  have hopens := Sample.evaluates.layout_opens
  match hrun : openLayout ⟨Sample.container⟩ .mdx .new Sample.world .fresh with
  | (.error e, s') =>
    rw [hrun] at hopens
    contradiction
  | (.ok layout, s') =>
    have hopened : MdictFile.OpenedFrom {
        kind := .mdx
        source := ⟨Sample.container⟩
        layout := layout.val
        limits := OpenOptions.new.limits
        checksumPolicy := OpenOptions.new.checksumPolicy
        verified := layout.property
      } Sample.container .new := by
      refine ⟨.mdx, Sample.world, .fresh, s', ?_⟩
      have hsource : FileSource.open Sample.container = .ok ⟨Sample.container⟩ := rfl
      rw [MdictFile.open, hsource, Prog.ok_bind]
      exact (Prog.bind_of_ok hrun).trans rfl
    exact ⟨_, hopened, ((reads_limited Sample.container .new Sample.world .fresh).2 _ hopened 0).1⟩

end Mdict
