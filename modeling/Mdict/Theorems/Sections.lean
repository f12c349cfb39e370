import Mdict.Lemmas.Persistent.Scratch
import Mdict.Sample

/-!
This module contains that the sections of an index are written faithfully: whatever the pieces in
which a section is written, it consists of them and of the checksums of its chunks.
-/

namespace Mdict.Persistent

open Effect SectionScratchWriter

variable {w : World} {I : Session → Prop} {writer : SectionScratchWriter}

/-- The pieces that were written make up the section, and only the outside world makes this fail. -/
theorem writePieces_ensures (hI : LogInvariant I) {options : KeyIndexOptions}
    (hnew : writer.Holds options []) (hready : writer.inner.Ready) (pieces : List Bytes)
    : Ensures w I (writer.writePieces pieces)
        (fun last => last.Holds options pieces.flatten ∧ last.inner.Ready)
        (fun e => Interrupted w e ∨ e = .io ∧ u64Bound ≤ pieces.flatten.length) := by
  unfold writePieces
  apply Ensures.foldlM
    (J := fun seen (last : SectionScratchWriter) =>
      last.Holds options seen.flatten ∧ last.inner.Ready)
  . intro seen piece rest last hpieces hlast
    have hlt := hlast.1.chunkLen_lt
    rw [← hlast.1.chunkBytes_eq] at hlt
    rw [writeRounds_eq hlt (Nat.le_refl _), List.flatten_append,
      List.flatten_cons, List.flatten_nil, List.append_nil]
    apply ((writeAll_gives hI hlast.1 piece).and_ensures
      (writeAll_ready hI hlast.2 piece)).mono (fun _ hnext => hnext)
    intro e he
    apply he.imp_right
    intro hover
    rw [hpieces, List.flatten_append, List.flatten_cons, List.length_append, List.length_append]
    rw [hlast.1.len] at hover
    exact ⟨hover.1, by omega⟩
  . exact ⟨hnew, hready⟩

/--
However the bytes of a section are cut into writes, its file consists of them and its checksums are
those of its chunks, under `Skip` as many zeros. Only the outside world makes the writing fail; no
loop goes on for more rounds than it is given bytes.
-/
theorem sections_faithful (w : World) (s : Session) (kind : SectionKind) (policy : ChecksumPolicy)
    {capacity chunkBytes : Nat} (hcapacity : 1 ≤ capacity) (hchunk : 1 ≤ chunkBytes)
    (pieces : List Bytes)
    : (∀ e, (sectionOfPieces kind capacity chunkBytes policy pieces w s).1 = .error e →
        Interrupted w e ∨ e = .io ∧ u64Bound ≤ pieces.flatten.length)
      ∧ ∀ file, (sectionOfPieces kind capacity chunkBytes policy pieces w s).1 = .ok file →
        file.kind = kind
          ∧ file.file = pieces.flatten
          ∧ file.len = pieces.flatten.length
          ∧ file.checksums = (chunks chunkBytes pieces.flatten).map
              (fun chunk => if policy = .verify then adler32 chunk else 0)
          ∧ ∀ count, chunkCount file.len chunkBytes = .ok count → file.checksums.length = count := by
  have hI : LogInvariant (fun _ => True) := fun _ _ _ => trivial
  generalize hoptions : { KeyIndexOptions.new with chunkBytes, checksumPolicy := policy } = options
  have hchunkBytes : options.chunkBytes = chunkBytes := by rw [← hoptions]
  have hpolicy : options.checksumPolicy = policy := by rw [← hoptions]
  have hnew : (new [] capacity chunkBytes policy).Holds options [] := by
    rw [← hchunkBytes, ← hpolicy]
    exact holds_new (by omega) capacity
  have hready : (new [] capacity chunkBytes policy).inner.Ready := ⟨hcapacity, Nat.zero_le _⟩
  have hrun : Ensures w (fun _ => True) (sectionOfPieces kind capacity chunkBytes policy pieces)
      (· = sectionOf kind options pieces.flatten)
      (fun e => Interrupted w e ∨ e = .io ∧ u64Bound ≤ pieces.flatten.length) := by
    unfold sectionOfPieces
    apply Ensures.bind (writePieces_ensures hI hnew hready pieces)
    intro last hlast
    have hlen : last.inner.contents.length = last.len := by
      rw [hlast.1.contents, hlast.1.len]
    exact ((intoSection_gives hI hlast.1 kind).and_ensures
      (intoSection_ready hI hlast.2 hlen kind)).mono (fun _ hfile => hfile.1) fun _ he => .inl he
  obtain ⟨-, hok, herror⟩ := hrun.outcome (s := s) trivial
  refine ⟨herror, fun file hfile => ?_⟩
  rw [hok file hfile]
  have hsums : (sectionOf kind options pieces.flatten).checksums
      = (chunks chunkBytes pieces.flatten).map
        (fun chunk => if policy = .verify then adler32 chunk else 0) := by
    rw [← hchunkBytes, ← hpolicy]
    exact chunkSums_eq (by omega) pieces.flatten
  refine ⟨rfl, rfl, rfl, hsums, fun count hcount => ?_⟩
  obtain ⟨-, rfl, -⟩ := chunkCount_eq_ok.mp hcount
  rw [← hchunkBytes]
  exact length_chunkSums

/-- The section of three writes, with a chunk that begins in one and ends in another. -/
theorem sections_faithful_sample
    : ∃ file, (sectionOfPieces .text 2 3 .verify [[97, 98], [], [99, 100]]
          (.calm Sample.platform) .fresh).1 = .ok file
        ∧ file.file = [97, 98, 99, 100]
        ∧ file.len = 4
        ∧ file.checksums = [adler32 [97, 98, 99], adler32 [100]] := by
  obtain ⟨herror, hok⟩ := sections_faithful (.calm Sample.platform) .fresh .text .verify
    (by decide : 1 ≤ 2) (by decide : 1 ≤ 3) [[97, 98], [], [99, 100]]
  cases hrun : (sectionOfPieces .text 2 3 .verify [[97, 98], [], [99, 100]]
    (.calm Sample.platform) .fresh).1 with
  | error e =>
    exfalso
    rcases herror e hrun with hinterrupted | hover
    . exact not_interrupted (World.calm_quiet Sample.platform) hinterrupted
    . exact absurd hover.2 (by decide)
  | ok file =>
    obtain ⟨-, hbytes, hlen, hsums, -⟩ := hok file hrun
    exact ⟨file, rfl, hbytes, hlen, hsums.trans (by simp [chunks])⟩

end Mdict.Persistent
