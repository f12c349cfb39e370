import Mdict.Lemmas.Persistent.Open
import Mdict.Lemmas.Persistent.Rejection
import Mdict.Lemmas.Persistent.Write
import Mdict.Lemmas.Sample

/-!
This module contains the round trip of the index file: what the writer lays out is what the reader
accepts and finds.
-/

namespace Mdict

open Effect Persistent

/--
An index whose header could be built is written without any complaint about its layout: the file
has the declared length, and behind the header and the checksums every section lies at its aligned
offset with nothing but a few zeros before it. The reader accepts this file and reads back what was
written.
-/
theorem indexFile_roundTrip {sections : List SectionFile} {identity : KeyIndexSourceIdentity}
    {normalizedTextLen totalLen : Nat} {options : KeyIndexOptions} {header : Bytes}
    {descriptors : SectionTable}
    (hoptions : validateOptions options = .ok ()) (hsource : identity.sourceBytes < u64Bound)
    (hcount : identity.keyCount ≤ u32Max)
    (hsections : SectionsOf identity.keyCount normalizedTextLen sections)
    (hbuild : buildHeader sections identity normalizedTextLen options
      = .ok (header, descriptors, totalLen))
    : ∃ bytes : Bytes,
        bytes.length = totalLen
        ∧ (∀ w s,
            match writeBuiltIndex (builtIndex header sections descriptors identity totalLen)
                { bytes := [], position := 0 } options.chunkBytes w s with
            | (.ok written, _) => written.bytes = bytes
            | (.error e, _) => WriteFails w e)
        ∧ header ++ checksumTable sections <+: bytes
        ∧ Packed bytes descriptors (header ++ checksumTable sections).length sections
        ∧ ∃ read,
            (∀ p, Yields p (readIndexHeader { bytes } options options.checksumPolicy) (.ok read))
            ∧ validateSectionLayout { bytes } read = .ok ()
            ∧ read = {
                headerLen := headerBytes
                totalLen
                chunkBytes := options.chunkBytes
                sourceIdentity := identity
                normalizedTextLen
                sections := descriptors
                checksumCount := (sections.map (·.checksums.length)).sum
              } := by
  obtain ⟨checksumCount, h⟩ := headerBuilt_of_buildHeader hbuild hsections.kinds
  have hlength := h.length_builtBytes hsections
  have hlaidOut := h.laidOut_metadata hsections.kinds
  rw [← h.length_front] at hlaidOut
  have hchunk : 0 < options.chunkBytes := by
    simp only [validateOptions, except_bind_eq_ok, failIf_eq_ok, not_or] at hoptions
    obtain ⟨⟨⟩, -, ⟨⟩, ⟨hmin, -⟩, -⟩ := hoptions
    exact Nat.lt_of_lt_of_le (by decide) (Nat.le_of_not_lt hmin)
  refine ⟨builtBytes (builtIndex header sections descriptors identity totalLen), hlength, ?_, ?_,
    ?_, HeaderBuilt.indexHeader identity normalizedTextLen options descriptors totalLen
      checksumCount, ?_, ?_, ?_⟩
  . intro w s
    have hwrite := h.writeBuiltIndex_ensures (w := w) (I := fun _ => True) (fun _ _ _ => trivial)
      hsections hchunk { bytes := [], position := 0 } s trivial
    generalize writeBuiltIndex _ _ _ w s = run at hwrite
    obtain ⟨e | written, s'⟩ := run
    . exact hwrite.2.resolve_right (Nat.not_lt_zero _)
    . exact hwrite.2.1
  . exact List.prefix_append _ _
  . exact hlaidOut.packed hsections.file
  . intro p
    exact h.readIndexHeader hsections hoptions hsource hcount (List.append_assoc _ _ _) hlength
  . exact h.validateSectionLayout hsections hlength
  . have htotal := checksumTotal_eq h.total
    rw [Nat.zero_add] at htotal
    rw [htotal]
    rfl

/-- The index of the sample is read back. -/
theorem indexFile_roundTrip_sample
    : ∃ (bytes : Bytes) (read : IndexHeader),
        (∀ p, Yields p (readIndexHeader { bytes } .new .skip) (.ok read))
          ∧ read.sourceIdentity = Sample.identity := by
  have hbuilt := Sample.evaluates.header_built
  match hbuild : buildHeader Sample.sections Sample.identity 5 .new with
  | .error e =>
    rw [hbuild] at hbuilt
    contradiction
  | .ok (header, descriptors, totalLen) =>
    obtain ⟨bytes, -, -, -, -, read, hread, -, rfl⟩ :=
      indexFile_roundTrip (by rfl) (by decide) (by decide)
        ⟨by decide, by decide, by decide⟩ hbuild
    exact ⟨bytes, _, hread, rfl⟩

/-! ## Damaged files -/

end Mdict
