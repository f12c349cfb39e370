import Mdict.Core.Persistent.StrictReads
import Mdict.Lemmas.Persistent.Reads

/-!
This module contains that no read of a key index subtracts too much, divides by zero or slices out
of range, so that the strict reads run like the others.
-/

namespace Mdict

open Effect Persistent

/-- Filling a buffer from the left. -/
theorem take_append_drop_replicate {written part : Bytes} {len : Nat}
    (h : written.length + part.length ≤ len)
    : (written ++ List.replicate (len - written.length) 0).take written.length ++ part
          ++ (written ++ List.replicate (len - written.length) 0).drop
            (written.length + part.length)
        = written ++ part ++ List.replicate (len - (written ++ part).length) 0 := by
  rw [List.take_left, List.drop_append, List.drop_eq_nil_of_le (by omega), List.nil_append,
    List.drop_replicate, List.length_append]
  congr 2
  omega

namespace PersistentKeyIndex

variable {index : PersistentKeyIndex} {w : World} {I : Session → Prop} {kind : SectionKind}

/-! ## Chunks -/

theorem expectedChecksum_alike (hI : index.Invariant I) (checksumIndex : Nat)
    : Alike w I (index.expectedChecksumStrict checksumIndex) (index.expectedChecksum checksumIndex)
        Eq := by
  unfold expectedChecksumStrict expectedChecksum
  apply Alike.liftM_bind
  intro _ hlt
  rw [failIf_eq_ok] at hlt
  apply Alike.liftM_bind
  intro byteOffset h
  rw [okOr_eq_ok, checkedMul_eq_some] at h
  obtain ⟨rfl, -⟩ := h
  have hpage := Nat.div_mul_le_self (checksumIndex * 4) checksumPageBytes
  dsimp only
  apply Alike.liftM_bind
  intro pageStart h
  rw [okOr_eq_ok, checkedMul_eq_some] at h
  obtain ⟨rfl, -⟩ := h
  apply Alike.liftM_bind
  intro tableBytes h
  rw [okOr_eq_ok, checkedMul_eq_some] at h
  obtain ⟨rfl, -⟩ := h
  rw [subtract_of_le (by omega), Prog.ok_bind]
  apply Alike.liftM_bind
  intro pageLen h
  rw [checkedUsize_eq_ok] at h
  obtain ⟨rfl, -⟩ := h
  apply Alike.bind_same (@loadChecksumPage_ensures index w I .text (fun _ => True) hI _ (by omega))
  intro bytes _
  rw [subtract_of_le hpage, Prog.ok_bind]
  exact .refl _

theorem expectedChunkChecksum_alike (hI : index.Invariant I) (checksumIndex : Nat)
    : Alike w I (index.expectedChunkChecksumStrict checksumIndex)
        (index.expectedChunkChecksum checksumIndex) Eq := by
  unfold expectedChunkChecksumStrict expectedChunkChecksum
  cases index.checksumPolicy with
  | skip => exact .refl _
  | verify =>
    apply (expectedChecksum_alike hI checksumIndex).bind
      (@expectedChecksum_ensures index w I .text (fun _ => True) hI checksumIndex)
    rintro _ _ rfl _
    exact .refl _

theorem loadVerifiedChunk_alike (hI : index.Invariant I) (kind : SectionKind) (chunk : Nat)
    : Alike w I (index.loadVerifiedChunkStrict kind chunk) (index.loadVerifiedChunk kind chunk)
        Eq := by
  unfold loadVerifiedChunkStrict loadVerifiedChunk
  dsimp only
  apply Alike.liftM_bind
  intro _ _
  apply Alike.liftM_bind
  intro checksumIndex _
  apply (expectedChunkChecksum_alike hI checksumIndex).bind
    (@expectedChunkChecksum_ensures index w I .text (fun _ => True) hI checksumIndex)
  rintro _ _ rfl _
  exact .refl _

/-! ## Sections -/

/-- A buffer whose first bytes have been written. -/
def Filled (len : Nat) (output written : Bytes) : Prop :=
  output = written ++ List.replicate (len - written.length) 0

/-- What was copied of a read up to a position of the section. -/
structure CopiedTo (offset len position : Nat) (output written : Bytes) : Prop where
  filled : Filled len output written
  length_eq : written.length = min (offset + len) (max offset position) - offset

theorem copyChunk_alike (hI : index.Invariant I) {offset len chunk : Nat}
    (hstop : offset + len ≤ (index.header.sections kind).len)
    (hlt : chunk * index.header.chunkBytes < offset + len)
    (hbefore : offset < chunk * index.header.chunkBytes + index.header.chunkBytes)
    {output written : Bytes}
    (h : CopiedTo offset len (chunk * index.header.chunkBytes) output written)
    : Alike w I (index.copyChunkStrict kind offset (offset + len) output chunk)
        (do
          let part ← index.copyChunk kind offset (offset + len) chunk
          return written ++ part)
        (CopiedTo offset len ((chunk + 1) * index.header.chunkBytes)) := by
  unfold copyChunkStrict copyChunk
  rw [bind_assoc]
  apply (loadVerifiedChunk_alike hI kind chunk).bind (loadVerifiedChunk_ensures hI kind chunk)
  rintro bytes _ rfl ⟨-, hlen⟩
  rw [bind_assoc]
  apply Alike.liftM_bind
  intro chunkStart h
  rw [okOr_eq_ok, checkedMul_eq_some] at h
  obtain ⟨rfl, -⟩ := h
  rw [bind_assoc]
  apply Alike.liftM_bind
  intro chunkEnd h
  rw [okOr_eq_ok, checkedAdd_eq_some] at h
  obtain ⟨rfl, hend⟩ := h
  rw [chunkStop] at hlen
  rw [Nat.add_mul, Nat.one_mul]
  generalize chunk * index.header.chunkBytes = chunkStart at *
  have hcopyStart : chunkStart ≤ max offset chunkStart ∧ offset ≤ max offset chunkStart := by omega
  have hcopyEnd : max offset chunkStart ≤ min (offset + len) (chunkStart + bytes.length)
      ∧ min (offset + len) (chunkStart + bytes.length) ≤ chunkStart + bytes.length
      ∧ min (offset + len) (chunkStart + bytes.length)
        = min (offset + len) (chunkStart + index.header.chunkBytes) := by
    omega
  obtain ⟨rfl, hwritten⟩ := h
  rw [Nat.min_eq_right (by omega)] at hwritten
  dsimp only
  generalize max offset chunkStart = copyStart at *
  generalize min (offset + len) (chunkStart + bytes.length) = copyEnd at *
  have hpart : ((bytes.drop (copyStart - chunkStart)).take (copyEnd - copyStart)).length
      = copyEnd - copyStart := by
    rw [List.length_take, List.length_drop]
    omega
  have hcount : copyEnd - chunkStart - (copyStart - chunkStart) = copyEnd - copyStart := by omega
  rw [subtract_of_le (by omega), Prog.ok_bind, checkedUsize_of_lt (by omega), Prog.ok_bind,
    subtract_of_le (by omega), Prog.ok_bind, checkedUsize_of_lt (by omega), Prog.ok_bind,
    subtract_of_le (by omega), Prog.ok_bind, checkedUsize_of_lt (by omega), Prog.ok_bind,
    subtract_of_le (by omega), Prog.ok_bind, checkedUsize_of_lt (by omega), Prog.ok_bind,
    copyFromSlice_of_le (by rw [List.length_append, List.length_replicate]; omega) (by omega)
      (by omega), hcount]
  generalize (bytes.drop (copyStart - chunkStart)).take (copyEnd - copyStart) = part at *
  have hstart : copyStart - offset = written.length := hwritten.symm
  have hfilled : copyEnd - offset = written.length + part.length := by omega
  rw [hstart, hfilled, take_append_drop_replicate (by omega)]
  apply Alike.pure
  refine ⟨rfl, ?_⟩
  rw [List.length_append]
  omega

/-- The loop over the chunks. -/
theorem readSectionIntoCached_alike (hI : index.Invariant I) (hpos : 0 < index.header.chunkBytes)
    (kind : SectionKind) (offset len : Nat)
    : Alike w I (index.readSectionIntoCachedStrict kind offset (List.replicate len 0))
        (index.readSectionIntoCached kind offset len) Eq := by
  unfold readSectionIntoCachedStrict readSectionIntoCached
  rw [List.length_replicate]
  dsimp only
  apply Alike.liftM_bind
  intro stop h
  rw [okOr_eq_ok, checkedAdd_eq_some] at h
  obtain ⟨rfl, -⟩ := h
  apply Alike.liftM_bind
  intro _ hle
  rw [failIf_eq_ok] at hle
  split
  . next hzero =>
    subst hzero
    exact .pure rfl
  . next hne =>
    rw [divide_of_pos hpos, Prog.ok_bind, subtract_of_le (by omega), Prog.ok_bind,
      divide_of_pos hpos, Prog.ok_bind]
    have hfirst := Nat.div_mul_le_self offset index.header.chunkBytes
    have hlast := Nat.div_mul_le_self (offset + len - 1) index.header.chunkBytes
    have hafter := Nat.lt_div_mul_add hpos (a := offset + len - 1)
    have hmono : offset / index.header.chunkBytes ≤ (offset + len - 1) / index.header.chunkBytes :=
      Nat.div_le_div_right (by omega)
    have hoffset := Nat.lt_div_mul_add hpos (a := offset)
    generalize offset / index.header.chunkBytes = first at *
    generalize (offset + len - 1) / index.header.chunkBytes = last at *
    apply (Alike.foldlM_range' (J := fun chunk => CopiedTo offset len
      (chunk * index.header.chunkBytes)) ?preserves ?step ?init).mono
    . intro output written h
      have hcount : first + (last + 1 - first) = last + 1 := by omega
      have hwritten := h.length_eq
      rw [hcount, Nat.add_mul, Nat.one_mul] at hwritten
      rw [h.filled]
      have hfull : len - written.length = 0 := by omega
      rw [hfull, List.replicate_zero, List.append_nil]
    case init =>
      refine ⟨rfl, ?_⟩
      rw [List.length_nil]
      omega
    case preserves =>
      intro chunk written _ hlt
      have hle : chunk * index.header.chunkBytes ≤ last * index.header.chunkBytes :=
        Nat.mul_le_mul_right _ (by omega)
      exact .bind (.of_ensures (@copyChunk_ensures index w I kind hI _ _ _ (by omega) (by omega)))
        fun _ => .pure
    case step =>
      intro chunk output written hge hlt h
      have hle : first * index.header.chunkBytes ≤ chunk * index.header.chunkBytes :=
        Nat.mul_le_mul_right _ hge
      have hle' : chunk * index.header.chunkBytes ≤ last * index.header.chunkBytes :=
        Nat.mul_le_mul_right _ (by omega)
      exact copyChunk_alike hI (by omega) (by omega) (by omega) h

theorem readSection_alike (hI : index.Invariant I) (hpos : 0 < index.header.chunkBytes)
    (kind : SectionKind) (offset len : Nat)
    : Alike w I (index.readSectionStrict kind offset len) (index.readSection kind offset len)
        Eq := by
  unfold readSectionStrict readSection
  dsimp only
  apply Alike.liftM_bind
  intro _ _
  apply Alike.liftM_bind
  intro _ _
  apply Alike.bind_same (reserve_refused hI.events _ _)
  intro _ _
  split
  . next hzero =>
    rw [hzero]
    exact .pure rfl
  . exact readSectionIntoCached_alike hI hpos kind offset len

/-! ## Numbers -/

theorem readArray_alike (hI : index.Invariant I) (hpos : 0 < index.header.chunkBytes)
    (kind : SectionKind) (offset width : Nat)
    : Alike w I (index.readArrayStrict kind offset width)
        (do
          let bytes ← index.readSectionIntoCached kind offset width
          return Bytes.toLE bytes) Eq := by
  apply (readSectionIntoCached_alike hI hpos kind offset width).bind
    (readSectionIntoCached_ensures hI hpos kind offset width)
  rintro _ _ rfl _
  exact .refl _

theorem boundAt_alike (hI : index.Invariant I) (hpos : 0 < index.header.chunkBytes)
    (position : Nat)
    : Alike w I (index.boundAtStrict position) (index.boundAt position) Eq :=
  .liftM_bind fun _ _ => .liftM_bind fun offset _ => readArray_alike hI hpos .bounds offset 8

theorem orderAt_alike (hI : index.Invariant I) (hpos : 0 < index.header.chunkBytes)
    (position : Nat)
    : Alike w I (index.orderAtStrict position) (index.orderAt position) Eq :=
  .liftM_bind fun _ _ => .liftM_bind fun offset _ => readArray_alike hI hpos .order offset 4

theorem rawDigestAt_alike (hI : index.Invariant I) (hpos : 0 < index.header.chunkBytes)
    (ordinal : Nat)
    : Alike w I (index.rawDigestAtStrict ordinal) (index.rawDigestAt ordinal) Eq :=
  .liftM_bind fun _ _ => .liftM_bind fun offset _ => readArray_alike hI hpos .raw offset 4

end PersistentKeyIndex

end Mdict
