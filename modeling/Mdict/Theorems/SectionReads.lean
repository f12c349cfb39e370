import Mdict.Lemmas.Persistent.Open
import Mdict.Lemmas.Persistent.StrictReads
import Mdict.Lemmas.Sample

/-!
This module contains that reads of a key index are faithful and verified, whatever the file contains
and whatever went wrong before.
-/

namespace Mdict

open Effect Persistent

/-! ## What a read asks for -/

namespace IndexRead

/-- The section that is read. -/
def kind : (read : IndexRead) → SectionKind
  | .section kind _ _ => kind
  | .bound _ => .bounds
  | .order _ => .order
  | .rawDigest _ => .raw

/-- Where the read starts in its section. -/
def offset : (read : IndexRead) → Nat
  | .section _ offset _ => offset
  | .bound position => position * 8
  | .order position => position * 4
  | .rawDigest ordinal => ordinal * 4

def len : (read : IndexRead) → Nat
  | .section _ _ len => len
  | .bound _ => 8
  | .order _ => 4
  | .rawDigest _ => 4

/-- What is asked for exists. -/
def InRange (index : PersistentKeyIndex) : (read : IndexRead) → Prop
  | .section kind offset len => offset + len ≤ (index.header.sections kind).len
  | .bound position => position ≤ index.len
  | .order position => position < index.len
  | .rawDigest ordinal => ordinal < index.len

/-- The answer that consists of these bytes. -/
def valueOf (read : IndexRead) (bytes : Bytes) : IndexValue :=
  match read with
  | .section .. => .bytes bytes
  | _ => .number bytes.toLE

end IndexRead

/-- A read of an index with the bytes `bytes` is answered as it should be. -/
structure Faithful (bytes : Bytes) (index : PersistentKeyIndex) (w : World) (read : IndexRead)
    (result : Except Error IndexValue)
    : Prop where
  /-- A value consists of the bytes of the file at the place of the section. -/
  value : ∀ value, result = .ok value → read.InRange index
    ∧ (index.header.sections read.kind).offset + read.offset + read.len ≤ bytes.length
    ∧ value = read.valueOf (Search.slice bytes
        ((index.header.sections read.kind).offset + read.offset)
        ((index.header.sections read.kind).offset + read.offset + read.len))
  /-- All chunks that a value comes from have the checksums of the table. -/
  verified : ∀ value, result = .ok value →
    ∀ chunk, index.Touches read.offset read.len chunk → index.ChunkVerified read.kind chunk
  /-- A read of something that exists fails with the first chunk that has another checksum, unless
  the file system or the memory budget fails. -/
  failure : ∀ e, result = .error e → Refused w e ∨ (¬read.InRange index ∧ NotPanic e)
    ∨ ∃ chunk, index.Touches read.offset read.len chunk ∧ ¬index.ChunkVerified read.kind chunk
      ∧ (∀ before < chunk, index.Touches read.offset read.len before →
          index.ChunkVerified read.kind before)
      ∧ e = index.chunkMismatch read.kind chunk

namespace PersistentKeyIndex

variable {index : PersistentKeyIndex} {bytes : Bytes} {options : KeyIndexOptions}
variable {w : World} {I : Session → Prop} {e : Error}

theorem Opened.failure (h : index.Opened bytes options) {kind : SectionKind} {touched : Nat → Prop}
    {c : Prop} (he : index.ReadError w kind touched c e)
    : Refused w e ∨ (¬c ∧ NotPanic e)
        ∨ ∃ chunk, touched chunk ∧ ¬index.ChunkVerified kind chunk
          ∧ (∀ before < chunk, touched before → index.ChunkVerified kind before)
          ∧ e = index.chunkMismatch kind chunk := by
  cases he with
  | refused h => exact .inl h
  | malformed hnot he => exact .inr (.inl ⟨fun hc => hnot ⟨h.formed, hc⟩, he⟩)
  | mismatch htouched hchunk hbefore => exact .inr (.inr ⟨_, htouched, hchunk, hbefore, rfl⟩)

/-- What a number is made of is in the file. -/
theorem Opened.numberAt_eq (h : index.Opened bytes options) {kind : SectionKind}
    {width position : Nat} (hle : position * width + width ≤ (index.header.sections kind).len)
    : (index.header.sections kind).offset + position * width + width ≤ bytes.length
        ∧ index.numberAt kind width position = Bytes.toLE (Search.slice bytes
          ((index.header.sections kind).offset + position * width)
          ((index.header.sections kind).offset + position * width + width)) := by
  have hin := h.formed.sections kind
  rw [IndexSource.len, h.source] at hin
  refine ⟨by omega, ?_⟩
  rw [numberAt, sectionSlice, h.source, Nat.add_assoc]

/-- What a read answers. -/
structure Answered (index : PersistentKeyIndex) (bytes : Bytes) (read : IndexRead)
    (value : IndexValue)
    : Prop where
  inRange : read.InRange index
  le : (index.header.sections read.kind).offset + read.offset + read.len ≤ bytes.length
  value_eq : value = read.valueOf (Search.slice bytes
    ((index.header.sections read.kind).offset + read.offset)
    ((index.header.sections read.kind).offset + read.offset + read.len))
  verified : ∀ chunk, index.Touches read.offset read.len chunk → index.ChunkVerified read.kind chunk

theorem Opened.answered_number (h : index.Opened bytes options) {read : IndexRead}
    {position number : Nat} (hoffset : read.offset = position * read.len)
    (hvalue : ∀ bytes, read.valueOf bytes = .number bytes.toLE) (hrange : read.InRange index)
    (hle : position * read.len + read.len ≤ (index.header.sections read.kind).len)
    (hnumber : index.NumberRead read.kind read.len position number)
    : index.Answered bytes read (.number number) := by
  obtain ⟨hin, heq⟩ := h.numberAt_eq hle
  refine ⟨hrange, ?_, ?_, ?_⟩
  . rw [hoffset]
    exact hin
  . rw [hvalue, hoffset, hnumber.number_eq, heq]
  . rw [hoffset]
    exact hnumber.verified

theorem Opened.readStrict_ensures (h : index.Opened bytes options) (hI : index.Invariant I)
    (read : IndexRead)
    : Ensures w I (index.readStrict read) (index.Answered bytes read)
        (index.ReadError w read.kind (index.Touches read.offset read.len) (read.InRange index)) := by
  have hpos := h.formed.chunkBytes_pos
  have hcomplete := h.complete
  cases read with
  | «section» kind offset len =>
    apply Ensures.map
    apply (readSection_alike hI hpos kind offset len).ensures
    apply (readSection_ensures hI hpos kind offset len).mono _ (fun _ he => he)
    rintro _ ⟨rfl, hle, hverified⟩
    have hin := h.formed.sections kind
    rw [IndexSource.len, h.source] at hin
    refine ⟨hle, ?_, ?_, hverified⟩
    . exact Nat.le_trans (by rw [Nat.add_assoc]; exact Nat.add_le_add_left hle _) hin
    . rw [sectionSlice, h.source, ← Nat.add_assoc]
      rfl
  | bound position =>
    apply Ensures.map
    apply (boundAt_alike hI hpos position).ensures
    apply (boundAt_reads hI hpos position).mono
    . rintro bound ⟨hnumber, hle⟩
      have := hcomplete.bounds
      have hrange : IndexRead.InRange index (.bound position) := hle
      apply h.answered_number rfl (fun _ => rfl) hrange _ hnumber
      dsimp only [IndexRead.len, IndexRead.kind]
      omega
    . exact fun e he => he.mono fun _ hle => ⟨hcomplete, hle⟩
  | order position =>
    apply Ensures.map
    apply (orderAt_alike hI hpos position).ensures
    apply (orderAt_reads hI hpos position).mono
    . rintro ordinal ⟨hnumber, hlt⟩
      have := hcomplete.order
      have hrange : IndexRead.InRange index (.order position) := hlt
      apply h.answered_number rfl (fun _ => rfl) hrange _ hnumber
      dsimp only [IndexRead.len, IndexRead.kind]
      omega
    . exact fun e he => he.mono fun _ hlt => ⟨hcomplete, hlt⟩
  | rawDigest ordinal =>
    apply Ensures.map
    apply (rawDigestAt_alike hI hpos ordinal).ensures
    apply (rawDigestAt_reads hI hpos ordinal).mono
    . rintro digest ⟨hnumber, hlt⟩
      have := hcomplete.raw
      have hrange : IndexRead.InRange index (.rawDigest ordinal) := hlt
      apply h.answered_number rfl (fun _ => rfl) hrange _ hnumber
      dsimp only [IndexRead.len, IndexRead.kind]
      omega
    . exact fun e he => he.mono fun _ hlt => ⟨hcomplete, hlt⟩

/-- One read is answered as it should be and leaves the caches sound. -/
theorem Opened.readStrict_faithful (h : index.Opened bytes options) {s : Session}
    (hs : index.CacheSound s) (w : World) (read : IndexRead)
    : index.CacheSound (index.readStrict read w s).2
        ∧ Faithful bytes index w read (index.readStrict read w s).1 := by
  obtain ⟨hsound, hok, herror⟩ :=
    (h.readStrict_ensures (w := w) index.invariant_cacheSound read).outcome hs
  refine ⟨hsound, ?_, ?_, ?_⟩
  . intro value hvalue
    obtain ⟨hrange, hle, heq, -⟩ := hok value hvalue
    exact ⟨hrange, hle, heq⟩
  . intro value hvalue
    exact (hok value hvalue).verified
  . intro e he
    exact h.failure (herror e he)

/-- Reads one after the other are answered as they should be. -/
theorem Opened.readAll_faithful (h : index.Opened bytes options) {s : Session}
    (hs : index.CacheSound s) (reads : List (World × IndexRead))
    : ∀ run ∈ index.readAll reads s, Faithful bytes index run.1 run.2.1 run.2.2 := by
  induction reads generalizing s with
  | nil => exact fun _ hrun => absurd hrun List.not_mem_nil
  | cons first reads ih =>
    obtain ⟨w, read⟩ := first
    obtain ⟨hsound, hfaithful⟩ := h.readStrict_faithful hs w read
    intro run hrun
    rcases List.mem_cons.mp hrun with rfl | hrun
    . exact hfaithful
    . exact ih hsound run hrun

end PersistentKeyIndex

/--
Whatever bytes were opened as a key index, any reads one after the other are answered with the bytes
of the file and after their chunks have been verified, even when reads before have failed. No read
panics.
-/
theorem sectionReads_faithful {bytes : Bytes} {file : MdictFile} {expected : KeyIndexSourceIdentity}
    {options : KeyIndexOptions} {w : World} {s s' : Session} {index : PersistentKeyIndex}
    (run : PersistentKeyIndex.openFile bytes file expected options w s = (.ok index, s'))
    (reads : List (World × IndexRead))
    : ∀ run ∈ index.readAll reads s', Faithful bytes index run.1 run.2.1 run.2.2 := by
  obtain ⟨hopened, -, s₁, -, rfl⟩ :=
    PersistentKeyIndex.openFile_ok (I := fun _ => True) (fun _ _ _ => trivial) trivial run
  exact hopened.readAll_faithful (index.cacheSound_new rfl rfl) reads

/-- The index of the sample answers a read that fails and one that does not. -/
theorem sectionReads_faithful_sample
    : ∃ index s, ∀ run ∈ PersistentKeyIndex.readAll index
        [(Sample.sourceWorld, .bound 9), (Sample.sourceWorld, .order 0)] s,
          Faithful (Sample.indexBytes Sample.sourceWorld) index run.1 run.2.1 run.2.2 := by
  have hopens := Sample.evaluates.index_opens
  generalize hrun : PersistentKeyIndex.openFile (Sample.indexBytes Sample.sourceWorld) Sample.file
    Sample.identity .new Sample.sourceWorld .fresh = run at hopens
  obtain ⟨e | index, s⟩ := run
  . exact absurd hopens Bool.false_ne_true
  . exact ⟨index, s, sectionReads_faithful hrun _⟩

end Mdict
