import Mdict.Core.Persistent.Cache
import Mdict.Lemmas.Persistent.Format

/-!
This module contains how an index file that is not as it was written fails to open: by rejection,
unless one of its fields exceeds a limit first.
-/

namespace Mdict.Persistent

open Effect

/-! ## Failures by rejection -/

/-- A result that fails in no other way than by rejecting a key index. -/
def OnlyRejects {α : Type} (r : Except Error α) : Prop :=
  ∀ e, r = .error e → ∃ reason, e = reject reason

section

variable {α β : Type}

@[simp]
theorem onlyRejects_ok (a : α) : OnlyRejects (.ok a : Except Error α) := by
  intro e he
  contradiction

@[simp]
theorem onlyRejects_pure (a : α) : OnlyRejects (pure a : Except Error α) := onlyRejects_ok a

@[simp]
theorem onlyRejects_reject (reason : KeyIndexRejection)
    : OnlyRejects (.error (reject reason) : Except Error α) := by
  rintro _ ⟨⟩
  exact ⟨reason, rfl⟩

@[simp]
theorem onlyRejects_failIf {c : Prop} [Decidable c] (reason : KeyIndexRejection)
    : OnlyRejects (failIf c (reject reason)) := by
  unfold failIf
  split <;> simp

@[simp]
theorem onlyRejects_okOr (value : Option α) (reason : KeyIndexRejection)
    : OnlyRejects (okOr value (reject reason)) := by
  cases value with
  | none => exact onlyRejects_reject reason
  | some a => exact onlyRejects_ok a

@[simp]
theorem onlyRejects_ensureLimit {limit : String} {value max : Nat}
    : OnlyRejects (ensureLimit limit value max) ↔ value ≤ max := by
  constructor
  . intro h
    by_contra hlt
    obtain ⟨reason, hreason⟩ := h (.limitExceeded limit value max) (if_pos (by omega))
    contradiction
  . intro h
    rw [ensureLimit_eq_ok.mpr h]
    exact onlyRejects_ok ()

theorem onlyRejects_bind {x : Except Error α} {f : α → Except Error β}
    : OnlyRejects (x >>= f) ↔ OnlyRejects x ∧ ∀ a, x = .ok a → OnlyRejects (f a) := by
  cases x with
  | ok a => simp
  | error e =>
    rw [except_error_bind]
    constructor
    . refine fun h => ⟨?_, by simp⟩
      rintro _ ⟨⟩
      exact h e rfl
    . rintro ⟨h, -⟩ _ ⟨⟩
      exact h e rfl

theorem OnlyRejects.bind {x : Except Error α} {f : α → Except Error β} (hx : OnlyRejects x)
    (hf : ∀ a, x = .ok a → OnlyRejects (f a))
    : OnlyRejects (x >>= f) :=
  onlyRejects_bind.mpr ⟨hx, hf⟩

end

/-! ## Fields of a header -/

/-- The number of `width` bytes at `offset`. -/
def headerField (bytes : Bytes) (offset width : Nat) : Nat :=
  Bytes.toLE (Search.slice bytes offset (offset + width))

/-- The section descriptor at `offset`. -/
def headerDescriptor (bytes : Bytes) (offset : Nat) : SectionDescriptor where
  offset := headerField bytes offset 8
  len := headerField bytes (offset + 8) 8
  checksumStart := headerField bytes (offset + 16) 8
  checksumCount := headerField bytes (offset + 24) 8

/-- The section descriptors of a header. -/
def headerDescriptors (bytes : Bytes) : List SectionDescriptor :=
  [88, 120, 152, 184].map (headerDescriptor bytes)

/-- The bytes start like an index file of this format. -/
structure HasMarkers (bytes : Bytes) : Prop where
  magic : Search.slice bytes 0 8 = magic
  formatRevision : headerField bytes 8 4 = keyIndexFormatRevision
  endian : headerField bytes 12 4 = endianMarker

/-- The fields are right as far as the chunk length, which is a supported power of two. -/
structure HasChunkLength (bytes : Bytes) (actualLen : Nat) : Prop where
  markers : HasMarkers bytes
  headerLen : headerField bytes 16 8 = headerBytes
  totalLen : headerField bytes 24 8 = actualLen
  parserRevision : headerField bytes 32 4 = keyIndexParserRevision
  normalizationRevision : headerField bytes 36 4 = keyIndexNormalizationRevision
  chunkBytes : minChunkBytes ≤ headerField bytes 40 4
  isPowerOfTwo : isPowerOfTwo (headerField bytes 40 4)

/-- The fields are right as far as the checksum ranges, which ask for `count` checksums. -/
structure HasChecksums (bytes : Bytes) (count : Nat) : Prop where
  sectionCount : headerField bytes 44 4 = sectionCount
  keyCount : headerField bytes 72 8 ≤ u32Max
  ranges : checkChecksumRanges (headerField bytes 40 4) 0 (headerDescriptors bytes) = .ok count

/-- The checksum of the header is right, if the policy is to verify it. -/
def HasHeaderChecksum (bytes : Bytes) (checksumPolicy : ChecksumPolicy) : Prop :=
  checksumPolicy = .verify → headerField bytes (headerBytes - headerChecksumBytes) 4
    = adler32 (bytes.take (headerBytes - headerChecksumBytes))

/--
A field of a header that is right so far exceeds a limit: the length of a chunk, or the length of
the header with all its checksums.
-/
inductive FieldExceedsLimit (options : KeyIndexOptions) (bytes : Bytes) : Prop
  | chunkBytes (exceeds : options.chunkBytes < headerField bytes 40 4)
  | metadata (count : Nat) (chunkBytes : headerField bytes 40 4 ≤ options.chunkBytes)
    (checksums : HasChecksums bytes count) (fits : headerBytes + count * 4 < u64Bound)
    (exceeds : options.maxMetadataBytes < headerBytes + count * 4)

/--
The bytes exceed a limit of the options before any check rejects them: by the length of the header
that they declare, or by a field of the header.
-/
inductive ExceedsLimit (options : KeyIndexOptions) (bytes : Bytes) : Prop
  | headerLen (length : headerPrefixBytes ≤ bytes.length) (markers : HasMarkers bytes)
    (exceeds : options.maxMetadataBytes < headerField bytes 16 8)
  | field (length : headerBytes ≤ bytes.length)
    (checksum : HasHeaderChecksum bytes options.checksumPolicy)
    (chunkLength : HasChunkLength bytes bytes.length)
    (exceeds : FieldExceedsLimit options bytes)

namespace HeaderCursor

variable {bytes : Bytes} {position : Nat}

theorem readArray_eq {n : Nat} (h : position + n ≤ bytes.length) (hlt : bytes.length < u64Bound)
    : readArray ⟨bytes, position⟩ n
        = .ok (Search.slice bytes position (position + n), ⟨bytes, position + n⟩) := by
  have hstop : checkedAdd position n = some (position + n) := by
    rw [checkedAdd_eq_some]
    omega
  have hfield : bytes.get? position (position + n)
      = some (Search.slice bytes position (position + n)) := by
    rw [Bytes.get?_eq_some_iff]
    exact ⟨by omega, h, rfl⟩
  rw [readArray]
  dsimp only
  rw [hstop, okOr_some, except_ok_bind, hfield]
  rfl

theorem readU32_eq (h : position + 4 ≤ bytes.length) (hlt : bytes.length < u64Bound)
    : readU32 ⟨bytes, position⟩ = .ok (headerField bytes position 4, ⟨bytes, position + 4⟩) := by
  rw [readU32, readArray_eq h hlt]
  rfl

theorem readU64_eq (h : position + 8 ≤ bytes.length) (hlt : bytes.length < u64Bound)
    : readU64 ⟨bytes, position⟩ = .ok (headerField bytes position 8, ⟨bytes, position + 8⟩) := by
  rw [readU64, readArray_eq h hlt]
  rfl

theorem readDescriptor_eq (h : position + 32 ≤ bytes.length) (hlt : bytes.length < u64Bound)
    : readDescriptor ⟨bytes, position⟩
        = .ok (headerDescriptor bytes position, ⟨bytes, position + 32⟩) := by
  have hread {offset : Nat} (hle : offset + 8 ≤ 32)
      : readU64 ⟨bytes, position + offset⟩
          = .ok (headerField bytes (position + offset) 8, ⟨bytes, position + offset + 8⟩) :=
    readU64_eq (by omega) hlt
  simp only [readDescriptor, readU64_eq (show position + 8 ≤ bytes.length by omega) hlt,
    except_ok_bind, Nat.add_assoc, Nat.reduceAdd, hread (show 8 + 8 ≤ 32 by decide),
    hread (show 16 + 8 ≤ 32 by decide), hread (show 24 + 8 ≤ 32 by decide)]
  rfl

end HeaderCursor

/-! ## Parsing a header -/

theorem onlyRejects_chunkCount (len chunkBytes : Nat) : OnlyRejects (chunkCount len chunkBytes) := by
  unfold chunkCount
  split
  . exact onlyRejects_reject _
  . split
    . exact onlyRejects_ok 0
    . exact .bind (onlyRejects_okOr _ _) fun _ _ => onlyRejects_pure _

theorem onlyRejects_checkChecksumRanges (chunkBytes start : Nat)
    (sections : List SectionDescriptor)
    : OnlyRejects (checkChecksumRanges chunkBytes start sections) := by
  induction sections generalizing start with
  | nil => exact onlyRejects_ok start
  | cons descriptor sections ih =>
    exact .bind (onlyRejects_failIf _) fun _ _ => .bind (onlyRejects_chunkCount _ _) fun _ _ =>
      .bind (onlyRejects_failIf _) fun _ _ => .bind (onlyRejects_okOr _ _) fun _ _ => ih _

theorem onlyRejects_checkPadding (cursor : HeaderCursor) : OnlyRejects (checkPadding cursor) :=
  .bind (onlyRejects_okOr _ _) fun _ _ => onlyRejects_failIf _

theorem onlyRejects_checkSectionLengths (keyCount normalizedTextLen : Nat)
    (sections : SectionTable)
    : OnlyRejects (checkSectionLengths keyCount normalizedTextLen sections) :=
  .bind (onlyRejects_okOr _ _) fun _ _ => .bind (onlyRejects_okOr _ _) fun _ _ =>
    onlyRejects_failIf _

/-- The parser rejects what is wrong with a header, except for fields that exceed a limit. -/
theorem onlyRejects_parseHeader {bytes : Bytes} {actualLen : Nat} {options : KeyIndexOptions}
    (hlen : bytes.length = headerBytes) (hmax : actualLen ≤ options.maxIndexBytes)
    : OnlyRejects (parseHeader bytes actualLen options)
        ↔ ¬(HasChunkLength bytes actualLen ∧ FieldExceedsLimit options bytes) := by
  have hlt : bytes.length < u64Bound := by
    rw [hlen]
    decide
  have hbytes : bytes.length = 224 := hlen
  have hmagic := @HeaderCursor.readArray_eq _ 0 8 (by omega) hlt
  have hmodified := @HeaderCursor.readArray_eq _ 56 16 (by omega) hlt
  have hu32 {position : Nat} (h : position + 4 ≤ 224) :=
    @HeaderCursor.readU32_eq _ position (h.trans (Nat.le_of_eq hbytes.symm)) hlt
  have hu64 {position : Nat} (h : position + 8 ≤ 224) :=
    @HeaderCursor.readU64_eq _ position (h.trans (Nat.le_of_eq hbytes.symm)) hlt
  have hdescriptor {position : Nat} (h : position + 32 ≤ 224) :=
    @HeaderCursor.readDescriptor_eq _ position (h.trans (Nat.le_of_eq hbytes.symm)) hlt
  simp (disch := decide) only [parseHeader, HeaderCursor.readMarkers, HeaderCursor.readRevisions,
    HeaderCursor.readChunkBytes, HeaderCursor.readIdentity, HeaderCursor.readI128,
    HeaderCursor.readDescriptors, SectionKind.all, hmagic, hmodified, hu32, hu64, hdescriptor,
    Nat.reduceAdd, except_ok_bind, pure_bind, bind_assoc, onlyRejects_bind, onlyRejects_failIf,
    onlyRejects_ensureLimit, onlyRejects_okOr, onlyRejects_checkChecksumRanges,
    onlyRejects_checkPadding, onlyRejects_checkSectionLengths, onlyRejects_pure, true_and,
    failIf_eq_ok, forall_const, ne_eq, not_not, ensureLimit_eq_ok, invalidLayout, okOr_eq_ok]
  have hlimit {limit : String} {value max : Nat}
      : OnlyRejects (failIf (value > max) (.limitExceeded limit value max)) ↔ value ≤ max :=
    onlyRejects_ensureLimit
  rw [hbytes, hlimit]
  constructor
  . rintro h ⟨hchunk, hexceeds⟩
    obtain ⟨-, h⟩ := h hchunk.markers.magic hchunk.markers.formatRevision hchunk.markers.endian
      hchunk.headerLen hchunk.totalLen
    obtain ⟨hle, h⟩ := h (hchunk.totalLen ▸ hmax) hchunk.parserRevision
      hchunk.normalizationRevision
      (by rw [not_or, not_not]; exact ⟨Nat.not_lt.mpr hchunk.chunkBytes, hchunk.isPowerOfTwo⟩)
    cases hexceeds with
    | chunkBytes exceeds => omega
    | metadata count chunkBytes checksums fits exceeds =>
      obtain ⟨hle, -⟩ := h (Nat.not_lt.mpr chunkBytes) checksums.sectionCount
        (Nat.not_lt.mpr checksums.keyCount) count checksums.ranges (count * 4)
        (checkedMul_eq_some.mpr ⟨rfl, by omega⟩) (headerBytes + count * 4)
        (by rw [checkedAdd_eq_some, hchunk.headerLen]; exact ⟨rfl, fits⟩)
      omega
  . intro h hmagic hformat hendian hheaderLen htotal
    refine ⟨htotal ▸ hmax, ?_⟩
    intro _ hparser hnormalization hchunk
    rw [not_or, not_not, Nat.not_lt] at hchunk
    have hchunkLength : HasChunkLength bytes actualLen :=
      ⟨⟨hmagic, hformat, hendian⟩, hheaderLen, htotal, hparser, hnormalization, hchunk.1, hchunk.2⟩
    refine ⟨?_, ?_⟩
    . by_contra hlt
      exact h ⟨hchunkLength, .chunkBytes (by omega)⟩
    . intro hle hcount hkeys count hranges _ hmul _ hadd
      obtain ⟨rfl, -⟩ := checkedMul_eq_some.mp hmul
      obtain ⟨rfl, hfits⟩ := checkedAdd_eq_some.mp hadd
      rw [hheaderLen] at hfits ⊢
      refine ⟨?_, fun _ _ _ _ _ => trivial⟩
      by_contra hexceeds
      exact h ⟨hchunkLength, .metadata count (by omega) ⟨hcount, by omega, hranges⟩ hfits
        (by rw [headerBytes]; omega)⟩

/-! ## Reading a header -/

/-- The program `x` yields the same everywhere, and if it fails then by rejection, just when `c`. -/
def RejectsUnless {α : Type} (p : Platform) (x : Exec α) (c : Prop) : Prop :=
  ∃ r, Yields p x r ∧ (OnlyRejects r ↔ c)

namespace RejectsUnless

variable {α β : Type} {p : Platform} {c c' : Prop} {f : α → Exec β} {g : Unit → Exec β}

theorem liftM {r : Except Error α} : RejectsUnless p (MonadLiftT.monadLift r) (OnlyRejects r) :=
  ⟨r, Yields.liftM, Iff.rfl⟩

theorem yields_bind {x : Exec α} {a : α} (hx : Yields p x (.ok a)) (hf : RejectsUnless p (f a) c)
    : RejectsUnless p (x >>= f) c := by
  obtain ⟨r, hr, hiff⟩ := hf
  exact ⟨r, hx.bind_ok hr, hiff⟩

theorem failIf_bind [Decidable c] {reason : KeyIndexRejection}
    (hg : ¬c → RejectsUnless p (g ()) c')
    : RejectsUnless p (MonadLiftT.monadLift (failIf c (reject reason)) >>= g) (¬c → c') := by
  by_cases h : c
  . rw [failIf, if_pos h]
    exact ⟨_, Yields.liftM.bind_error, by simp [h]⟩
  . obtain ⟨r, hr, hiff⟩ := hg h
    rw [failIf_of_not h]
    exact ⟨r, Yields.liftM.bind_ok hr, by simp [h, hiff]⟩

theorem ensureLimit_bind {limit : String} {value max : Nat}
    (hg : value ≤ max → RejectsUnless p (g ()) c)
    : RejectsUnless p (MonadLiftT.monadLift (ensureLimit limit value max) >>= g)
        (value ≤ max ∧ c) := by
  by_cases h : value ≤ max
  . obtain ⟨r, hr, hiff⟩ := hg h
    rw [ensureLimit_eq_ok.mpr h]
    exact ⟨r, Yields.liftM.bind_ok hr, by simp [h, hiff]⟩
  . refine ⟨.error (.limitExceeded limit value max), ?_, ?_⟩
    . rw [ensureLimit, failIf, if_pos (by omega)]
      exact Yields.liftM.bind_error
    . simp only [h, false_and, iff_false]
      intro hreject
      obtain ⟨reason, hreason⟩ := hreject _ rfl
      contradiction

theorem congr {x : Exec α} (h : RejectsUnless p x c) (hiff : c ↔ c') : RejectsUnless p x c' := by
  rwa [← propext hiff]

end RejectsUnless

/-- A field of the first `n` bytes is one of all bytes. -/
theorem headerField_take {bytes : Bytes} {offset width n : Nat} (h : offset + width ≤ n)
    : headerField (bytes.take n) offset width = headerField bytes offset width := by
  rw [headerField, headerField, Search.slice, Search.slice, List.drop_take, List.take_take,
    Nat.min_eq_left (by omega)]

theorem slice_take {bytes : Bytes} {start stop n : Nat} (h : stop ≤ n)
    : Search.slice (bytes.take n) start stop = Search.slice bytes start stop := by
  rw [Search.slice, Search.slice, List.drop_take, List.take_take, Nat.min_eq_left (by omega)]

theorem headerField_lt {bytes : Bytes} {offset width : Nat}
    : headerField bytes offset width < 256 ^ width := by
  apply Nat.lt_of_lt_of_le (Bytes.toLE_lt _)
  apply Nat.pow_le_pow_right (by decide)
  rw [Search.slice, List.length_take]
  omega

theorem headerDescriptors_take {bytes : Bytes}
    : headerDescriptors (bytes.take headerBytes) = headerDescriptors bytes := by
  simp (disch := decide) only [headerDescriptors, headerDescriptor, List.map_cons, List.map_nil,
    Nat.reduceAdd, headerField_take]

theorem hasChunkLength_take {bytes : Bytes} {actualLen : Nat}
    : HasChunkLength (bytes.take headerBytes) actualLen ↔ HasChunkLength bytes actualLen := by
  have hfield {offset width : Nat} (h : offset + width ≤ headerBytes) :=
    @headerField_take bytes _ _ _ h
  have hslice := @slice_take bytes 0 _ _ (show 8 ≤ headerBytes by decide)
  constructor
  . rintro ⟨⟨hmagic, hformat, hendian⟩, hlen, htotal, hparser, hnormalization, hmin, hpower⟩
    simp (disch := decide) only [hfield, hslice] at *
    exact ⟨⟨hmagic, hformat, hendian⟩, hlen, htotal, hparser, hnormalization, hmin, hpower⟩
  . rintro ⟨⟨hmagic, hformat, hendian⟩, hlen, htotal, hparser, hnormalization, hmin, hpower⟩
    constructor
    . constructor
      all_goals simp (disch := decide) only [hfield, hslice]; assumption
    all_goals simp (disch := decide) only [hfield]; assumption

theorem hasChecksums_take {bytes : Bytes} {count : Nat}
    : HasChecksums (bytes.take headerBytes) count ↔ HasChecksums bytes count := by
  have hfield {offset width : Nat} (h : offset + width ≤ headerBytes) :=
    @headerField_take bytes _ _ _ h
  constructor
  . rintro ⟨hcount, hkeys, hranges⟩
    simp (disch := decide) only [hfield, headerDescriptors_take] at *
    exact ⟨hcount, hkeys, hranges⟩
  . rintro ⟨hcount, hkeys, hranges⟩
    constructor <;> simp (disch := decide) only [hfield, headerDescriptors_take] <;> assumption

theorem fieldExceedsLimit_take {bytes : Bytes} {options : KeyIndexOptions}
    : FieldExceedsLimit options (bytes.take headerBytes) ↔ FieldExceedsLimit options bytes := by
  have hfield := @headerField_take bytes _ _ _ (show 40 + 4 ≤ headerBytes by decide)
  constructor
  . rintro (exceeds | ⟨count, hchunk, hchecksums, hfits, hexceeds⟩)
    . exact .chunkBytes (hfield ▸ exceeds)
    . exact .metadata count (hfield ▸ hchunk) (hasChecksums_take.mp hchecksums) hfits hexceeds
  . rintro (exceeds | ⟨count, hchunk, hchecksums, hfits, hexceeds⟩)
    . exact .chunkBytes (hfield ▸ exceeds)
    . exact .metadata count (hfield ▸ hchunk) (hasChecksums_take.mpr hchecksums) hfits hexceeds

theorem readU32Slice_eq {bytes : Bytes} {offset : Nat} (h : offset + 4 ≤ bytes.length)
    (hlt : bytes.length < u64Bound)
    : readU32Slice bytes offset = .ok (headerField bytes offset 4) := by
  have hstop : checkedAdd offset 4 = some (offset + 4) := by
    rw [checkedAdd_eq_some]
    omega
  have hget : bytes.get? offset (offset + 4) = some (Search.slice bytes offset (offset + 4)) := by
    rw [Bytes.get?_eq_some_iff]
    exact ⟨by omega, h, rfl⟩
  rw [readU32Slice, hstop, okOr_some, except_ok_bind, hget]
  rfl

theorem readU64Slice_eq {bytes : Bytes} {offset : Nat} (h : offset + 8 ≤ bytes.length)
    (hlt : bytes.length < u64Bound)
    : readU64Slice bytes offset = .ok (headerField bytes offset 8) := by
  have hstop : checkedAdd offset 8 = some (offset + 8) := by
    rw [checkedAdd_eq_some]
    omega
  have hget : bytes.get? offset (offset + 8) = some (Search.slice bytes offset (offset + 8)) := by
    rw [Bytes.get?_eq_some_iff]
    exact ⟨by omega, h, rfl⟩
  rw [readU64Slice, hstop, okOr_some, except_ok_bind, hget]
  rfl

theorem get?_of_le {bytes : Bytes} {start stop : Nat} (h : start ≤ stop) (hstop : stop ≤ bytes.length)
    : bytes.get? start stop = some (Search.slice bytes start stop) := by
  rw [Bytes.get?_eq_some_iff]
  exact ⟨h, hstop, rfl⟩

theorem readHeaderLen_bind {β : Type} {p : Platform} {c : Prop} {source : IndexSource}
    {f : Nat → Exec β} (hlt : source.len < u64Bound)
    (hf : headerPrefixBytes ≤ source.len → HasMarkers source.bytes →
      RejectsUnless p (f (headerField source.bytes 16 8)) c)
    : RejectsUnless p (readHeaderLen source >>= f)
        (headerPrefixBytes ≤ source.len → HasMarkers source.bytes → c) := by
  unfold readHeaderLen
  simp only [bind_assoc]
  apply RejectsUnless.congr (c := ¬source.len < headerPrefixBytes →
    ¬(some (Search.slice source.bytes 0 8) ≠ some magic) →
    ¬(headerField source.bytes 8 4 ≠ keyIndexFormatRevision) →
    ¬(headerField source.bytes 12 4 ≠ endianMarker) → c)
  . apply RejectsUnless.failIf_bind
    intro hbegins
    rw [Nat.not_lt] at hbegins
    apply RejectsUnless.yields_bind Yields.reserve
    apply RejectsUnless.yields_bind (HeaderBuilt.yields_readExact (by omega) hlt)
    rw [List.drop_zero]
    generalize hstart : source.bytes.take headerPrefixBytes = start
    have hlen : start.length = headerPrefixBytes := by
      rw [← hstart, List.length_take]
      exact Nat.min_eq_left hbegins
    have hstartLt : start.length < u64Bound := by
      rw [hlen]
      decide
    have hfield {offset width : Nat} (h : offset + width ≤ headerPrefixBytes)
        : headerField source.bytes offset width = headerField start offset width := by
      rw [← hstart, headerField_take h]
    have hslice : Search.slice source.bytes 0 8 = Search.slice start 0 8 := by
      rw [← hstart, slice_take (by decide)]
    rw [hslice, hfield (by decide), hfield (by decide), get?_of_le (by decide) (by rw [hlen]; decide)]
    apply RejectsUnless.failIf_bind
    intro hmagic
    rw [readU32Slice_eq (by rw [hlen]; decide) hstartLt]
    apply RejectsUnless.yields_bind Yields.liftM
    apply RejectsUnless.failIf_bind
    intro hformat
    rw [readU32Slice_eq (by rw [hlen]; decide) hstartLt]
    apply RejectsUnless.yields_bind Yields.liftM
    apply RejectsUnless.failIf_bind
    intro hendian
    rw [readU64Slice_eq (by rw [hlen]; decide) hstartLt]
    apply RejectsUnless.yields_bind Yields.liftM
    rw [ne_eq, not_not] at hformat hendian
    rw [ne_eq, not_not, Option.some.injEq] at hmagic
    rw [← hfield (by decide)]
    exact hf hbegins ⟨hslice.trans hmagic, (hfield (by decide)).trans hformat,
      (hfield (by decide)).trans hendian⟩
  . simp only [Nat.not_lt, ne_eq, not_not, Option.some.injEq]
    exact ⟨fun h hle hmarkers => h hle hmarkers.magic hmarkers.formatRevision hmarkers.endian,
      fun h hle hmagic hformat hendian => h hle ⟨hmagic, hformat, hendian⟩⟩

/-- The header is rejected when it is not as it was written, unless it exceeds a limit. -/
theorem readIndexHeader_rejectsUnless {p : Platform} {source : IndexSource}
    {options : KeyIndexOptions} (hlt : source.len < u64Bound)
    (hmax : source.len ≤ options.maxIndexBytes)
    : RejectsUnless p (readIndexHeader source options options.checksumPolicy)
        (¬ExceedsLimit options source.bytes) := by
  have hheaderLen : headerField source.bytes 16 8 < u64Bound := headerField_lt
  unfold readIndexHeader
  apply RejectsUnless.congr (c := headerPrefixBytes ≤ source.len → HasMarkers source.bytes →
    headerField source.bytes 16 8 ≤ options.maxMetadataBytes
      ∧ (¬(headerField source.bytes 16 8 ≠ headerBytes ∨ headerField source.bytes 16 8 > source.len) →
        ¬(options.checksumPolicy = .verify
          ∧ headerField source.bytes (headerBytes - headerChecksumBytes) 4
            ≠ adler32 (source.bytes.take (headerBytes - headerChecksumBytes))) →
        ¬(HasChunkLength source.bytes source.len ∧ FieldExceedsLimit options source.bytes)))
  . apply readHeaderLen_bind hlt
    intro hbegins hmarkers
    rw [checkedUsize_eq_ok.mpr ⟨rfl, hheaderLen⟩]
    apply RejectsUnless.yields_bind Yields.liftM
    apply RejectsUnless.ensureLimit_bind
    intro hle
    apply RejectsUnless.failIf_bind
    intro hlen
    rw [not_or, ne_eq, not_not, Nat.not_lt] at hlen
    obtain ⟨heq, hle'⟩ := hlen
    rw [heq] at hle' ⊢
    apply RejectsUnless.yields_bind Yields.reserve
    apply RejectsUnless.yields_bind (HeaderBuilt.yields_readExact (by omega) hlt)
    rw [List.drop_zero]
    have hlen : (source.bytes.take headerBytes).length = headerBytes := by
      rw [List.length_take]
      exact Nat.min_eq_left hle'
    dsimp only
    rw [readU32Slice_eq (by rw [hlen]; decide) (by rw [hlen]; decide), headerField_take (by decide),
      List.take_take, Nat.min_eq_left (by decide)]
    apply RejectsUnless.yields_bind Yields.liftM
    apply RejectsUnless.failIf_bind
    intro _
    apply RejectsUnless.congr .liftM
    rw [onlyRejects_parseHeader hlen hmax, hasChunkLength_take, fieldExceedsLimit_take]
  . constructor
    . rintro h (⟨hbegins, hmarkers, hexceeds⟩ | ⟨hlen, hchecksum, hchunk, hexceeds⟩)
      . have := (h hbegins hmarkers).1
        omega
      . have hbegins : headerPrefixBytes ≤ headerBytes := by decide
        have hheader := hchunk.headerLen
        apply (h (hbegins.trans hlen) hchunk.markers).2 _ _ ⟨hchunk, hexceeds⟩
        . rw [not_or, ne_eq, not_not, Nat.not_lt]
          exact ⟨hheader, hheader ▸ hlen⟩
        . rintro ⟨hverify, hne⟩
          exact hne (hchecksum hverify)
    . intro h hbegins hmarkers
      refine ⟨?_, ?_⟩
      . by_contra hexceeds
        exact h (.headerLen hbegins hmarkers (by omega))
      . rintro hlen hchecksum ⟨hchunk, hexceeds⟩
        rw [not_or, ne_eq, not_not, Nat.not_lt] at hlen
        apply h (.field (hlen.1 ▸ hlen.2) _ hchunk hexceeds)
        intro hverify
        by_contra hne
        exact hchecksum ⟨hverify, hne⟩

/-! ## Opening an index -/

variable {w : World} {file : MdictFile} {options : KeyIndexOptions}

/-- What a header that was read is bounded by. -/
theorem bounds_of_parseHeader {bytes : Bytes} {actualLen : Nat} {header : IndexHeader}
    (h : parseHeader bytes actualLen options = .ok header)
    : header.chunkBytes ≤ options.chunkBytes ∧ header.checksumCount * 4 < u64Bound := by
  simp only [parseHeader, except_bind_eq_ok] at h
  obtain ⟨_, -, _, -, _, -, _, -, _, -, _, -, _, -, ⟨chunkBytes, _⟩, hchunkBytes, ⟨_, _⟩, -, _, -,
    ⟨identity, _⟩, -, ⟨textLen, _⟩, -, ⟨sections, _⟩, -, checksumCount, -, _, hmul, _, -, _, -, _,
    -, _, -, h⟩ := h
  rw [except_pure_eq_ok] at h
  subst h
  rw [okOr_eq_ok, checkedMul_eq_some] at hmul
  obtain ⟨rfl, hmul⟩ := hmul
  refine ⟨?_, hmul⟩
  simp only [HeaderCursor.readChunkBytes, except_bind_eq_ok, failIf_eq_ok, except_pure_eq_ok,
    Nat.not_lt] at hchunkBytes
  obtain ⟨⟨value, _⟩, -, _, -, _, hle, heq⟩ := hchunkBytes
  rw [Prod.mk.injEq] at heq
  exact heq.1 ▸ hle

theorem onlyRejects_align8 (value : Nat) : OnlyRejects (align8 value) :=
  .bind (onlyRejects_okOr _ _) fun _ _ => onlyRejects_pure _

theorem onlyRejects_checkSectionOffsets (sourceLen cursor : Nat)
    (sections : List SectionDescriptor)
    : OnlyRejects (checkSectionOffsets sourceLen cursor sections) := by
  induction sections generalizing cursor with
  | nil => exact onlyRejects_ok cursor
  | cons descriptor sections ih =>
    exact .bind (onlyRejects_align8 _) fun _ _ => .bind (onlyRejects_failIf _) fun _ _ =>
      .bind (onlyRejects_okOr _ _) fun _ _ => .bind (onlyRejects_failIf _) fun _ _ => ih _

theorem onlyRejects_validateSectionLayout (source : IndexSource) (header : IndexHeader)
    : OnlyRejects (validateSectionLayout source header) := by
  unfold validateSectionLayout
  apply OnlyRejects.bind (onlyRejects_okOr _ _)
  intro _ _
  apply OnlyRejects.bind (onlyRejects_okOr _ _)
  intro cursor _
  split
  . exact .bind (onlyRejects_align8 _) fun _ _ =>
      .bind (onlyRejects_checkSectionOffsets _ _ _) fun _ _ => onlyRejects_failIf _
  . exact .bind (onlyRejects_pure _) fun _ _ =>
      .bind (onlyRejects_checkSectionOffsets _ _ _) fun _ _ => onlyRejects_failIf _

/-- The sizes of the caches of an index that was accepted do not overflow. -/
theorem cacheBytes_isOk {header : IndexHeader} (hoptions : validateOptions options = .ok ())
    (hchunk : header.chunkBytes ≤ options.chunkBytes)
    (hcount : header.checksumCount * 4 < u64Bound) (policy : ChecksumPolicy)
    : ∃ size, PersistentKeyIndex.cacheBytes header policy = .ok size := by
  simp only [validateOptions, except_bind_eq_ok, failIf_eq_ok, not_or, not_lt] at hoptions
  obtain ⟨⟨⟩, -, ⟨⟩, ⟨-, hmax, -⟩, -⟩ := hoptions
  have hbound : u32Max * 4 + checksumPageBytes < u64Bound := by decide
  have hmul : checkedMul header.chunkBytes Persistent.sectionCount
      = some (header.chunkBytes * 4) := by
    rw [checkedMul_eq_some]
    exact ⟨rfl, by omega⟩
  have hmul' : checkedMul header.checksumCount 4 = some (header.checksumCount * 4) := by
    rw [checkedMul_eq_some]
    exact ⟨rfl, hcount⟩
  generalize hsize : (if policy = ChecksumPolicy.verify then
    min (header.checksumCount * 4) checksumPageBytes else 0) = size
  have hle : size ≤ checksumPageBytes := by
    rw [← hsize]
    split
    . exact Nat.min_le_right _ _
    . exact Nat.zero_le _
  have hadd : checkedAdd (header.chunkBytes * 4) size = some (header.chunkBytes * 4 + size) := by
    rw [checkedAdd_eq_some]
    exact ⟨rfl, by omega⟩
  refine ⟨header.chunkBytes * 4 + size, ?_⟩
  rw [PersistentKeyIndex.cacheBytes, checkedUsize_eq_ok.mpr ⟨rfl, by omega⟩, except_ok_bind, hmul,
    okOr_some, except_ok_bind, hmul', okOr_some, except_ok_bind, hsize,
    checkedUsize_eq_ok.mpr ⟨rfl, by omega⟩, except_ok_bind, hadd, okOr_some]

/-- In a quiet world a program that yields a result does so. -/
theorem run_of_yields {α : Type} {x : Exec α} {r : Except Error α} (h : Yields w.platform x r)
    (hw : w.Quiet) (s : Session)
    : ∃ events, x w s = (r, { s with events }) := by
  obtain ⟨events, hrun | ⟨e, he, -⟩⟩ := h w s rfl
  . exact ⟨events, hrun⟩
  . exact absurd he (not_interrupted hw)

/-- A step that yields a value does not decide how a program fails. -/
theorem onlyRejects_skip {α β : Type} {x : Exec α} {a : α} {f : α → Exec β} {c : Prop}
    (hx : Yields w.platform x (.ok a)) (hw : w.Quiet)
    (hf : ∀ s, OnlyRejects (f a w s).1 ↔ c) (s : Session)
    : OnlyRejects ((x >>= f) w s).1 ↔ c := by
  obtain ⟨events, hrun⟩ := run_of_yields hx hw s
  rw [Prog.bind_of_ok hrun]
  exact hf _

/-- The rejections, as failures of a program. -/
def IsRejection (e : Error) : Prop := ∃ reason, e = reject reason

theorem rejects_of_yields {α : Type} {x : Exec α} {a : α} (h : Yields w.platform x (.ok a))
    (hw : w.Quiet)
    : Ensures w (fun _ => True) x (· = a) IsRejection := by
  intro s _
  obtain ⟨events, hrun⟩ := run_of_yields h hw s
  rw [hrun]
  exact ⟨trivial, rfl⟩

/-- When all that follows only rejects, the first part decides how a program fails. -/
theorem onlyRejects_run_bind {α β : Type} {x : Exec α} {r : Except Error α} {f : α → Exec β}
    (hx : Yields w.platform x r) (hw : w.Quiet)
    (hf : ∀ a, r = .ok a → Ensures w (fun _ => True) (f a) (fun _ => True) IsRejection)
    (s : Session)
    : OnlyRejects ((x >>= f) w s).1 ↔ OnlyRejects r := by
  obtain ⟨events, hrun⟩ := run_of_yields hx hw s
  cases r with
  | error e =>
    rw [Prog.bind_of_error hrun]
    constructor
    all_goals
      rintro h _ ⟨⟩
      exact h e rfl
  | ok a =>
    rw [Prog.bind_of_ok hrun]
    simp only [onlyRejects_ok, iff_true]
    intro e he
    exact ((hf a rfl).outcome (s := { s with events }) trivial).2.2 e he

theorem rejects_liftM {α : Type} {r : Except Error α} (h : OnlyRejects r)
    : Ensures w (fun _ => True) (MonadLiftT.monadLift r : Exec α) (fun _ => True) IsRejection :=
  .liftM (fun _ _ => trivial) h

theorem validateDictionaryIdentity_rejects (hw : w.Quiet) (identity : KeyIndexSourceIdentity)
    : Ensures w (fun _ => True) (file.validateDictionaryIdentity identity) (fun _ => True)
        IsRejection := by
  unfold MdictFile.validateDictionaryIdentity FileSource.currentIdentity
  simp only [bind_assoc]
  apply Ensures.bind (rejects_of_yields Yields.log hw)
  intro _ _
  apply Ensures.bind (rejects_of_yields Yields.io hw)
  intro _ _
  apply Ensures.bind (Ensures.ask (Q := fun _ => True) trivial)
  intro _ _
  apply Ensures.bind (Ensures.get (Q := fun _ => True) fun _ _ => trivial)
  intro _ _
  apply Ensures.bind (Ensures.pure (Q := fun _ => True) trivial)
  intro _ _
  apply Ensures.bind (rejects_liftM (onlyRejects_failIf _))
  intro _ _
  apply Ensures.bind (rejects_liftM (onlyRejects_failIf _))
  intro _ _
  exact rejects_liftM (onlyRejects_failIf _)

end Mdict.Persistent
