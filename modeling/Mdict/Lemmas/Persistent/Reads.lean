import Mdict.Core.Persistent.Query
import Mdict.Lemmas.Session

/-!
This module contains what reads of a key index answer: whatever happened before, a read that
succeeds gives the bytes that the file has, all of them verified, and a read fails for a reason.
-/

namespace Mdict

open Effect Persistent

section Source

variable {w : World} {I : Session → Prop} {source : IndexSource}

theorem Persistent.IndexSource.readExact_ensures (hI : LogInvariant I) (offset len : Nat)
    : Ensures w I (source.readExact offset len)
        (fun bytes => bytes = Search.slice source.bytes offset (offset + len)
          ∧ offset + len ≤ source.len)
        (fun e => Refused w e
          ∨ ¬(offset + len ≤ source.len ∧ source.len < u64Bound)
            ∧ ∃ context, e = invalidLayout context) := by
  unfold readExact
  apply ensures_okOr_bind
  . intro h
    rw [checkedAdd_eq_none] at h
    exact .inr ⟨by omega, _, rfl⟩
  intro stop h
  obtain ⟨rfl, -⟩ := checkedAdd_eq_some.mp h
  apply ensures_failIf_bind
  . intro h
    exact .inr ⟨by omega, _, rfl⟩
  intro hle
  apply Ensures.bind (log_ensures hI)
  intro _ _
  apply Ensures.bind (io_refused.mono (fun _ h => h) fun _ he => .inl he)
  intro _ _
  apply Ensures.pure
  refine ⟨?_, by omega⟩
  rw [Search.slice, Nat.add_sub_cancel_left]

end Source

namespace PersistentKeyIndex

/-! ## What the file has -/

section Contents

variable (index : PersistentKeyIndex)

/-- The bytes of the file from `start` up to `stop` in a section. -/
def sectionSlice (kind : SectionKind) (start stop : Nat) : Bytes :=
  Search.slice index.source.bytes ((index.header.sections kind).offset + start)
    ((index.header.sections kind).offset + stop)

/-- Where a chunk ends in its section. -/
def chunkStop (kind : SectionKind) (chunk : Nat) : Nat :=
  min (index.header.sections kind).len
    (chunk * index.header.chunkBytes + index.header.chunkBytes)

def chunkAt (kind : SectionKind) (chunk : Nat) : Bytes :=
  index.sectionSlice kind (chunk * index.header.chunkBytes) (index.chunkStop kind chunk)

/-- A page of the checksum table. -/
def checksumPage (page : Nat) : Bytes :=
  Search.slice index.source.bytes (index.header.headerLen + page * checksumPageBytes)
    (index.header.headerLen
      + min (index.header.checksumCount * 4) (page * checksumPageBytes + checksumPageBytes))

def checksumAt (checksumIndex : Nat) : Nat :=
  Bytes.toLE (Search.slice index.source.bytes (index.header.headerLen + checksumIndex * 4)
    (index.header.headerLen + (checksumIndex * 4 + 4)))

/-- A chunk has the checksum of the table, when checksums matter. -/
def ChunkVerified (kind : SectionKind) (chunk : Nat) : Prop :=
  index.checksumPolicy = .verify →
    index.checksumAt ((index.header.sections kind).checksumStart + chunk)
      = adler32 (index.chunkAt kind chunk)

/-- The error of a chunk that is not verified. -/
def chunkMismatch (kind : SectionKind) (chunk : Nat) : Error :=
  reject (.checksumMismatch kind.name (some chunk)
    (index.checksumAt ((index.header.sections kind).checksumStart + chunk))
    (adler32 (index.chunkAt kind chunk)))

/-- The checksum table and the sections are within the file and fit together. -/
structure Formed : Prop where
  chunkBytes_pos : 0 < index.header.chunkBytes
  len_lt : index.source.len < u64Bound
  table : index.header.headerLen + index.header.checksumCount * 4 ≤ index.source.len
  sections : ∀ kind, (index.header.sections kind).offset + (index.header.sections kind).len
    ≤ index.source.len
  checksums : ∀ kind, (index.header.sections kind).checksumStart
    + (index.header.sections kind).checksumCount ≤ index.header.checksumCount
  chunks : ∀ kind chunk, chunk * index.header.chunkBytes < (index.header.sections kind).len →
    chunk < (index.header.sections kind).checksumCount

/-- The file has all that its header promises. -/
structure Intact : Prop where
  chunkBytes_pos : 0 < index.header.chunkBytes
  len_lt : index.source.len < u64Bound
  table : index.header.headerLen + index.header.checksumCount * 4 ≤ index.source.len
  sections : ∀ kind, (index.header.sections kind).offset + (index.header.sections kind).len
    ≤ index.source.len
  checksums : ∀ kind, (index.header.sections kind).checksumStart
    + (index.header.sections kind).checksumCount ≤ index.header.checksumCount
  chunks : ∀ kind chunk, chunk * index.header.chunkBytes < (index.header.sections kind).len →
    chunk < (index.header.sections kind).checksumCount
  verified : index.checksumPolicy = .verify → ∀ kind chunk,
    chunk * index.header.chunkBytes < (index.header.sections kind).len →
      index.checksumAt ((index.header.sections kind).checksumStart + chunk)
        = adler32 (index.chunkAt kind chunk)

theorem Intact.formed {index : PersistentKeyIndex} (h : index.Intact) : index.Formed :=
  ⟨h.chunkBytes_pos, h.len_lt, h.table, h.sections, h.checksums, h.chunks⟩

end Contents

/-! ## The invariant of the caches -/

section Invariant

variable (index : PersistentKeyIndex)

/-- A slot of the chunk cache holds the chunk it is said to hold, and that is verified. -/
def SlotSound (kind : SectionKind) (slot : VerifiedChunk) : Prop :=
  ∀ chunk, slot.number = some chunk →
    slot.bytes = index.chunkAt kind chunk ∧ index.ChunkVerified kind chunk

/-- The checksum cache holds the page it is said to hold. -/
def PageSound (slot : VerifiedChunk) : Prop :=
  ∀ page, slot.number = some page → slot.bytes = index.checksumPage page

structure CacheSound (s : Session) : Prop where
  chunk : ∀ kind, index.SlotSound kind (s.chunkCache kind)
  checksum : index.PageSound s.checksumCache

/-- An invariant that asks no more of the caches of the index than to be sound. -/
structure Invariant (I : Session → Prop) : Prop where
  sound : ∀ s, I s → index.CacheSound s
  events : LogInvariant I
  chunk : ∀ s kind slot, I s → index.SlotSound kind slot →
    I { s with chunkCache := fun other => if other = kind then slot else s.chunkCache other }
  checksum : ∀ s slot, I s → index.PageSound slot → I { s with checksumCache := slot }

theorem slotSound_none {kind : SectionKind} {bytes : Bytes}
    : index.SlotSound kind ⟨none, bytes⟩ := by
  intro chunk h
  contradiction

theorem pageSound_none {bytes : Bytes} : index.PageSound ⟨none, bytes⟩ := by
  intro page h
  contradiction

/-- Empty caches are sound. -/
theorem cacheSound_new {s : Session} (hchunk : s.chunkCache = fun _ => .new)
    (hchecksum : s.checksumCache = .new)
    : index.CacheSound s where
  chunk := by
    rw [hchunk]
    exact fun kind => index.slotSound_none
  checksum := by
    rw [hchecksum]
    exact index.pageSound_none

theorem invariant_cacheSound : index.Invariant index.CacheSound where
  sound := fun _ h => h
  events := fun _ _ h => ⟨h.chunk, h.checksum⟩
  chunk := by
    intro s kind slot h hslot
    refine ⟨?_, h.checksum⟩
    intro other
    dsimp only
    split
    . next heq => exact heq ▸ hslot
    . exact h.chunk other
  checksum := fun _ _ h hslot => ⟨h.chunk, hslot⟩

end Invariant

/-! ## Rows -/

section Rows

variable (index : PersistentKeyIndex)

/-- The number that `width` bytes of a section hold at `position`. -/
def numberAt (kind : SectionKind) (width position : Nat) : Nat :=
  Bytes.toLE (index.sectionSlice kind (position * width) (position * width + width))

/-- Where the normalized text of a row starts, and where the one before ends. -/
def boundOf (position : Nat) : Nat := index.numberAt .bounds 8 position

/-- The row at a position of the order. -/
def orderOf (position : Nat) : Nat := index.numberAt .order 4 position

def digestOf (ordinal : Nat) : Nat := index.numberAt .raw 4 ordinal

/-- The normalized text of a row. -/
def textOf (ordinal : Nat) : Bytes :=
  index.sectionSlice .text (index.boundOf ordinal) (index.boundOf (ordinal + 1))

/-- The sections have entries for all rows. -/
structure Complete : Prop where
  bounds : index.len * 8 + 8 ≤ (index.header.sections .bounds).len
  order : index.len * 4 ≤ (index.header.sections .order).len
  raw : index.len * 4 ≤ (index.header.sections .raw).len

/-- The text of a row is within its bounds and valid UTF-8. -/
structure RowFits (ordinal : Nat) : Prop where
  lt : ordinal < index.len
  le : index.boundOf ordinal ≤ index.boundOf (ordinal + 1)
  stop : index.boundOf (ordinal + 1)
    ≤ min index.header.normalizedTextLen (index.header.sections .text).len
  utf8 : Unicode.utf8Decode? (index.textOf ordinal) ≠ none

/-- A row takes no more bytes than the reader takes. -/
def Short (row : Nat) : Prop := index.boundOf (row + 1) - index.boundOf row ≤ index.maxRowBytes

end Rows

/-! ## Failures -/

/--
Why a read fails: it is refused, the layout or `c` does not hold, or the first of the touched chunks
that are not verified is found out.
-/
inductive ReadError (index : PersistentKeyIndex) (w : World) (kind : SectionKind)
    (touched : Nat → Prop) (c : Prop)
    : Error → Prop where
  | refused {e : Error} (h : Refused w e) : ReadError index w kind touched c e
  | malformed {e : Error} (h : ¬(index.Formed ∧ c)) (he : NotPanic e)
      : ReadError index w kind touched c e
  | mismatch {chunk : Nat} (htouched : touched chunk) (hchunk : ¬index.ChunkVerified kind chunk)
      (hbefore : ∀ before < chunk, touched before → index.ChunkVerified kind before)
      : ReadError index w kind touched c (index.chunkMismatch kind chunk)

/-- Some row takes more bytes than the reader takes. -/
def HasLongRow (index : PersistentKeyIndex) : Prop := ∃ row < index.len, ¬index.Short row

/-- A failure that the outside world or a row that is too long caused. -/
def Stopped (index : PersistentKeyIndex) (w : World) (e : Error) : Prop :=
  Interrupted w e ∨ (e.isRowLimit = true ∧ index.HasLongRow)

theorem Stopped.hindered {index : PersistentKeyIndex} {w : World} {e : Error}
    (h : index.Stopped w e)
    : Hindered w e :=
  h.imp_right fun h => Error.isLimitExceeded_of_isRowLimit h.1

/--
A failure of a read: from outside, by a row that is too long, or because the file is not intact or
`c` does not hold.
-/
def ReadFails (index : PersistentKeyIndex) (w : World) (c : Prop) (e : Error) : Prop :=
  index.Stopped w e ∨ ¬(index.Intact ∧ c)

variable {index : PersistentKeyIndex} {w : World} {I : Session → Prop} {c c' : Prop} {e : Error}
variable {kind : SectionKind} {touched : Nat → Prop}

theorem ReadFails.mono (h : index.ReadFails w c e) (hc : c' → c) : index.ReadFails w c' e :=
  h.imp_right fun h h' => h ⟨h'.1, hc h'.2⟩

namespace ReadError

theorem mono (h : index.ReadError w kind touched c e) (hc : index.Formed → c' → c)
    : index.ReadError w kind touched c' e := by
  cases h with
  | refused h => exact .refused h
  | malformed h he => exact .malformed (fun h' => h ⟨h'.1, hc h'.1 h'.2⟩) he
  | mismatch htouched hchunk hbefore => exact .mismatch htouched hchunk hbefore

theorem invalidLayout {context : String} (h : ¬(index.Formed ∧ c))
    : index.ReadError w kind touched c (invalidLayout context) :=
  .malformed h (notPanic_reject _)

theorem invalidData {context : String} (h : ¬(index.Formed ∧ c))
    : index.ReadError w kind touched c (.invalidData context) :=
  .malformed h (notPanic_invalidData _)

theorem notPanic (h : index.ReadError w kind touched c e) : NotPanic e := by
  cases h with
  | refused h => exact h.notPanic
  | malformed _ he => exact he
  | mismatch _ _ _ => exact notPanic_reject _

/-- On an intact file the chunks of a section are verified. -/
theorem fails (h : index.ReadError w kind touched c e)
    (htouched : c → ∀ chunk, touched chunk →
      chunk * index.header.chunkBytes < (index.header.sections kind).len)
    : index.ReadFails w c e := by
  cases h with
  | refused h => exact .inl (.inl h.interrupted)
  | malformed h _ => exact .inr fun h' => h ⟨h'.1.formed, h'.2⟩
  | mismatch hmem hchunk _ =>
    right
    rintro ⟨hintact, hc⟩
    exact hchunk fun hpolicy => hintact.verified hpolicy kind _ (htouched hc _ hmem)

end ReadError

/-! ## Checksums -/

theorem loadChecksumPage_ensures (hI : index.Invariant I) {page : Nat}
    (hpage : page * checksumPageBytes ≤ index.header.checksumCount * 4)
    : Ensures w I
        (index.loadChecksumPage page (page * checksumPageBytes)
          (min (index.header.checksumCount * 4 - page * checksumPageBytes) checksumPageBytes))
        (fun bytes => bytes = index.checksumPage page)
        (index.ReadError w kind touched True) := by
  have hstop : index.header.headerLen + page * checksumPageBytes
      + min (index.header.checksumCount * 4 - page * checksumPageBytes) checksumPageBytes
      = index.header.headerLen
        + min (index.header.checksumCount * 4) (page * checksumPageBytes + checksumPageBytes) := by
    omega
  unfold loadChecksumPage
  apply Ensures.get_bind
  intro s hs
  split
  . apply Ensures.modify_bind
    . intro s hs
      exact hI.checksum s _ hs index.pageSound_none
    apply ensures_checkedAdd_bind
    . intro h
      apply ReadError.invalidLayout
      rintro ⟨hformed, -⟩
      have := hformed.table
      have := hformed.len_lt
      omega
    intro _
    apply Ensures.bind
    . apply (IndexSource.readExact_ensures hI.events _ _).mono (fun _ h => h)
      rintro e (he | ⟨he, context, rfl⟩)
      . exact .refused he
      . apply ReadError.invalidLayout
        rintro ⟨hformed, -⟩
        have := hformed.table
        have := hformed.len_lt
        omega
    rintro _ ⟨rfl, -⟩
    rw [hstop]
    apply Ensures.modify_bind
    . intro s hs
      apply hI.checksum s _ hs
      rintro page ⟨⟩
      rfl
    exact .pure rfl
  . next h =>
    simp only [ne_eq, not_or, not_not] at h
    exact .pure ((hI.sound s hs).checksum page h.1)

theorem expectedChecksum_ensures (hI : index.Invariant I) (checksumIndex : Nat)
    : Ensures w I (index.expectedChecksum checksumIndex)
        (fun checksum => checksum = index.checksumAt checksumIndex)
        (index.ReadError w kind touched (checksumIndex < index.header.checksumCount)) := by
  have hoverflow (n : Nat) (hn : n ≤ index.header.checksumCount * 4) (h : u64Bound ≤ n)
      : ¬(index.Formed ∧ checksumIndex < index.header.checksumCount) := by
    rintro ⟨hformed, -⟩
    have := hformed.table
    have := hformed.len_lt
    omega
  unfold expectedChecksum
  apply ensures_failIf_bind
  . intro h
    exact .invalidLayout (by omega)
  intro hlt
  have hlt : checksumIndex < index.header.checksumCount := by omega
  -- The page starts at or before the checksum and holds all of it.
  have hpages := Nat.div_add_mod' (checksumIndex * 4) checksumPageBytes
  have hmod := Nat.mod_lt (checksumIndex * 4) (show checksumPageBytes > 0 by decide)
  have hfour : checksumIndex * 4 % checksumPageBytes % 4 = 0 := by
    rw [checksumPageBytes, Nat.mod_mod_of_dvd _ (by decide)]
    exact Nat.mul_mod_left _ _
  have hbytes : checksumPageBytes = 4096 := rfl
  apply ensures_checkedMul_bind
  . exact fun h => .invalidLayout (hoverflow _ (by omega) h)
  intro _
  dsimp only
  generalize checksumIndex * 4 / checksumPageBytes = page at hpages
  apply ensures_checkedMul_bind
  . exact fun h => .invalidLayout (hoverflow _ (by omega) h)
  intro _
  apply ensures_checkedMul_bind
  . exact fun h => .invalidLayout (hoverflow _ (Nat.le_refl _) h)
  intro _
  apply ensures_checkedUsize_bind
  . exact fun h _ => .invalidData (hoverflow _ (by omega) h)
  intro _
  apply Ensures.bind
  . apply (@loadChecksumPage_ensures _ _ _ kind touched hI page (by omega)).mono (fun _ h => h)
    exact fun e he => he.mono fun _ _ => trivial
  rintro _ rfl
  apply ensures_checkedUsize_bind
  . exact fun h _ => .invalidData (hoverflow _ (by omega) h)
  intro _
  apply ensures_checkedAdd_bind
  . exact fun h => .invalidLayout (hoverflow _ (by omega) h)
  intro _
  apply ensures_okOr_bind
  . intro h
    apply ReadError.invalidLayout
    rintro ⟨hformed, -⟩
    have := hformed.table
    have hlen : (index.checksumPage page).length
        = min (index.header.checksumCount * 4) (page * checksumPageBytes + checksumPageBytes)
          - page * checksumPageBytes := by
      rw [checksumPage, Search.length_slice (by rw [IndexSource.len] at this; omega)]
      omega
    simp only [Bytes.get?] at h
    split at h
    . contradiction
    . omega
  intro field h
  obtain ⟨-, hle, rfl⟩ := Bytes.get?_eq_some_iff.mp h
  apply Ensures.pure
  have hslice := @Search.slice_slice _
    (index.header.headerLen + page * checksumPageBytes)
    (index.header.headerLen
      + min (index.header.checksumCount * 4) (page * checksumPageBytes + checksumPageBytes))
    (checksumIndex * 4 - page * checksumPageBytes + 4) (by omega) index.source.bytes
    (checksumIndex * 4 - page * checksumPageBytes)
  rw [checksumAt, checksumPage]
  rw [Search.slice] at hslice
  rw [hslice]
  congr 2 <;> omega

/-- The checksum that a chunk is compared with. -/
def chunkChecksum (index : PersistentKeyIndex) (checksumIndex : Nat) : Option Nat :=
  match index.checksumPolicy with
  | .verify => some (index.checksumAt checksumIndex)
  | .skip => none

theorem expectedChunkChecksum_ensures (hI : index.Invariant I) (checksumIndex : Nat)
    : Ensures w I (index.expectedChunkChecksum checksumIndex)
        (fun expected => expected = index.chunkChecksum checksumIndex)
        (index.ReadError w kind touched (checksumIndex < index.header.checksumCount)) := by
  unfold expectedChunkChecksum chunkChecksum
  cases index.checksumPolicy with
  | skip => exact .pure rfl
  | verify =>
    apply Ensures.bind (expectedChecksum_ensures hI checksumIndex)
    rintro _ rfl
    exact .pure rfl

/-! ## Chunks -/

theorem readChunk_ensures (hI : index.Invariant I) {chunk : Nat}
    (hle : chunk * index.header.chunkBytes ≤ (index.header.sections kind).len)
    : Ensures w I
        (index.readChunk kind chunk
          ((index.header.sections kind).offset + chunk * index.header.chunkBytes)
          (min ((index.header.sections kind).len - chunk * index.header.chunkBytes)
            index.header.chunkBytes)
          (index.chunkChecksum ((index.header.sections kind).checksumStart + chunk)))
        (fun bytes => (bytes = index.chunkAt kind chunk ∧ index.ChunkVerified kind chunk)
          ∧ chunk * index.header.chunkBytes + bytes.length = index.chunkStop kind chunk)
        (index.ReadError w kind (· = chunk) True) := by
  have hkept (hverified : index.ChunkVerified kind chunk)
      : index.SlotSound kind ⟨some chunk, index.chunkAt kind chunk⟩ := by
    rintro _ ⟨⟩
    exact ⟨rfl, hverified⟩
  have hstop : (index.header.sections kind).offset + chunk * index.header.chunkBytes
      + min ((index.header.sections kind).len - chunk * index.header.chunkBytes)
        index.header.chunkBytes
      = (index.header.sections kind).offset + index.chunkStop kind chunk := by
    rw [chunkStop]
    omega
  unfold readChunk
  apply Ensures.get_bind
  intro s _
  apply Ensures.modify_bind
  . exact fun s hs => hI.chunk s kind _ hs index.slotSound_none
  apply Ensures.bind
  . apply (IndexSource.readExact_ensures hI.events _ _).mono (fun _ h => h)
    rintro e (he | ⟨he, context, rfl⟩)
    . exact .refused he
    . apply ReadError.invalidLayout
      rintro ⟨hformed, -⟩
      have := hformed.sections kind
      have := hformed.len_lt
      omega
  rintro _ ⟨rfl, hin⟩
  rw [hstop] at hin ⊢
  have hlen : chunk * index.header.chunkBytes + (index.chunkAt kind chunk).length
      = index.chunkStop kind chunk := by
    rw [chunkAt, sectionSlice, Search.length_slice hin, chunkStop]
    omega
  unfold chunkChecksum
  cases hpolicy : index.checksumPolicy with
  | skip =>
    have hverified : index.ChunkVerified kind chunk := by
      intro h
      rw [hpolicy] at h
      contradiction
    apply Ensures.modify_bind
    . exact fun s hs => hI.chunk s kind _ hs (hkept hverified)
    exact .pure ⟨⟨rfl, hverified⟩, hlen⟩
  | verify =>
    dsimp only
    split
    . next hne =>
      apply Ensures.modify_bind
      . exact fun s hs => hI.chunk s kind _ hs index.slotSound_none
      apply Ensures.fail
      exact .mismatch rfl (fun h => hne (h hpolicy)) fun before hlt heq => absurd heq (by omega)
    . next heq =>
      have hverified : index.ChunkVerified kind chunk := fun _ => not_not.mp heq
      apply Ensures.modify_bind
      . exact fun s hs => hI.chunk s kind _ hs (hkept hverified)
      exact .pure ⟨⟨rfl, hverified⟩, hlen⟩

theorem loadVerifiedChunk_ensures (hI : index.Invariant I) (kind : SectionKind) (chunk : Nat)
    : Ensures w I (index.loadVerifiedChunk kind chunk)
        (fun bytes => (bytes = index.chunkAt kind chunk ∧ index.ChunkVerified kind chunk)
          ∧ chunk * index.header.chunkBytes + bytes.length = index.chunkStop kind chunk)
        (index.ReadError w kind (· = chunk)
          (chunk * index.header.chunkBytes < (index.header.sections kind).len)) := by
  have hoverflow (n : Nat)
      (hn : n ≤ (index.header.sections kind).offset + (index.header.sections kind).len)
      (h : u64Bound ≤ n)
      : ¬(index.Formed ∧ chunk * index.header.chunkBytes < (index.header.sections kind).len) := by
    rintro ⟨hformed, -⟩
    have := hformed.sections kind
    have := hformed.len_lt
    omega
  unfold loadVerifiedChunk
  dsimp only
  apply ensures_failIf_bind
  . intro h
    apply ReadError.invalidLayout
    rintro ⟨hformed, hlt⟩
    have := hformed.chunks kind chunk hlt
    omega
  intro _
  apply ensures_checkedAdd_bind
  . intro h
    apply ReadError.invalidLayout
    rintro ⟨hformed, hlt⟩
    have := hformed.chunks kind chunk hlt
    have := hformed.checksums kind
    have := hformed.table
    have := hformed.len_lt
    omega
  intro _
  apply Ensures.bind
  . apply (expectedChunkChecksum_ensures hI _).mono (fun _ h => h)
    intro e he
    apply he.mono
    intro hformed hlt
    have := hformed.chunks kind chunk hlt
    have := hformed.checksums kind
    omega
  rintro _ rfl
  apply ensures_checkedMul_bind
  . intro h
    apply ReadError.invalidLayout
    rintro ⟨hformed, hlt⟩
    have := hformed.sections kind
    have := hformed.len_lt
    omega
  intro _
  apply ensures_checkedSub_bind
  . intro h
    exact .invalidLayout (by omega)
  intro hle
  apply ensures_checkedAdd_bind
  . exact fun h => .invalidLayout (hoverflow _ (by omega) h)
  intro _
  apply ensures_checkedUsize_bind
  . exact fun h _ => .invalidData (hoverflow _ (by omega) h)
  intro _
  apply Ensures.get_bind
  intro s hs
  split
  . next hhit =>
    apply Ensures.pure
    refine ⟨(hI.sound s hs).chunk kind chunk hhit.1, ?_⟩
    rw [hhit.2, chunkStop]
    omega
  . apply (readChunk_ensures hI hle).mono (fun _ h => h)
    exact fun e he => he.mono fun _ _ => trivial

/-! ## Sections -/

/-- A read of a section has a byte of the chunk. -/
def Touches (index : PersistentKeyIndex) (offset len chunk : Nat) : Prop :=
  ∃ position, offset ≤ position ∧ position < offset + len
    ∧ position / index.header.chunkBytes = chunk

theorem Touches.lt {offset len chunk : Nat} (h : index.Touches offset len chunk)
    (hle : offset + len ≤ (index.header.sections kind).len)
    : chunk * index.header.chunkBytes < (index.header.sections kind).len := by
  obtain ⟨position, -, hlt, rfl⟩ := h
  have := Nat.div_mul_le_self position index.header.chunkBytes
  omega

theorem copyChunk_ensures (hI : index.Invariant I) {offset stop chunk : Nat}
    (hstop : stop ≤ (index.header.sections kind).len)
    (hlt : chunk * index.header.chunkBytes < stop)
    : Ensures w I (index.copyChunk kind offset stop chunk)
        (fun part => part = index.sectionSlice kind (max offset (chunk * index.header.chunkBytes))
            (min stop (chunk * index.header.chunkBytes + index.header.chunkBytes))
          ∧ index.ChunkVerified kind chunk)
        (index.ReadError w kind (· = chunk) True) := by
  unfold copyChunk
  apply Ensures.bind
  . apply (loadVerifiedChunk_ensures hI kind chunk).mono (fun _ h => h)
    exact fun e he => he.mono fun _ _ => by omega
  rintro _ ⟨⟨rfl, hverified⟩, hlen⟩
  apply ensures_checkedMul_bind
  . intro h
    apply ReadError.invalidLayout
    rintro ⟨hformed, -⟩
    have := hformed.sections kind
    have := hformed.len_lt
    omega
  intro _
  rw [chunkStop] at hlen
  apply ensures_checkedAdd_bind
  . intro h
    apply ReadError.invalidLayout
    rintro ⟨hformed, -⟩
    have := hformed.sections kind
    have := hformed.len_lt
    omega
  intro _
  apply Ensures.pure
  refine ⟨?_, hverified⟩
  have hend : min stop (chunk * index.header.chunkBytes + (index.chunkAt kind chunk).length)
      = min stop (chunk * index.header.chunkBytes + index.header.chunkBytes) := by
    omega
  have hslice := @Search.slice_slice _
    ((index.header.sections kind).offset + chunk * index.header.chunkBytes)
    ((index.header.sections kind).offset + index.chunkStop kind chunk)
    (min stop (chunk * index.header.chunkBytes + index.header.chunkBytes)
      - chunk * index.header.chunkBytes) (by rw [chunkStop]; omega) index.source.bytes
    (max offset (chunk * index.header.chunkBytes) - chunk * index.header.chunkBytes)
  rw [hend, chunkAt, sectionSlice, sectionSlice]
  calc (Search.slice index.source.bytes _ _ |>.drop _).take _
    _ = Search.slice (Search.slice index.source.bytes _ _) _ _ := by
      rw [Search.slice]
      congr 1
      omega
    _ = _ := hslice
    _ = _ := by
      congr 1 <;> omega

/-- What a read of a section gives: the bytes that the file has there, from verified chunks. -/
structure SectionRead (index : PersistentKeyIndex) (kind : SectionKind) (offset len : Nat)
    (bytes : Bytes)
    : Prop where
  bytes_eq : bytes = index.sectionSlice kind offset (offset + len)
  le : offset + len ≤ (index.header.sections kind).len
  verified : ∀ chunk, index.Touches offset len chunk → index.ChunkVerified kind chunk

theorem SectionRead.empty {offset : Nat} (hle : offset ≤ (index.header.sections kind).len)
    : index.SectionRead kind offset 0 [] where
  bytes_eq := by
    rw [Nat.add_zero, sectionSlice, Search.slice_self]
  le := hle
  verified := by
    rintro chunk ⟨position, hge, hlt, -⟩
    omega

/-- A read of a section gives the bytes that the file has there. -/
theorem readSectionIntoCached_ensures (hI : index.Invariant I)
    (hpos : 0 < index.header.chunkBytes) (kind : SectionKind) (offset len : Nat)
    : Ensures w I (index.readSectionIntoCached kind offset len)
        (index.SectionRead kind offset len)
        (index.ReadError w kind (index.Touches offset len)
          (offset + len ≤ (index.header.sections kind).len)) := by
  unfold readSectionIntoCached
  dsimp only
  apply ensures_checkedAdd_bind
  . intro h
    apply ReadError.invalidLayout
    rintro ⟨hformed, hle⟩
    have := hformed.sections kind
    have := hformed.len_lt
    omega
  intro _
  apply ensures_failIf_bind
  . intro h
    exact .invalidLayout (by omega)
  intro hle
  split
  . next hzero =>
    subst hzero
    exact .pure (.empty (by omega))
  . next hne =>
    have hfirst := Nat.div_mul_le_self offset index.header.chunkBytes
    have hlast := Nat.div_mul_le_self (offset + len - 1) index.header.chunkBytes
    have hafter := Nat.lt_div_mul_add hpos (a := offset + len - 1)
    have hmono : offset / index.header.chunkBytes ≤ (offset + len - 1) / index.header.chunkBytes :=
      Nat.div_le_div_right (by omega)
    have hoffset := Nat.lt_div_mul_add hpos (a := offset)
    have htouched {chunk : Nat} (h : index.Touches offset len chunk)
        : offset / index.header.chunkBytes ≤ chunk
          ∧ chunk ≤ (offset + len - 1) / index.header.chunkBytes := by
      obtain ⟨position, hge, hlt, rfl⟩ := h
      exact ⟨Nat.div_le_div_right hge, Nat.div_le_div_right (by omega)⟩
    generalize offset / index.header.chunkBytes = first at *
    generalize (offset + len - 1) / index.header.chunkBytes = last at *
    -- What is copied so far ends where the next chunk starts.
    have hinit : min (offset + len) (first * index.header.chunkBytes) ≤ offset := by omega
    apply (Ensures.foldlM_range' (J := fun chunk output =>
      output = index.sectionSlice kind offset
          (min (offset + len) (chunk * index.header.chunkBytes))
        ∧ ∀ before < chunk, index.Touches offset len before → index.ChunkVerified kind before)
      ?step ?init).mono
    . rintro _ ⟨rfl, hverified⟩
      refine ⟨?_, by omega, ?_⟩
      . congr 1
        have hcount : first + (last + 1 - first) = last + 1 := by omega
        rw [hcount, Nat.add_mul, Nat.one_mul]
        omega
      . intro chunk h
        have := htouched h
        exact hverified chunk (by omega) h
    . exact fun e he => he
    case init =>
      refine ⟨?_, ?_⟩
      . rw [sectionSlice, Search.slice_of_le (by omega)]
      . intro before hlt h
        have := htouched h
        omega
    case step =>
      rintro chunk _ hge hlt ⟨rfl, hverified⟩
      have hle : first * index.header.chunkBytes ≤ chunk * index.header.chunkBytes :=
        Nat.mul_le_mul_right _ hge
      have hle' : chunk * index.header.chunkBytes ≤ last * index.header.chunkBytes :=
        Nat.mul_le_mul_right _ (by omega)
      have hnext : index.Touches offset len chunk := by
        refine ⟨max offset (chunk * index.header.chunkBytes), by omega, by omega, ?_⟩
        apply Nat.div_eq_of_lt_le
        . omega
        . rw [Nat.add_mul, Nat.one_mul]
          omega
      apply Ensures.bind
      . apply (@copyChunk_ensures _ _ _ kind hI offset (offset + len) chunk
          (by omega) (by omega)).mono (fun _ h => h)
        intro e he
        cases he with
        | refused h => exact .refused h
        | malformed h he => exact .malformed (fun h' => h ⟨h'.1, trivial⟩) he
        | mismatch htouched hchunk _ =>
          subst htouched
          exact .mismatch hnext hchunk hverified
      rintro _ ⟨rfl, hchunk⟩
      apply Ensures.pure
      refine ⟨?_, ?_⟩
      . rw [Nat.add_mul, Nat.one_mul, Nat.min_eq_right (by omega : chunk * _ ≤ offset + len)]
        by_cases hbefore : chunk * index.header.chunkBytes ≤ offset
        . rw [Nat.max_eq_left hbefore, sectionSlice, Search.slice_of_le (by omega),
            List.nil_append]
        . rw [Nat.max_eq_right (by omega)]
          exact Search.slice_append_slice (by omega) (by omega)
      . intro before hlt h
        rcases Nat.lt_succ_iff_lt_or_eq.mp hlt with hlt | rfl
        . exact hverified before hlt h
        . exact hchunk

theorem readSection_ensures (hI : index.Invariant I) (hpos : 0 < index.header.chunkBytes)
    (kind : SectionKind) (offset len : Nat)
    : Ensures w I (index.readSection kind offset len)
        (index.SectionRead kind offset len)
        (index.ReadError w kind (index.Touches offset len)
          (offset + len ≤ (index.header.sections kind).len)) := by
  unfold readSection
  dsimp only
  apply ensures_checkedAdd_bind
  . intro h
    apply ReadError.invalidLayout
    rintro ⟨hformed, hle⟩
    have := hformed.sections kind
    have := hformed.len_lt
    omega
  intro _
  apply ensures_failIf_bind
  . intro h
    exact .invalidLayout (by omega)
  intro hle
  apply Ensures.bind ((reserve_refused hI.events _ _).mono (fun _ h => h) fun _ he => .refused he)
  intro _ _
  split
  . next hzero =>
    subst hzero
    exact .pure (.empty (by omega))
  . exact readSectionIntoCached_ensures hI hpos kind offset len

/-! ## Reading rows -/

theorem numberAt_lt {kind : SectionKind} {width position : Nat}
    : index.numberAt kind width position < 256 ^ width := by
  have h := Bytes.toLE_lt (index.sectionSlice kind (position * width) (position * width + width))
  apply Nat.lt_of_lt_of_le h
  apply Nat.pow_le_pow_right (by decide)
  rw [sectionSlice, Search.slice, List.length_take]
  omega

/-- What a read of a number gives, from verified chunks. -/
structure NumberRead (index : PersistentKeyIndex) (kind : SectionKind) (width position number : Nat)
    : Prop where
  number_eq : number = index.numberAt kind width position
  verified : ∀ chunk, index.Touches (position * width) width chunk → index.ChunkVerified kind chunk

/-- The three numeric sections are read alike. -/
theorem readNumber_reads (hI : index.Invariant I) (hpos : 0 < index.header.chunkBytes)
    (kind : SectionKind) {width position : Nat} {context : String}
    : Ensures w I
        (do
          let offset ← okOr (checkedMul position width) (invalidLayout context)
          let bytes ← index.readSectionIntoCached kind offset width
          return Bytes.toLE bytes : Exec Nat)
        (index.NumberRead kind width position)
        (index.ReadError w kind (index.Touches (position * width) width)
          (position * width + width ≤ (index.header.sections kind).len)) := by
  apply ensures_checkedMul_bind
  . intro h
    apply ReadError.invalidLayout
    rintro ⟨hformed, hle⟩
    have := hformed.sections kind
    have := hformed.len_lt
    omega
  intro _
  apply Ensures.bind (readSectionIntoCached_ensures hI hpos kind _ _)
  rintro _ ⟨rfl, -, hverified⟩
  exact .pure ⟨rfl, hverified⟩

theorem boundAt_reads (hI : index.Invariant I) (hpos : 0 < index.header.chunkBytes)
    (position : Nat)
    : Ensures w I (index.boundAt position)
        (fun bound => index.NumberRead .bounds 8 position bound ∧ position ≤ index.len)
        (index.ReadError w .bounds (index.Touches (position * 8) 8)
          (index.Complete ∧ position ≤ index.len)) := by
  unfold boundAt
  apply ensures_failIf_bind
  . intro h
    exact .invalidLayout (by omega)
  intro hle
  apply (readNumber_reads hI hpos .bounds).mono
  . exact fun _ h => ⟨h, by omega⟩
  . intro e he
    apply he.mono
    rintro _ ⟨hcomplete, hle⟩
    have := hcomplete.bounds
    omega

theorem orderAt_reads (hI : index.Invariant I) (hpos : 0 < index.header.chunkBytes)
    (position : Nat)
    : Ensures w I (index.orderAt position)
        (fun ordinal => index.NumberRead .order 4 position ordinal ∧ position < index.len)
        (index.ReadError w .order (index.Touches (position * 4) 4)
          (index.Complete ∧ position < index.len)) := by
  unfold orderAt
  apply ensures_failIf_bind
  . intro h
    exact .invalidLayout (by omega)
  intro hlt
  apply (readNumber_reads hI hpos .order).mono
  . exact fun _ h => ⟨h, by omega⟩
  . intro e he
    apply he.mono
    rintro _ ⟨hcomplete, hlt⟩
    have := hcomplete.order
    omega

theorem rawDigestAt_reads (hI : index.Invariant I) (hpos : 0 < index.header.chunkBytes)
    (ordinal : Nat)
    : Ensures w I (index.rawDigestAt ordinal)
        (fun digest => index.NumberRead .raw 4 ordinal digest ∧ ordinal < index.len)
        (index.ReadError w .raw (index.Touches (ordinal * 4) 4)
          (index.Complete ∧ ordinal < index.len)) := by
  unfold rawDigestAt
  apply ensures_failIf_bind
  . intro h
    exact .invalidLayout (by omega)
  intro hlt
  apply (readNumber_reads hI hpos .raw).mono
  . exact fun _ h => ⟨h, by omega⟩
  . intro e he
    apply he.mono
    rintro _ ⟨hcomplete, hlt⟩
    have := hcomplete.raw
    omega

theorem boundAt_ensures (hI : index.Invariant I) (hpos : 0 < index.header.chunkBytes)
    (position : Nat)
    : Ensures w I (index.boundAt position)
        (fun bound => bound = index.boundOf position ∧ position ≤ index.len)
        (index.ReadFails w (index.Complete ∧ position ≤ index.len)) := by
  apply (boundAt_reads hI hpos position).mono (fun _ h => ⟨h.1.number_eq, h.2⟩)
  intro e he
  apply he.fails
  rintro ⟨hcomplete, hle⟩ chunk h
  have := hcomplete.bounds
  exact h.lt (by omega)

theorem orderAt_ensures (hI : index.Invariant I) (hpos : 0 < index.header.chunkBytes)
    (position : Nat)
    : Ensures w I (index.orderAt position)
        (fun ordinal => ordinal = index.orderOf position ∧ position < index.len)
        (index.ReadFails w (index.Complete ∧ position < index.len)) := by
  apply (orderAt_reads hI hpos position).mono (fun _ h => ⟨h.1.number_eq, h.2⟩)
  intro e he
  apply he.fails
  rintro ⟨hcomplete, hlt⟩ chunk h
  have := hcomplete.order
  exact h.lt (by omega)

theorem rawDigestAt_ensures (hI : index.Invariant I) (hpos : 0 < index.header.chunkBytes)
    (ordinal : Nat)
    : Ensures w I (index.rawDigestAt ordinal)
        (fun digest => digest = index.digestOf ordinal ∧ ordinal < index.len)
        (index.ReadFails w (index.Complete ∧ ordinal < index.len)) := by
  apply (rawDigestAt_reads hI hpos ordinal).mono (fun _ h => ⟨h.1.number_eq, h.2⟩)
  intro e he
  apply he.fails
  rintro ⟨hcomplete, hlt⟩ chunk h
  have := hcomplete.raw
  exact h.lt (by omega)

theorem rowText_ensures (hI : index.Invariant I) (hpos : 0 < index.header.chunkBytes)
    (ordinal : Nat)
    : Ensures w I (index.rowText ordinal)
        (fun text => text = index.textOf ordinal ∧ ordinal < index.len
          ∧ index.Short ordinal)
        (index.ReadFails w (index.Complete ∧ index.RowFits ordinal)) := by
  unfold rowText
  apply ensures_failIf_bind
  . intro h
    right
    rintro ⟨-, -, hfits⟩
    have := hfits.lt
    omega
  intro hlt
  apply Ensures.bind
  . apply (boundAt_ensures hI hpos ordinal).mono (fun _ h => h)
    exact fun e he => he.mono fun h => ⟨h.1, by have := h.2.lt; omega⟩
  rintro _ ⟨rfl, -⟩
  apply Ensures.bind
  . apply (boundAt_ensures hI hpos (ordinal + 1)).mono (fun _ h => h)
    exact fun e he => he.mono fun h => ⟨h.1, by have := h.2.lt; omega⟩
  rintro _ ⟨rfl, -⟩
  apply ensures_checkedSub_bind
  . intro h
    right
    rintro ⟨-, -, hfits⟩
    have := hfits.le
    omega
  intro hle
  apply ensures_failIf_bind
  . intro h
    right
    rintro ⟨-, -, hfits⟩
    have := hfits.stop
    omega
  intro _
  apply ensures_checkedUsize_bind
  . intro h
    have := @numberAt_lt index .bounds 8 (ordinal + 1)
    rw [u64Bound, boundOf] at h
    omega
  intro _
  apply ensures_failIf_bind
  . exact fun hlong => .inl (.inr ⟨rfl, ordinal, by omega, Nat.not_le.mpr hlong⟩)
  intro hshort
  apply Ensures.bind
  . apply (readSection_ensures hI hpos .text _ _).mono (fun _ h => h)
    intro e he
    apply (he.fails fun hle _ h => h.lt hle).mono
    rintro ⟨-, hfits⟩
    have := hfits.stop
    omega
  rintro _ ⟨rfl, -, -⟩
  rw [Nat.add_sub_cancel' hle]
  apply ensures_failIf_bind
  . intro h
    right
    rintro ⟨-, -, hfits⟩
    exact hfits.utf8 h
  intro _
  exact .pure ⟨rfl, by omega, Nat.le_of_not_gt hshort⟩

end PersistentKeyIndex

end Mdict
