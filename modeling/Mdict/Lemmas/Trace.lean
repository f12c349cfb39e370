import Mdict.Core.Records
import Mdict.Lemmas.Layout
import Mdict.Lib.Trace

/-!
This module contains which reads of the dictionary and which output buffers there are on record:
what they are limited by, and that every read has been charged to the memory budget.
-/

namespace Mdict

open Effect

/-- Whether an event is a charge to the memory budget. -/
def Event.isReserve : Event → Bool
  | .reserve .. => true
  | _ => false

/-- The lengths that the limits allow for a read of each kind. -/
inductive ReadWithin (limits : Limits) : (context : String) → (len : Nat) → Prop where
  | headerLength : ReadWithin limits "header length" 4
  | header {len : Nat} (h : len ≤ limits.headerXmlBytes + 8)
      : ReadWithin limits "header section" len
  | keywordHeaderV1 : ReadWithin limits "keyword section header" 16
  | keywordHeaderV2 : ReadWithin limits "keyword section header" 44
  | keywordIndexV1 {len : Nat} (h : len ≤ limits.keyIndexBytes)
      : ReadWithin limits "keyword index" len
  | keywordIndexV2 {len : Nat} (h : len ≤ limits.keyIndexBytes)
      : ReadWithin limits "keyword index block" len
  | recordHeaderV1 : ReadWithin limits "record section header" 16
  | recordHeaderV2 : ReadWithin limits "record section header" 32
  | recordIndex {len : Nat} (h : len ≤ limits.recordIndexBytes)
      : ReadWithin limits "record block index" len
  | keyBlock {len : Nat} (h : len ≤ limits.compressedBlockBytes) : ReadWithin limits "key block" len
  | recordBlock {len : Nat} (h : len ≤ limits.compressedBlockBytes)
      : ReadWithin limits "record block" len

/-- The latest events are charges, one of them of `len` bytes at least. -/
def Charged (events : List Event) (len : Nat) : Prop :=
  ∃ bytes context, len ≤ bytes ∧ .reserve bytes context ∈ events.takeWhile Event.isReserve

/--
A read lies in the file, is limited and has just been charged; and an output buffer is limited.
-/
def Lawful (fileLen : Nat) (limits : Limits) (events : List Event) : Event → Prop
  | .read offset len context =>
    offset + len ≤ fileLen ∧ ReadWithin limits context len ∧ Charged events len
  | .decode len _ => len ≤ limits.decompressedBlockBytes
  | _ => True

/-- A program that puts only lawful events on record. -/
abbrev Logged {α : Type} (fileLen : Nat) (limits : Limits) (x : Exec α) : Prop :=
  Traced Session.events (Lawful fileLen limits) x

/-- A program that does so when `len` bytes have just been charged. -/
def LoggedAfter {α : Type} (fileLen : Nat) (limits : Limits) (len : Nat) (x : Exec α) : Prop :=
  ∀ w s, Charged s.events len →
    Extends (Lawful fileLen limits) s.events (x w s).2.events

/-- A charge is put on record, whether or not it is granted. -/
theorem reserve_snd (bytes : Nat) (context : String) (w : World) (s : Session)
    : (Exec.reserve bytes context w s).2 = s.log (.reserve bytes context) := by
  unfold Exec.reserve Exec.log
  simp only [Prog.modify_bind_apply, Prog.bind_of_ok (Prog.ask_apply w _), Prog.get_bind_apply]
  cases w.refusal (s.log (.reserve bytes context)).events with
  | none => rfl
  | some refused => rfl

variable {α β : Type} {fileLen : Nat} {limits : Limits} {x : Exec α} {f : α → Exec β}
variable {ok : List Event → Event → Prop}

theorem reserve_traced {bytes : Nat} {context : String}
    (h : ∀ record, ok record (.reserve bytes context))
    : Traced Session.events ok (Exec.reserve bytes context) := by
  intro w s
  rw [reserve_snd]
  exact .entry .refl (h _)

theorem platform_traced : Traced Session.events ok Exec.platform :=
  fun _ _ => .refl

theorem io_traced : Traced Session.events ok Exec.io := by
  intro w s
  unfold Exec.io
  simp only [Prog.bind_of_ok (Prog.ask_apply w s), Prog.get_bind_apply]
  cases w.ioFault s.events with
  | true => exact .refl
  | false => exact .refl

namespace Logged

theorem reserve {bytes : Nat} {context : String}
    : Logged fileLen limits (Exec.reserve bytes context) :=
  reserve_traced fun _ => trivial

theorem platform : Logged fileLen limits Exec.platform := platform_traced

theorem io : Logged fileLen limits Exec.io := io_traced

theorem logDecode {len : Nat} {context : String} (h : len ≤ limits.decompressedBlockBytes)
    : Logged fileLen limits (Exec.log (.decode len context)) :=
  fun _ _ => .entry .refl h

theorem capture {error : Error} : Logged fileLen limits (CachedFailureKind.capture error) := by
  cases error with
  | limitExceeded limit value max =>
    exact .ite (fun _ => .pure) fun _ => .pure
  | invalidData context =>
    apply Traced.bind (Traced.attempt reserve)
    intro reserved
    cases reserved with
    | ok => exact .pure
    | error => exact .pure
  | _ => exact .pure

/-- The rest of a program after a charge may read as much as was charged. -/
theorem reserve_bind {len bytes : Nat} {context : String} {f : Unit → Exec β} (hlen : len ≤ bytes)
    (hf : LoggedAfter fileLen limits len (f ()))
    : Logged fileLen limits (Exec.reserve bytes context >>= f) := by
  intro w s
  have hsnd := reserve_snd bytes context w s
  cases hrun : Exec.reserve bytes context w s with
  | mk r s' =>
    rw [hrun] at hsnd
    dsimp only at hsnd
    subst hsnd
    have hlog : Extends (Lawful fileLen limits) s.events
        (s.log (.reserve bytes context)).events := .entry .refl trivial
    cases r with
    | error e =>
      rw [Prog.bind_of_error hrun]
      exact hlog
    | ok u =>
      rw [Prog.bind_of_ok hrun]
      exact hlog.trans (hf w _ ⟨bytes, context, hlen, List.mem_cons_self⟩)

end Logged

namespace LoggedAfter

variable {len : Nat}

/-- Another charge does not undo the first. -/
theorem reserve_bind {bytes : Nat} {context : String} {f : Unit → Exec β}
    (hf : LoggedAfter fileLen limits len (f ()))
    : LoggedAfter fileLen limits len (Exec.reserve bytes context >>= f) := by
  intro w s ⟨charged, purpose, hlen, hmem⟩
  have hsnd := reserve_snd bytes context w s
  cases hrun : Exec.reserve bytes context w s with
  | mk r s' =>
    rw [hrun] at hsnd
    dsimp only at hsnd
    subst hsnd
    have hlog : Extends (Lawful fileLen limits) s.events
        (s.log (.reserve bytes context)).events := .entry .refl trivial
    cases r with
    | error e =>
      rw [Prog.bind_of_error hrun]
      exact hlog
    | ok u =>
      rw [Prog.bind_of_ok hrun]
      exact hlog.trans (hf w _ ⟨charged, purpose, hlen, List.mem_cons_of_mem _ hmem⟩)

theorem liftM_bind {r : Except Error α} (hf : ∀ a, r = .ok a → LoggedAfter fileLen limits len (f a))
    : LoggedAfter fileLen limits len ((MonadLiftT.monadLift r : Exec α) >>= f) := by
  intro w s hcharged
  cases r with
  | error e => exact .refl
  | ok a => exact hf a rfl w s hcharged

/-- A read of what has been charged. -/
theorem read_bind {source : FileSource} {offset readLen : Nat} {context : String}
    {f : Bytes → Exec β} (hfile : source.len = fileLen) (hlen : readLen ≤ len)
    (hwithin : ReadWithin limits context readLen) (hf : ∀ bytes, Logged fileLen limits (f bytes))
    : LoggedAfter fileLen limits len (source.readExactAt offset readLen context >>= f) := by
  intro w s ⟨charged, purpose, hcharged, hmem⟩
  unfold FileSource.readExactAt
  cases hrange : source.ensureRange offset readLen context with
  | error e => exact .refl
  | ok u =>
    have hlawful : Lawful fileLen limits s.events (.read offset readLen context) :=
      ⟨hfile ▸ (ensureRange_eq_ok hrange).1, hwithin, charged, purpose, Nat.le_trans hlen hcharged,
        hmem⟩
    have hlog : Extends (Lawful fileLen limits) s.events
        (s.log (.read offset readLen context)).events := .entry .refl hlawful
    refine hlog.trans ?_
    exact Traced.bind (Traced.bind Logged.io fun _ => Traced.pure) hf w _

end LoggedAfter

/-! ## Sections -/

namespace Logged

variable {context : String} {source : FileSource} {options : OpenOptions}

theorem decodeBlock {block : Bytes} {expected : Nat} {checksumPolicy : ChecksumPolicy}
    : Logged fileLen limits (decodeBlock context block expected limits checksumPolicy) := by
  refine .liftM_bind fun _ _ => .liftM_bind fun _ _ => .liftM_bind fun _ hlimit => ?_
  have hlimit := ensureLimit_eq_ok.mp hlimit
  refine .liftM_bind fun compType _ => .bind platform fun p => .bind ?_ fun decoded => ?_
  . cases compType with
    | none =>
      refine .liftM_bind fun _ hlen => ?_
      rw [failIf_eq_ok, not_not] at hlen
      exact .bind (logDecode (hlen ▸ hlimit)) fun _ => .pure
    | zlib =>
      refine .bind (logDecode hlimit) fun _ => ?_
      exact .liftM_bind fun _ _ => .liftM_bind fun _ _ => .liftM_bind fun _ _ => .pure
    | lzo =>
      unfold decodePayload decodeLzoBlock
      dsimp only
      cases p.lzo with
      | none => exact .fail
      | some decompress =>
        refine .bind (logDecode hlimit) fun _ => .liftM_bind fun _ _ => ?_
        exact .liftM_bind fun _ _ => .pure
  . exact .liftM_bind fun _ _ => .liftM_bind fun _ _ => .pure

theorem parseHeaderBytesWithLimits {bytes : Bytes} {kind : ContainerKind}
    {checksumPolicy : ChecksumPolicy}
    : Logged fileLen limits (parseHeaderBytesWithLimits bytes kind limits checksumPolicy) := by
  refine .liftM_bind fun _ _ => .liftM_bind fun _ _ => .liftM_bind fun _ _ => ?_
  refine .liftM_bind fun _ _ => .liftM_bind fun _ _ => .bind reserve fun _ => ?_
  refine .liftM_bind fun _ _ => .liftM_bind fun _ _ => .liftM_bind fun _ _ => ?_
  refine .bind platform fun _ => .liftM_bind fun _ _ => .liftM_bind fun _ _ => ?_
  exact .liftM

theorem parseHeader {kind : ContainerKind} {checksumPolicy : ChecksumPolicy}
    : Logged source.len limits (parseHeader source kind limits checksumPolicy) := by
  refine reserve_bind (Nat.le_refl 4) ?_
  refine .read_bind rfl (Nat.le_refl 4) .headerLength fun lenBytes => ?_
  refine .liftM_bind fun ⟨xmlLen, _⟩ _ => .liftM_bind fun _ hlimit => .liftM_bind fun _ _ => ?_
  refine .liftM_bind fun totalLen htotal => .liftM_bind fun _ _ => .liftM_bind fun len hlen => ?_
  have hlimit := ensureLimit_eq_ok.mp hlimit
  simp only [okOr_eq_ok, Option.bind_eq_some_iff, checkedAdd_eq_some] at htotal
  obtain ⟨_, ⟨rfl, -⟩, rfl, -⟩ := htotal
  obtain ⟨rfl, -⟩ := checkedUsize_eq_ok.mp hlen
  refine reserve_bind (Nat.le_refl _) ?_
  exact .read_bind rfl (Nat.le_refl _) (.header (by omega)) fun _ => parseHeaderBytesWithLimits

theorem parseKeywordSectionV1 {header : Header} {keyEncoding : TextEncoding} {offset : Nat}
    : Logged source.len options.limits
        (V1.parseKeywordSection source header keyEncoding offset options) := by
  refine .liftM_bind fun _ _ => .liftM_bind fun len hlen => ?_
  obtain ⟨rfl, -⟩ := checkedUsize_eq_ok.mp hlen
  refine reserve_bind (Nat.le_refl _) ?_
  refine .read_bind rfl (Nat.le_refl _) .keywordHeaderV1 fun _ => ?_
  refine .liftM_bind fun _ _ => .liftM_bind fun _ _ => ?_
  refine .liftM_bind fun _ _ => .liftM_bind fun _ _ => ?_
  refine .liftM_bind fun _ hlimit => .liftM_bind fun _ _ => ?_
  refine .liftM_bind fun _ _ => .liftM_bind fun _ _ => .liftM_bind fun _ _ => ?_
  refine .liftM_bind fun _ _ => .liftM_bind fun _ _ => .liftM_bind fun len hlen => ?_
  obtain ⟨rfl, -⟩ := checkedUsize_eq_ok.mp hlen
  have hlimit := ensureLimit_eq_ok.mp hlimit
  refine reserve_bind (Nat.le_refl _) ?_
  refine .read_bind rfl (Nat.le_refl _) (.keywordIndexV1 hlimit) fun _ => ?_
  refine .bind platform fun _ => .liftM_bind fun _ _ => .liftM_bind fun _ _ => ?_
  refine .bind reserve fun _ => .liftM_bind fun _ _ => .liftM_bind fun _ _ => ?_
  refine .liftM_bind fun _ _ => .liftM_bind fun _ _ => .liftM_bind fun _ _ => ?_
  exact .bind (.forM fun _ _ => .liftM) fun _ => .pure

theorem parseKeywordSectionV2 {header : Header} {keyEncoding : TextEncoding} {offset : Nat}
    : Logged source.len options.limits
        (V2.parseKeywordSection source header keyEncoding offset options) := by
  refine reserve_bind (Nat.le_refl 44) ?_
  refine .read_bind rfl (Nat.le_refl 44) .keywordHeaderV2 fun _ => ?_
  refine .liftM_bind fun _ _ => .liftM_bind fun _ _ => ?_
  refine .liftM_bind fun _ _ => .liftM_bind fun _ _ => ?_
  refine .liftM_bind fun _ _ => .liftM_bind fun _ _ => .liftM_bind fun _ _ => ?_
  refine .liftM_bind fun _ _ => .liftM_bind fun _ hlimit => .liftM_bind fun _ _ => ?_
  refine .liftM_bind fun _ _ => .liftM_bind fun _ _ => .liftM_bind fun _ _ => ?_
  refine .liftM_bind fun _ _ => .liftM_bind fun _ _ => .liftM_bind fun _ _ => ?_
  refine .liftM_bind fun len hlen => ?_
  obtain ⟨rfl, -⟩ := checkedUsize_eq_ok.mp hlen
  have hlimit := ensureLimit_eq_ok.mp hlimit
  refine reserve_bind (Nat.le_refl _) ?_
  refine .read_bind rfl (Nat.le_refl _) (.keywordIndexV2 hlimit) fun _ => ?_
  refine .liftM_bind fun _ _ => .liftM_bind fun _ _ => .bind reserve fun _ => ?_
  refine .bind platform fun _ => .liftM_bind fun _ _ => .liftM_bind fun _ _ => ?_
  refine .bind reserve fun _ => .bind decodeBlock fun _ => ?_
  refine .liftM_bind fun _ _ => .liftM_bind fun _ _ => .liftM_bind fun _ _ => ?_
  refine .liftM_bind fun _ _ => .liftM_bind fun _ _ => ?_
  exact .bind (.forM fun _ _ => .liftM) fun _ => .pure

theorem parseRecordSectionWith {headerLen rowLen : Nat} {readField : ReadField} {offset : Nat}
    (hheader : ReadWithin limits "record section header" headerLen)
    : Logged source.len limits
        (parseRecordSectionWith headerLen rowLen readField source offset limits) := by
  refine reserve_bind (Nat.le_refl _) ?_
  refine .read_bind rfl (Nat.le_refl _) hheader fun _ => ?_
  refine .liftM_bind fun numBlocks _ => .liftM_bind fun numEntries _ => ?_
  refine .liftM_bind fun indexLen _ => .liftM_bind fun blocksLen _ => ?_
  refine .liftM_bind fun lengths hvalid => ?_
  simp only [validateRecordHeaderWith, except_bind_eq_ok, ensureLimit_eq_ok, checkedUsize_eq_ok,
    except_pure_eq_ok] at hvalid
  obtain ⟨_, -, _, -, _, hlimit, _, ⟨rfl, -⟩, _, -, _, -, _, -, -, rfl⟩ := hvalid
  refine .liftM_bind fun _ _ => .liftM_bind fun _ _ => ?_
  refine .liftM_bind fun _ _ => .liftM_bind fun _ _ => ?_
  refine reserve_bind (Nat.le_refl _) (.liftM_bind fun _ _ => .reserve_bind ?_)
  refine .read_bind rfl (Nat.le_refl _) (.recordIndex hlimit) fun _ => ?_
  refine .liftM_bind fun _ _ => .liftM_bind fun _ _ => .liftM_bind fun _ _ => ?_
  exact .liftM_bind fun _ _ => .liftM_bind fun _ _ => .pure

/-- Opening a file. -/
theorem openLayout {kind : ContainerKind}
    : Logged source.len options.limits (openLayout source kind options) := by
  refine .bind parseHeader fun _ => .liftM_bind fun _ _ => .liftM_bind fun version _ => ?_
  refine .liftM_bind fun _ _ => .liftM_bind fun _ _ => .bind ?_ fun _ => .liftM
  cases version with
  | v1 =>
    refine .bind reserve fun _ => .liftM_bind fun _ _ => .liftM_bind fun _ _ => ?_
    refine .bind parseKeywordSectionV1 fun _ => .bind reserve fun _ => ?_
    refine .bind (parseRecordSectionWith .recordHeaderV1) fun _ => .bind reserve fun _ => ?_
    exact .liftM_bind fun _ _ => .pure
  | v2 =>
    refine .bind reserve fun _ => .liftM_bind fun _ _ => .liftM_bind fun _ _ => ?_
    refine .bind parseKeywordSectionV2 fun _ => .bind reserve fun _ => ?_
    refine .bind (parseRecordSectionWith .recordHeaderV2) fun _ => .bind reserve fun _ => ?_
    exact .liftM_bind fun _ _ => .pure

end Logged

/-! ## Blocks -/

namespace MdictFile

/-- All blocks of the file are within its limits. -/
structure WithinLimits (file : MdictFile) : Prop where
  keyBlocks : ∀ block ∈ file.layout.keyBlocks, block.compSize ≤ file.limits.compressedBlockBytes
  recordBlocks : ∀ block ∈ file.layout.recordBlocks,
    block.compSize ≤ file.limits.compressedBlockBytes

variable {file : MdictFile}

theorem OpenedFrom.source_eq {bytes : Bytes} {options : OpenOptions}
    (h : file.OpenedFrom bytes options)
    : file.source = ⟨bytes⟩ ∧ file.limits = options.limits := by
  obtain ⟨kind, w, s, s', h⟩ := h
  simp only [MdictFile.open, FileSource.open, Prog.bind_eq_ok, liftM_eq_ok, except_bind_eq_ok,
    except_pure_eq_ok, Prog.pure_apply, Prod.mk.injEq, Except.ok.injEq] at h
  obtain ⟨source, _, ⟨⟨_, -, rfl⟩, -⟩, layout, _, -, rfl, -⟩ := h
  exact ⟨rfl, rfl⟩

theorem OpenedFrom.withinLimits {bytes : Bytes} {options : OpenOptions}
    (h : file.OpenedFrom bytes options)
    : file.WithinLimits := by
  have hwell := h.wellFormed
  constructor
  . intro block hblock
    rw [h.source_eq.2]
    exact (hwell.keyBlockSizes block hblock).2.comp
  . intro block hblock
    rw [h.source_eq.2]
    exact (hwell.recordBlockSizes block hblock).comp

theorem boundariesMatch_logged {first last : DecodedKeyRow} {block : KeyBlockDescriptor}
    : Logged fileLen limits (file.boundariesMatch first last block) := by
  have hsummary (key summary : Str) : Logged fileLen limits (file.keySummaryMatches key summary) := by
    refine .bind Logged.platform fun _ => .liftM_bind fun _ _ => .liftM_bind fun _ _ => ?_
    refine .liftM_bind fun _ _ => .bind Logged.reserve fun _ => ?_
    exact .liftM_bind fun _ _ => .liftM_bind fun _ _ => .pure
  exact .bind (hsummary _ _) fun _ => .ite (fun _ => hsummary _ _) fun _ => .pure

theorem decodeKeyBlockUncached_logged (h : file.WithinLimits) (index : Nat)
    : Logged file.source.len file.limits (file.decodeKeyBlockUncached index) := by
  refine .liftM_bind fun block hblock => .liftM_bind fun compSize hcomp => ?_
  obtain ⟨rfl, -⟩ := checkedUsize_eq_ok.mp hcomp
  have hwithin := h.keyBlocks block (List.mem_of_getElem? (okOr_eq_ok.mp hblock))
  refine .liftM_bind fun _ _ => .liftM_bind fun _ _ => .bind Logged.platform fun _ => ?_
  refine .liftM_bind fun _ _ => .liftM_bind fun _ _ => .liftM_bind fun _ _ => ?_
  refine .bind Logged.reserve fun _ => Logged.reserve_bind (Nat.le_refl _) (.reserve_bind ?_)
  refine .read_bind rfl (Nat.le_refl _) (.keyBlock hwithin) fun _ => ?_
  refine .bind Logged.decodeBlock fun _ => .liftM_bind fun _ _ => .liftM_bind fun _ _ => ?_
  refine .liftM_bind fun _ _ => .bind boundariesMatch_logged fun _ => ?_
  exact .liftM_bind fun _ _ => .pure

theorem decodeAndCacheKeyBlock_logged (h : file.WithinLimits) (index : Nat)
    (cache : Option (Nat × CachedValue (List DecodedKeyRow)))
    : Logged file.source.len file.limits (file.decodeAndCacheKeyBlock index cache) := by
  have huncached := decodeKeyBlockUncached_logged h
  have hrows (previous : Nat)
      : Logged file.source.len file.limits (file.previousRows previous cache) := by
    cases cache with
    | none => exact huncached previous
    | some cached =>
      obtain ⟨cachedIndex, value⟩ := cached
      refine .ite (fun _ => ?_) fun _ => huncached previous
      cases value with
      | ready rows => exact .pure
      | failed failure => exact .fail
  have hlast : Logged file.source.len file.limits (file.previousLast index cache) := by
    cases index with
    | zero => exact .pure
    | succ previous => exact .bind (hrows previous) fun _ => .liftM_bind fun _ _ => .pure
  have hmiss : Logged file.source.len file.limits (file.decodeKeyBlockMiss index cache) := by
    refine .liftM_bind fun _ _ => .bind hlast fun _ => .bind (.modify fun _ => rfl) fun _ => ?_
    exact .bind (huncached index) fun _ => .liftM_bind fun _ _ => .pure
  refine .bind (.attempt hmiss) fun result => ?_
  cases result with
  | ok entries => exact .bind (.modify fun _ => rfl) fun _ => .pure
  | error error =>
    refine .bind Logged.capture fun cached => .bind (.modify fun s => ?_) fun _ => .fail
    cases cached <;> rfl

theorem decodeKeyBlock_logged (h : file.WithinLimits) (index : Nat)
    : Logged file.source.len file.limits (file.decodeKeyBlock index) := by
  refine .bind .get fun s => ?_
  cases s.keyBlockCache with
  | none => exact decodeAndCacheKeyBlock_logged h index none
  | some cached =>
    obtain ⟨cachedIndex, value⟩ := cached
    refine .ite (fun _ => ?_) fun _ => decodeAndCacheKeyBlock_logged h index _
    cases value with
    | ready rows => exact .pure
    | failed failure => exact .fail

theorem decodeRecordBlockUncached_logged (h : file.WithinLimits) (index : Nat)
    : Logged file.source.len file.limits (file.decodeRecordBlockUncached index) := by
  refine .liftM_bind fun block hblock => .liftM_bind fun compSize hcomp => ?_
  obtain ⟨rfl, -⟩ := checkedUsize_eq_ok.mp hcomp
  have hwithin := h.recordBlocks block (List.mem_of_getElem? (okOr_eq_ok.mp hblock))
  refine .liftM_bind fun _ _ => .bind Logged.reserve fun _ => ?_
  refine Logged.reserve_bind (Nat.le_refl _) ?_
  exact .read_bind rfl (Nat.le_refl _) (.recordBlock hwithin) fun _ => Logged.decodeBlock

theorem decodeRecordBlock_logged (h : file.WithinLimits) (index : Nat)
    : Logged file.source.len file.limits (file.decodeRecordBlock index) := by
  have hcache : Logged file.source.len file.limits (file.decodeAndCacheRecordBlock index) := by
    refine .bind (.modify fun _ => rfl) fun _ => ?_
    refine .bind (.attempt (decodeRecordBlockUncached_logged h index)) fun result => ?_
    cases result with
    | ok decoded => exact .bind (.modify fun _ => rfl) fun _ => .pure
    | error error =>
      refine .bind Logged.capture fun cached => .bind (.modify fun s => ?_) fun _ => .fail
      cases cached <;> rfl
  refine .bind .get fun s => ?_
  cases s.recordBlockCache with
  | none => exact hcache
  | some cached =>
    obtain ⟨cachedIndex, value⟩ := cached
    refine .ite (fun _ => ?_) fun _ => hcache
    cases value with
    | ready rows => exact .pure
    | failed failure => exact .fail

end MdictFile

end Mdict
