import Mdict.Lemmas.Estimates
import Mdict.Lemmas.KeyRows
import Mdict.Lemmas.Trace

/-!
This module contains that what is retained has been charged to the memory budget before it was
decoded.
-/

namespace Mdict

open Effect

/-- Whether an event is an output buffer for a decoded block. -/
def Event.isDecode : Event → Bool
  | .decode .. => true
  | _ => false

/--
Whatever the program returns has been charged: before any block was decoded for it, the memory
budget has granted as much as `size` says it takes.
-/
def ChargedFor {α : Type} (context : String) (size : α → Nat) (x : Exec α) : Prop :=
  ∀ w s a s', x w s = (.ok a, s') →
    ∃ later bytes earlier, s'.events = later ++ .reserve bytes context :: (earlier ++ s.events)
      ∧ w.refusal (.reserve bytes context :: (earlier ++ s.events)) = none
      ∧ size a ≤ bytes ∧ ∀ e ∈ earlier, e.isDecode = false

variable {α β : Type} {context : String} {taken : β → Nat} {x : Exec α} {f : α → Exec β}

/-- A program that decodes no block. -/
abbrev Undecoded (x : Exec α) : Prop :=
  Traced Session.events (fun _ e => e.isDecode = false) x

theorem Undecoded.reserve {bytes : Nat} : Undecoded (Exec.reserve bytes context) :=
  reserve_traced fun _ => rfl

theorem Undecoded.readExactAt {source : FileSource} {offset len : Nat}
    : Undecoded (source.readExactAt offset len context) := by
  refine .liftM_bind fun _ _ => .bind (fun _ _ => .entry .refl rfl) fun _ => ?_
  exact .bind io_traced fun _ => .pure

theorem length_of_readExactAt {source : FileSource} {offset len : Nat} {bytes : Bytes} {w : World}
    {s s' : Session} (h : source.readExactAt offset len context w s = (.ok bytes, s'))
    : bytes.length = len := by
  simp only [FileSource.readExactAt, Prog.bind_eq_ok, liftM_eq_ok, Prog.pure_apply,
    Prod.mk.injEq, Except.ok.injEq] at h
  obtain ⟨_, _, ⟨hrange, -⟩, _, _, -, _, _, -, rfl, -⟩ := h
  have hle := (ensureRange_eq_ok hrange).1
  rw [FileSource.len] at hle
  rw [List.length_take, List.length_drop]
  omega

/-- A charge that is granted. -/
theorem reserve_eq_ok {bytes : Nat} {w : World} {s s' : Session} {u : Unit}
    (h : Exec.reserve bytes context w s = (.ok u, s'))
    : s' = s.log (.reserve bytes context)
        ∧ w.refusal (.reserve bytes context :: s.events) = none := by
  have hsnd := reserve_snd bytes context w s
  rw [h] at hsnd
  refine ⟨hsnd, ?_⟩
  unfold Exec.reserve Exec.log at h
  simp only [Prog.modify_bind_apply, Prog.bind_of_ok (Prog.ask_apply w _),
    Prog.get_bind_apply] at h
  cases hrefusal : w.refusal (s.log (.reserve bytes context)).events with
  | none => exact hrefusal
  | some refused =>
    rw [hrefusal] at h
    exact nomatch congrArg Prod.fst h

namespace ChargedFor

/-- First something that decodes no block. -/
theorem bind_of (hx : Undecoded x)
    (hf : ∀ a, (∃ w s s', x w s = (.ok a, s')) → ChargedFor context taken (f a))
    : ChargedFor context taken (x >>= f) := by
  intro w s b s'' h
  rw [Prog.bind_eq_ok] at h
  obtain ⟨a, s', hrun, h⟩ := h
  obtain ⟨later, bytes, earlier, hevents, hgranted, hsize, hearlier⟩ := hf a ⟨w, s, s', hrun⟩ w s' b s'' h
  have hadded := hx w s
  rw [hrun] at hadded
  obtain ⟨added, hs', hadded⟩ := hadded.entries
  dsimp only at hs'
  rw [hs', ← List.append_assoc] at hevents hgranted
  refine ⟨later, bytes, earlier ++ added, hevents, hgranted, hsize, ?_⟩
  intro e he
  rw [List.mem_append] at he
  exact he.elim (hearlier e) (hadded e)

theorem liftM_bind {r : Except Error α} (hf : ∀ a, r = .ok a → ChargedFor context taken (f a))
    : ChargedFor context taken ((MonadLiftT.monadLift r : Exec α) >>= f) := by
  apply bind_of .liftM
  rintro a ⟨w, s, s', hrun⟩
  exact hf a (liftM_eq_ok.mp hrun).1

/-- The charge, and then whatever keeps the record. -/
theorem reserve_bind {bytes : Nat} {f : Unit → Exec β}
    (hrest : Traced Session.events (fun _ _ => True) (f ()))
    (hsize : ∀ w s b s', f () w s = (.ok b, s') → taken b ≤ bytes)
    : ChargedFor context taken (Exec.reserve bytes context >>= f) := by
  intro w s b s'' h
  rw [Prog.bind_eq_ok] at h
  obtain ⟨u, s', hrun, h⟩ := h
  obtain ⟨rfl, hgranted⟩ := reserve_eq_ok hrun
  have hsuffix := (hrest w (s.log (.reserve bytes context))).suffix
  rw [h] at hsuffix
  obtain ⟨later, hlater⟩ := hsuffix
  exact ⟨later, bytes, [], hlater.symm, hgranted, hsize w _ b s'' h, by simp⟩

end ChargedFor

/-! ## Keyword sections -/

theorem length_of_parseKeyIndexRows {readRow : Cursor → Except Error (KeyIndexRow × Cursor)}
    {validate : (entryCount compSize decompSize : Nat) → Except Error Unit}
    {numBlocks compOffset entryStartIndex : Nat} {cursor cursor' : Cursor}
    {blocks : List KeyBlockDescriptor}
    (h : parseKeyIndexRows readRow validate numBlocks compOffset entryStartIndex cursor
      = .ok (blocks, cursor'))
    : blocks.length = numBlocks := by
  induction numBlocks generalizing compOffset entryStartIndex cursor blocks with
  | zero =>
    cases h
    rfl
  | succ numBlocks ih =>
    simp only [parseKeyIndexRows, except_bind_eq_ok, except_pure_eq_ok, Prod.mk.injEq] at h
    obtain ⟨_, -, _, -, _, -, _, -, ⟨rest, _⟩, hrest, rfl, rfl⟩ := h
    rw [List.length_cons, ih hrest]

theorem length_of_parseKeywordIndexEntriesWith {minimumRowLen : Nat} {rowLenContext : String}
    {readRow : Cursor → Except Error (KeyIndexRow × Cursor)}
    {validate : (entryCount compSize decompSize : Nat) → Except Error Unit} {bytes : Bytes}
    {numBlocks keyBlocksOffset : Nat} {blocks : List KeyBlockDescriptor}
    (h : parseKeywordIndexEntriesWith minimumRowLen rowLenContext readRow validate bytes numBlocks
      keyBlocksOffset = .ok blocks)
    : blocks.length = numBlocks := by
  simp only [parseKeywordIndexEntriesWith, except_bind_eq_ok, except_pure_eq_ok] at h
  obtain ⟨_, -, _, -, ⟨⟩, -, ⟨blocks', cursor⟩, hrows, ⟨⟩, -, rfl⟩ := h
  exact length_of_parseKeyIndexRows hrows

/-- What the blocks of a keyword section take: their descriptors and the texts of the summaries. -/
def KeywordSection.size (keys : KeywordSection) : Nat :=
  summaryBytes keys.blocks + keys.blocks.length * sizeOfKeyBlockDescriptor

variable {encoding : UnicodeEncoding} {source : FileSource} {header : Header} {offset : Nat}
variable {options : OpenOptions}

theorem V1.parseKeywordSection_charged
    : ChargedFor "keyword block metadata" KeywordSection.size
        (V1.parseKeywordSection source header encoding.text offset options) := by
  refine .liftM_bind fun _ _ => .liftM_bind fun _ _ => .bind_of .reserve fun _ _ => ?_
  refine .bind_of .readExactAt fun _ _ => ?_
  refine .liftM_bind fun _ _ => .liftM_bind fun _ _ => ?_
  refine .liftM_bind fun _ _ => .liftM_bind fun _ _ => ?_
  refine .liftM_bind fun _ _ => .liftM_bind fun numBlocks _ => ?_
  refine .liftM_bind fun _ _ => .liftM_bind fun _ _ => .liftM_bind fun _ _ => ?_
  refine .liftM_bind fun _ _ => .liftM_bind fun _ _ => .liftM_bind fun len _ => ?_
  refine .bind_of .reserve fun _ _ => .bind_of .readExactAt fun keyInfo ⟨_, _, _, hread⟩ => ?_
  refine .bind_of platform_traced fun p _ => .liftM_bind fun max hmax => ?_
  refine .liftM_bind fun retainedBytes hretained => ?_
  simp only [okOr_eq_ok, Option.bind_eq_some_iff, checkedMul_eq_some, checkedAdd_eq_some]
    at hretained
  obtain ⟨_, ⟨rfl, -⟩, rfl, -⟩ := hretained
  refine .reserve_bind ?_ ?_
  . refine .liftM_bind fun _ _ => .liftM_bind fun _ _ => .liftM_bind fun _ _ => ?_
    refine .liftM_bind fun _ _ => .liftM_bind fun _ _ => ?_
    exact .bind (.forM fun _ _ => .liftM) fun _ => .pure
  . intro w s keys s' h
    simp only [Prog.bind_eq_ok, liftM_eq_ok] at h
    obtain ⟨blocks, _, ⟨hblocks, -⟩, _, _, -, _, _, -, _, _, -, _, _, -, _, _, -, h⟩ := h
    rw [Prog.pure_apply, Prod.mk.injEq, Except.ok.injEq] at h
    obtain ⟨rfl, -⟩ := h
    have hlen := length_of_parseKeywordIndexEntriesWith hblocks
    rw [← length_of_readExactAt hread] at hmax
    have hsummary := V1.summaryBytes_le hblocks hmax
    unfold KeywordSection.size
    dsimp only
    rw [hlen]
    omega

theorem V2.parseKeywordSection_charged
    : ChargedFor "keyword block metadata" KeywordSection.size
        (V2.parseKeywordSection source header encoding.text offset options) := by
  refine .bind_of .reserve fun _ _ => .bind_of .readExactAt fun _ _ => ?_
  refine .liftM_bind fun _ _ => .liftM_bind fun layout _ => ?_
  refine .liftM_bind fun _ _ => .liftM_bind fun _ _ => ?_
  refine .liftM_bind fun _ _ => .liftM_bind fun _ _ => .liftM_bind fun _ _ => ?_
  refine .liftM_bind fun _ _ => .liftM_bind fun _ _ => .liftM_bind fun _ _ => ?_
  refine .liftM_bind fun numBlocks _ => .liftM_bind fun _ _ => .liftM_bind fun _ _ => ?_
  refine .liftM_bind fun _ _ => .liftM_bind fun _ _ => .liftM_bind fun _ _ => ?_
  refine .liftM_bind fun _ _ => .bind_of .reserve fun _ _ => .bind_of .readExactAt fun _ _ => ?_
  refine .liftM_bind fun _ _ => .liftM_bind fun len _ => .bind_of .reserve fun _ _ => ?_
  refine .bind_of platform_traced fun p _ => .liftM_bind fun max hmax => ?_
  refine .liftM_bind fun retainedBytes hretained => ?_
  simp only [okOr_eq_ok, Option.bind_eq_some_iff, checkedMul_eq_some, checkedAdd_eq_some]
    at hretained
  obtain ⟨_, ⟨rfl, -⟩, rfl, -⟩ := hretained
  refine .reserve_bind ?_ ?_
  . have hdecode {block : Bytes} := @Logged.decodeBlock 0 options.limits "keyword index block"
      block len options.checksumPolicy
    refine .bind (hdecode.mono fun _ _ _ => trivial) fun _ => .liftM_bind fun _ _ => ?_
    refine .liftM_bind fun _ _ => .liftM_bind fun _ _ => .liftM_bind fun _ _ => ?_
    refine .liftM_bind fun _ _ => .bind (.forM fun _ _ => .liftM) fun _ => .pure
  . intro w s keys s' h
    simp only [Prog.bind_eq_ok, liftM_eq_ok] at h
    obtain ⟨decoded, _, hdecoded, blocks, _, ⟨hblocks, -⟩, h⟩ := h
    obtain ⟨_, _, -, _, _, -, _, _, -, _, _, -, _, _, -, h⟩ := h
    rw [Prog.pure_apply, Prod.mk.injEq, Except.ok.injEq] at h
    obtain ⟨rfl, -⟩ := h
    rw [← length_of_decodeBlock hdecoded] at hmax
    have hsummary := V2.summaryBytes_le hblocks hmax
    simp only [V2.parseKeywordIndexEntries, except_bind_eq_ok] at hblocks
    obtain ⟨_, -, hblocks⟩ := hblocks
    have hlen := length_of_parseKeywordIndexEntriesWith hblocks
    unfold KeywordSection.size
    dsimp only
    rw [hlen]
    omega

/-! ## Key blocks -/

/-- What the rows of a key block take. -/
def DecodedKeyRow.size (rows : List DecodedKeyRow) : Nat :=
  keyBytes rows + rows.length * sizeOfDecodedKeyRow

namespace MdictFile

variable {file : MdictFile}

theorem decodeKeyBlockUncached_charged (hencoding : file.layout.keyEncoding = encoding.text)
    (index : Nat)
    : ChargedFor "decoded key block" DecodedKeyRow.size (file.decodeKeyBlockUncached index) := by
  refine .liftM_bind fun block hblock => .liftM_bind fun compSize hcomp => ?_
  refine .liftM_bind fun decompSize _ => .liftM_bind fun entryCount hcount => ?_
  obtain ⟨rfl, -⟩ := checkedUsize_eq_ok.mp hcount
  refine .bind_of platform_traced fun p _ => .liftM_bind fun max hmax => ?_
  rw [hencoding] at hmax
  refine .liftM_bind fun _ hmetadata => .liftM_bind fun retainedBytes hretained => ?_
  simp only [okOr_eq_ok, checkedMul_eq_some, checkedAdd_eq_some] at hmetadata hretained
  obtain ⟨rfl, -⟩ := hmetadata
  obtain ⟨rfl, -⟩ := hretained
  refine .reserve_bind ?_ ?_
  . have hread := @Undecoded.readExactAt "key block" file.source block.compOffset compSize
    have hdecode {bytes : Bytes} := @Logged.decodeBlock 0 file.limits "key block" bytes decompSize
      file.checksumPolicy
    have hmatch {first last : DecodedKeyRow} := @boundariesMatch_logged 0 file.limits file first last
      block
    refine .bind (reserve_traced fun _ => trivial) fun _ => ?_
    refine .bind (reserve_traced fun _ => trivial) fun _ => ?_
    refine .bind (hread.mono fun _ _ _ => trivial) fun _ => ?_
    refine .bind (hdecode.mono fun _ _ _ => trivial) fun _ => .liftM_bind fun _ _ => ?_
    refine .liftM_bind fun _ _ => .liftM_bind fun _ _ => ?_
    exact .bind (hmatch.mono fun _ _ _ => trivial) fun _ => .liftM_bind fun _ _ => .pure
  . intro w s rows s' hrun
    simp only [Prog.bind_eq_ok, liftM_eq_ok] at hrun
    obtain ⟨_, _, -, _, _, -, _, _, -, decoded, _, hdecoded, hrun⟩ := hrun
    obtain ⟨rows, _, ⟨hrows, -⟩, _, _, -, _, _, -, _, _, -, _, _, -, hrun⟩ := hrun
    rw [Prog.pure_apply, Prod.mk.injEq, Except.ok.injEq] at hrun
    obtain ⟨rfl, -⟩ := hrun
    rw [← length_of_decodeBlock hdecoded] at hmax
    have hkeys := keyBytes_le hencoding hrows hmax
    have hlen := (decodeKeyRows_eq_ok hrows).1
    unfold DecodedKeyRow.size
    rw [hlen]
    exact Nat.add_le_add_right hkeys _

/-! ## Records -/

/-- A chunk is as long as the traversal advances, which is not past the end of the span. -/
theorem length_of_recordChunk {cursor stop next : Nat} {chunk : Bytes} {w : World} {s s' : Session}
    (h : file.recordChunk cursor stop w s = (.ok (chunk, next), s'))
    : cursor + chunk.length = next ∧ next ≤ stop := by
  simp only [recordChunk, Prog.bind_eq_ok, liftM_eq_ok, okOr_eq_ok, checkedSub_eq_some,
    checkedAdd_eq_some, checkedUsize_eq_ok, failIf_eq_ok, Prog.pure_apply, Prod.mk.injEq,
    Except.ok.injEq] at h
  obtain ⟨_, _, -, block, _, -, decoded, _, -, h⟩ := h
  obtain ⟨_, _, ⟨⟨hcursor, rfl⟩, -⟩, _, _, ⟨⟨rfl, -⟩, -⟩, _, _, ⟨⟨rfl, -⟩, -⟩, h⟩ := h
  obtain ⟨_, _, ⟨⟨hstop, rfl⟩, -⟩, _, _, ⟨⟨rfl, -⟩, -⟩, _, _, ⟨hrange, -⟩, h⟩ := h
  obtain ⟨_, _, ⟨⟨rfl, -⟩, -⟩, ⟨rfl, rfl⟩, -⟩ := h
  rw [List.length_take, List.length_drop]
  omega

theorem length_of_visitRecordSpanFrom {stop cursor : Nat} {acc bytes : Bytes} {w : World}
    {s s' : Session} (hcursor : cursor ≤ stop)
    (h : file.visitRecordSpanFrom stop (fun output chunk => return output ++ chunk) cursor acc w s
      = (.ok bytes, s'))
    : bytes.length = acc.length + (stop - cursor) := by
  induction hn : stop - cursor using Nat.strongRecOn generalizing cursor acc s with
  | ind n ih =>
    unfold visitRecordSpanFrom at h
    split at h
    . rw [Prog.bind_eq_ok] at h
      obtain ⟨⟨chunk, next⟩, s₁, hchunk, h⟩ := h
      obtain ⟨hnext, hstop⟩ := length_of_recordChunk hchunk
      rw [Prog.bind_eq_ok] at h
      obtain ⟨acc', _, hacc, h⟩ := h
      rw [Prog.pure_apply, Prod.mk.injEq, Except.ok.injEq] at hacc
      obtain ⟨rfl, rfl⟩ := hacc
      split at h
      . exact nomatch congrArg Prod.fst h
      . next hprogress =>
        rw [ih (stop - next) (by omega) hstop h rfl, List.length_append]
        omega
    . rw [Prog.pure_apply, Prod.mk.injEq, Except.ok.injEq] at h
      obtain ⟨rfl, -⟩ := h
      omega

theorem length_of_readRecordSpan {start stop : Nat} {bytes : Bytes} {w : World} {s s' : Session}
    (h : file.readRecordSpan start stop w s = (.ok bytes, s'))
    : start + bytes.length = stop := by
  simp only [readRecordSpan, visitRecordSpan, Prog.bind_eq_ok, liftM_eq_ok,
    materializedRecordSpanLen, validateRecordSpan, except_bind_eq_ok, failIf_eq_ok, not_lt] at h
  obtain ⟨_, _, ⟨⟨_, ⟨_, hle, -⟩, -⟩, -⟩, _, _, -, _, _, -, h⟩ := h
  rw [length_of_visitRecordSpanFrom hle h, List.length_nil]
  omega

theorem recordChunk_logged (h : file.WithinLimits) (cursor stop : Nat)
    : Logged file.source.len file.limits (file.recordChunk cursor stop) := by
  refine .liftM_bind fun _ _ => .liftM_bind fun _ _ => ?_
  refine .bind (decodeRecordBlock_logged h _) fun _ => .liftM_bind fun _ _ => ?_
  refine .liftM_bind fun _ _ => .liftM_bind fun _ _ => .liftM_bind fun _ _ => ?_
  exact .liftM_bind fun _ _ => .liftM_bind fun _ _ => .liftM_bind fun _ _ => .pure

theorem visitRecordSpanFrom_logged {γ : Type} {visitor : γ → Bytes → Exec γ}
    (h : file.WithinLimits)
    (hvisitor : ∀ acc chunk, Logged file.source.len file.limits (visitor acc chunk))
    (stop cursor : Nat) (acc : γ)
    : Logged file.source.len file.limits (file.visitRecordSpanFrom stop visitor cursor acc) := by
  induction hn : stop - cursor using Nat.strongRecOn generalizing cursor acc with
  | ind n ih =>
    unfold visitRecordSpanFrom
    refine .ite (fun _ => ?_) fun _ => .pure
    refine .bind (recordChunk_logged h cursor stop) fun ⟨chunk, next⟩ => ?_
    refine .bind (hvisitor acc chunk) fun acc => ?_
    exact .ite (fun _ => .fail) fun _ => ih (stop - next) (by omega) next acc rfl

theorem readRecordSpan_logged (h : file.WithinLimits) (start stop : Nat)
    : Logged file.source.len file.limits (file.readRecordSpan start stop) := by
  refine .liftM_bind fun _ _ => .bind Logged.reserve fun _ => .liftM_bind fun _ _ => ?_
  exact visitRecordSpanFrom_logged h (fun _ _ => .pure) stop start []

theorem readEntry_charged (h : file.WithinLimits)
    (hencoding : file.layout.recordEncoding = some encoding.text)
    (descriptor : RecordDescriptor)
    : ChargedFor "decoded MDX record"
        (fun entry => descriptor.stop - descriptor.start + textBytes entry.text)
        (MdxFile.readEntry ⟨file⟩ descriptor) := by
  simp only [MdxFile.readEntry, reserveDecodedRecordText, bind_assoc]
  refine .liftM_bind fun encodedLen hlen => .liftM_bind fun recordEncoding hrecord => ?_
  rw [recordTextEncoding, hencoding, okOr_some, Except.ok.injEq] at hrecord
  subst hrecord
  refine .liftM_bind fun _ husize => .liftM_bind fun _ _ => ?_
  refine .bind_of platform_traced fun p _ => .liftM_bind fun max hmax => ?_
  refine .liftM_bind fun _ _ => .liftM_bind fun combined hcombined => ?_
  obtain ⟨rfl, -⟩ := checkedUsize_eq_ok.mp husize
  simp only [okOr_eq_ok, checkedSub_eq_some, checkedAdd_eq_some] at hlen hcombined
  obtain ⟨-, rfl⟩ := hlen
  obtain ⟨rfl, -⟩ := hcombined
  refine .reserve_bind ?_ ?_
  . have hread := readRecordSpan_logged h descriptor.start descriptor.stop
    refine .bind (hread.mono fun _ _ _ => trivial) fun _ => .bind platform_traced fun _ => ?_
    exact .liftM_bind fun _ _ => .liftM_bind fun _ _ => .pure
  . intro w s entry s' hrun
    simp only [Prog.bind_eq_ok, liftM_eq_ok] at hrun
    obtain ⟨bytes, _, hbytes, _, _, -, _, _, ⟨hrecord, -⟩, text, _, ⟨htext, -⟩, hrun⟩ := hrun
    rw [Prog.pure_apply, Prod.mk.injEq, Except.ok.injEq] at hrun
    obtain ⟨rfl, -⟩ := hrun
    rw [recordTextEncoding, hencoding, okOr_some, Except.ok.injEq] at hrecord
    subst hrecord
    have hlen := length_of_readRecordSpan hbytes
    rw [show descriptor.stop - descriptor.start = bytes.length by omega] at hmax
    exact Nat.add_le_add_left (textBytes_decodeRecordText_le htext hmax) _

end MdictFile

end Mdict
