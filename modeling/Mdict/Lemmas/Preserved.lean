import Mdict.Mdx
import Mdict.Lemmas.CaseVariants
import Mdict.Lemmas.Spans

/-!
This module contains that the operations on records, the iterators and the operations composed of
several others keep every invariant that asks no more of the caches than to be sound.
-/

namespace Mdict

open Effect

variable {w : World} {I : Session → Prop} {file : MdictFile} {α β : Type}

theorem preserves_log (hI : LogInvariant I) {event : Event} : Preserves w I (Exec.log event) :=
  .of_ensures (Yields.log.ensures rfl hI)

theorem preserves_io (hI : LogInvariant I) : Preserves w I Exec.io :=
  .of_ensures (Yields.io.ensures rfl hI)

theorem preserves_reserve (hI : LogInvariant I) {bytes : Nat} {context : String}
    : Preserves w I (Exec.reserve bytes context) :=
  .of_ensures (Yields.reserve.ensures rfl hI)

theorem preserves_platform : Preserves w I Exec.platform := fun _ hs => hs

namespace MdictFile

/-! ## Records -/

section Records

variable (hI : file.Invariant w.platform I)
include hI

theorem decodeKeyBlock_preserves (index : Nat) : Preserves w I (file.decodeKeyBlock index) :=
  .of_ensures (decodeKeyBlock_ensures hI index)

theorem recordDescriptorFromHit_preserves (hit : KeyBlockHit)
    : Preserves w I (file.recordDescriptorFromHit hit) := by
  unfold recordDescriptorFromHit recordStop
  refine .bind .liftM fun _ => .bind .liftM fun _ => .bind .liftM fun _ => .bind ?_ fun _ =>
    .bind .liftM fun _ => .pure
  split
  . exact .pure
  . split
    . exact .bind (decodeKeyBlock_preserves hI _) fun _ => .bind .liftM fun _ => .pure
    . exact .pure

theorem recordAtOrdinal_preserves (ordinal : Nat)
    : Preserves w I (file.recordAtOrdinal ordinal) := by
  refine .bind (.of_ensures (keyEntryAtOrdinal_ensures hI ordinal)) fun hit => ?_
  cases hit with
  | none => exact .pure
  | some hit => exact .bind (recordDescriptorFromHit_preserves hI hit) fun _ => .pure

theorem recordChunk_preserves (cursor stop : Nat) : Preserves w I (file.recordChunk cursor stop) :=
  .bind .liftM fun _ => .bind .liftM fun _ => .bind (decodeRecordBlock_answers hI _).preserves
    fun _ => .bind .liftM fun _ => .bind .liftM fun _ => .bind .liftM fun _ => .bind .liftM
    fun _ => .bind .liftM fun _ => .bind .liftM fun _ => .bind .liftM fun _ => .pure

theorem visitRecordSpanFrom_preserves {visitor : β → Bytes → Exec β}
    (hvisitor : ∀ acc chunk, Preserves w I (visitor acc chunk)) (stop cursor : Nat) (acc : β)
    : Preserves w I (file.visitRecordSpanFrom stop visitor cursor acc) := by
  unfold visitRecordSpanFrom
  split
  . refine .bind (recordChunk_preserves hI cursor stop) fun (chunk, next) => ?_
    refine .bind (hvisitor acc chunk) fun acc => ?_
    split
    . exact .fail
    . exact visitRecordSpanFrom_preserves hvisitor stop next acc
  . exact .pure
termination_by stop - cursor

theorem visitRecordSpan_preserves {visitor : β → Bytes → Exec β}
    (hvisitor : ∀ acc chunk, Preserves w I (visitor acc chunk)) (start stop : Nat) (acc : β)
    : Preserves w I (file.visitRecordSpan start stop visitor acc) :=
  .bind .liftM fun _ => visitRecordSpanFrom_preserves hI hvisitor stop start acc

theorem readRecordSpan_preserves (start stop : Nat)
    : Preserves w I (file.readRecordSpan start stop) :=
  .bind .liftM fun _ => .bind (preserves_reserve hI.events) fun _ =>
    visitRecordSpan_preserves hI (fun _ _ => .pure) start stop []

theorem reserveDecodedRecordText_preserves (encodedLen : Nat)
    : Preserves w I (file.reserveDecodedRecordText encodedLen) :=
  .bind .liftM fun _ => .bind .liftM fun _ => .bind .liftM fun _ => .bind preserves_platform
    fun _ => .bind .liftM fun _ => .bind .liftM fun _ => .bind .liftM fun _ =>
    preserves_reserve hI.events

/-! ## Iterators -/

theorem advance_preserves (iter : RowIter) : Preserves w I (iter.advance file) := by
  unfold RowIter.advance
  split
  . exact .pure
  . split
    . split
      . exact advance_preserves _
      . exact .pure
    . refine .bind (.attempt (decodeKeyBlock_preserves hI _)) fun decoded => ?_
      cases decoded with
      | ok entries =>
        dsimp only
        split
        . exact advance_preserves _
        . exact .pure
      | error e => exact .pure
termination_by file.keyBlockCount - iter.blockIndex

theorem nextKey_preserves (iter : RowIter) : Preserves w I (KeyIter.next file iter) := by
  unfold KeyIter.next
  split
  . exact .pure
  . refine .bind (advance_preserves hI iter) fun (position, iter) => ?_
    dsimp only
    split <;> exact .pure

theorem nextRecord_preserves (iter : RowIter) : Preserves w I (RecordIter.next file iter) := by
  unfold RecordIter.next
  split
  . exact .pure
  . refine .bind (advance_preserves hI iter) fun (position, iter) => ?_
    dsimp only
    split
    . exact .pure
    . exact .pure
    . exact .bind (.attempt (recordDescriptorFromHit_preserves hI _)) fun _ => .pure

end Records

end MdictFile

/-! ## Dictionaries -/

namespace MdxFile

variable {mdx : MdxFile} (hI : mdx.inner.Invariant w.platform I)
include hI

theorem readEntry_preserves (descriptor : MdictFile.RecordDescriptor)
    : Preserves w I (mdx.readEntry descriptor) :=
  .bind .liftM fun _ => .bind (MdictFile.reserveDecodedRecordText_preserves hI _) fun _ =>
    .bind (MdictFile.readRecordSpan_preserves hI _ _) fun _ => .bind preserves_platform fun _ =>
    .bind .liftM fun _ => .bind .liftM fun _ => .pure

theorem entryAt_preserves (ordinal : Nat) : Preserves w I (mdx.entryAt ordinal) := by
  refine .bind (MdictFile.recordAtOrdinal_preserves hI ordinal) fun descriptor => ?_
  cases descriptor with
  | none => exact .pure
  | some descriptor => exact .bind (readEntry_preserves hI descriptor) fun _ => .pure

theorem nextEntry_preserves (iter : MdxEntryIter) : Preserves w I (MdxEntryIter.next mdx iter) := by
  unfold MdxEntryIter.next
  split
  . exact .pure
  . refine .bind (MdictFile.nextRecord_preserves hI _) fun (descriptor, records) => ?_
    dsimp only
    split
    . exact .pure
    . exact .pure
    . exact .bind (.attempt (readEntry_preserves hI _)) fun _ => .pure

theorem locate_preserves (query : Str) : Preserves w I (mdx.locate query) :=
  .of_ensures (MdictFile.locateKeys_ensures hI query)

theorem locateWithMode_preserves (query : Str) (mode : MatchMode)
    : Preserves w I (mdx.locateWithMode query mode) := by
  unfold locateWithMode
  split
  . refine .bind (.of_ensures (MdictFile.locateCaseVariants_ensures hI query _ _)) fun page => ?_
    cases page with
    | none => exact locate_preserves hI query
    | some page => exact .pure
  . exact locate_preserves hI query

theorem locatePage_preserves (query : Str) (offset limit : Nat)
    : Preserves w I (mdx.locatePage query offset limit) :=
  .of_ensures (MdictFile.locateKeyPage_ensures hI query offset limit)

theorem locatePageWithMode_preserves (query : Str) (offset limit : Nat) (mode : MatchMode)
    : Preserves w I (mdx.locatePageWithMode query offset limit mode) := by
  unfold locatePageWithMode
  split
  . refine .bind (.of_ensures (MdictFile.locateCaseVariants_ensures hI query _ _)) fun page => ?_
    cases page with
    | none => exact locatePage_preserves hI query offset limit
    | some page => exact .pure
  . exact locatePage_preserves hI query offset limit

theorem prefixKeys_preserves (keyPrefix : Str) (limit : Nat)
    : Preserves w I (mdx.prefixKeys keyPrefix limit) := by
  refine .bind ?_ fun ordinals => .bind (.of_ensures (MdictFile.keysAtOrdinals_ensures hI ordinals))
    fun _ => .pure
  by_cases hlimit : limit = 0
  . rw [MdictFile.locatePrefix, if_pos hlimit]
    exact .pure
  . exact .of_ensures (MdictFile.locatePrefix_ensures hI keyPrefix hlimit)

theorem lookup_preserves (query : Str) : Preserves w I (mdx.lookup query) := by
  refine .bind (locate_preserves hI query) fun found => ?_
  cases found with
  | none => exact .pure
  | some found => exact .bind .liftM fun _ => entryAt_preserves hI _

end MdxFile

namespace MddResourceSpan

variable {span : MddResourceSpan} (hI : span.source.Invariant w.platform I)
include hI

theorem read_preserves : Preserves w I span.read :=
  .bind (MdictFile.readRecordSpan_preserves hI _ _) fun _ => .pure

theorem copyTo_preserves (destination : Bytes) : Preserves w I (span.copyTo destination) :=
  MdictFile.visitRecordSpan_preserves hI (fun _ _ => .bind (preserves_log hI.events) fun _ =>
    .bind (preserves_io hI.events) fun _ => .bind .liftM fun _ => .pure) _ _ _

end MddResourceSpan

namespace MddFile

variable {mdd : MddFile} (hI : mdd.inner.Invariant w.platform I)
include hI

/-- A span that is found is one of the container. -/
theorem spanAt_ensures (ordinal : Nat)
    : Ensures w I (mdd.spanAt ordinal) (fun found => ∀ span, found = some span →
        span.source = mdd.inner) (fun _ => True) := by
  apply Ensures.bind (MdictFile.recordAtOrdinal_preserves hI ordinal).ensures
  intro descriptor _
  cases descriptor with
  | none => exact .pure (by simp)
  | some descriptor =>
    apply Ensures.liftM_bind (fun _ _ => trivial)
    intro span hspan
    apply Ensures.pure
    rintro _ ⟨⟩
    simp only [MddResourceSpan.new, except_bind_eq_ok, except_pure_eq_ok] at hspan
    obtain ⟨_, -, rfl⟩ := hspan
    rfl

/-- Reading the span that was found. -/
theorem readFound_preserves {x : Exec (Option MddResourceSpan)}
    (hx : Ensures w I x (fun found => ∀ span, found = some span → span.source = mdd.inner)
      (fun _ => True))
    : Preserves w I
        (do
          let span ← x
          match span with
          | none => return none
          | some span =>
            let resource ← span.read
            return some resource : Exec (Option MddResource)) := by
  refine Preserves.of_ensures (Q := fun _ => True) (E := fun _ => True) ?_
  apply Ensures.bind hx
  intro found hfound
  cases found with
  | none => exact .pure trivial
  | some span =>
    have hsource := hfound span rfl
    rw [← hsource] at hI
    exact (Preserves.bind (MddResourceSpan.read_preserves hI) fun _ => .pure).ensures

theorem resourceAt_preserves (ordinal : Nat) : Preserves w I (mdd.resourceAt ordinal) :=
  readFound_preserves hI (spanAt_ensures hI ordinal)

theorem lookupSpan_ensures (query : Str)
    : Ensures w I (mdd.lookupSpan query) (fun found => ∀ span, found = some span →
        span.source = mdd.inner) (fun _ => True) := by
  apply Ensures.bind ((MdictFile.locateKeys_ensures hI query).mono (fun _ h => h) fun _ _ => trivial)
  intro found _
  cases found with
  | none => exact .pure (by simp)
  | some found =>
    apply Ensures.liftM_bind (fun _ _ => trivial)
    intro first _
    exact spanAt_ensures hI first

theorem lookup_preserves (query : Str) : Preserves w I (mdd.lookup query) :=
  readFound_preserves hI (lookupSpan_ensures hI query)

theorem nextResource_preserves (iter : MddResourceIter)
    : Preserves w I (MddResourceIter.next mdd iter) := by
  unfold MddResourceIter.next
  split
  . exact .pure
  . refine .bind (MdictFile.nextRecord_preserves hI _) fun (descriptor, records) => ?_
    dsimp only
    split
    . exact .pure
    . exact .pure
    . exact .bind (.attempt (.bind (MdictFile.readRecordSpan_preserves hI _ _) fun _ => .pure))
        fun _ => .pure

end MddFile

end Mdict
