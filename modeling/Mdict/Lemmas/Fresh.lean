import Mdict.Mdx
import Mdict.Mdd
import Mdict.Lemmas.Access

/-!
This module contains what a handle answers as long as its key block cache holds no failure: the
same as a fresh handle.
-/

namespace Mdict

open Effect

/--
In the world `w` the program `x` answers `r` from every state with `I`, and when it succeeds it
leaves such a state.
-/
def Replies {α : Type} (w : World) (I : Session → Prop) (x : Exec α) (r : Except Error α) : Prop :=
  ∀ s, I s → ∃ s', x w s = (r, s') ∧ ∀ a, r = .ok a → I s'

/-- In all quiet worlds with this third-party code the program `x` answers the same. -/
def Determined {α : Type} (p : Platform) (I : Session → Prop) (x : Exec α) : Prop :=
  ∃ r, ∀ w, w.platform = p → w.Quiet → Replies w I x r

section

variable {α β : Type} {p : Platform} {w : World} {I : Session → Prop} {x : Exec α}
variable {f : α → Exec β} {r : Except Error α}

namespace Replies

theorem pure {a : α} : Replies w I (Pure.pure a) (.ok a) :=
  fun s hs => ⟨s, rfl, fun _ _ => hs⟩

theorem fail {e : Error} : Replies w I (Prog.fail e : Exec α) (.error e) :=
  fun s _ => ⟨s, rfl, fun _ h => by contradiction⟩

theorem bind_ok {a : α} {r : Except Error β} (hx : Replies w I x (.ok a)) (hf : Replies w I (f a) r)
    : Replies w I (x >>= f) r := by
  intro s hs
  obtain ⟨s', hrun, hs'⟩ := hx s hs
  rw [Prog.bind_of_ok hrun]
  exact hf s' (hs' a rfl)

theorem bind_error {e : Error} (hx : Replies w I x (.error e))
    : Replies w I (x >>= f) (.error e) := by
  intro s hs
  obtain ⟨s', hrun, -⟩ := hx s hs
  exact ⟨s', Prog.bind_of_error hrun, fun _ h => by contradiction⟩

theorem of_yields (h : Yields w.platform x r) (hw : w.Quiet) (hI : LogInvariant I)
    : Replies w I x r := by
  intro s hs
  obtain ⟨events, h | ⟨e, he, -⟩⟩ := h w s rfl
  . exact ⟨_, h, fun _ _ => hI s events hs⟩
  . exact absurd he (not_interrupted hw)

end Replies

namespace Determined

theorem pure {a : α} : Determined p I (Pure.pure a : Exec α) := ⟨_, fun _ _ _ => Replies.pure⟩

theorem fail {e : Error} : Determined p I (Prog.fail e : Exec α) :=
  ⟨_, fun _ _ _ => Replies.fail⟩

theorem of_yields (h : Yields p x r) (hI : LogInvariant I) : Determined p I x := by
  refine ⟨r, ?_⟩
  rintro w rfl hw
  exact Replies.of_yields h hw hI

theorem liftM (hI : LogInvariant I) : Determined p I (MonadLiftT.monadLift r : Exec α) :=
  of_yields Yields.liftM hI

theorem bind (hx : Determined p I x) (hf : ∀ a, Determined p I (f a))
    : Determined p I (x >>= f) := by
  obtain ⟨r, hr⟩ := hx
  cases r with
  | ok a =>
    obtain ⟨r', hr'⟩ := hf a
    exact ⟨r', fun w hw hquiet => (hr w hw hquiet).bind_ok (hr' w hw hquiet)⟩
  | error e => exact ⟨_, fun w hw hquiet => (hr w hw hquiet).bind_error⟩

theorem ite {c : Prop} [Decidable c] {y : Exec α} (hx : Determined p I x) (hy : Determined p I y)
    : Determined p I (if c then x else y) := by
  split
  . exact hx
  . exact hy

/-- The answer is the one of a fresh handle. -/
theorem replies (h : Determined w.platform I x) (hfresh : I .fresh) (hw : w.Quiet)
    : Replies w I x (outcome w.platform x) := by
  obtain ⟨r, hr⟩ := h
  obtain ⟨s', hrun, -⟩ := hr (.calm w.platform) rfl (World.calm_quiet _) .fresh hfresh
  rw [outcome, hrun]
  exact hr w rfl hw

/-- The answer of a sequence is the sequence of the answers. -/
theorem outcome_bind (hx : Determined p I x) (hf : ∀ a, Determined p I (f a)) (hfresh : I .fresh)
    : outcome p (x >>= f) = outcome p x >>= fun a => outcome p (f a) := by
  have hcalm := World.calm_quiet p
  obtain ⟨s, hrun, hs⟩ := hx.replies (w := .calm p) hfresh hcalm .fresh hfresh
  have hx' : outcome (World.calm p).platform x = outcome p x := rfl
  rw [hx'] at hrun hs
  cases hr : outcome p x with
  | ok a =>
    rw [hr] at hrun hs
    obtain ⟨s', hrun', -⟩ := (hf a).replies (w := .calm p) hfresh hcalm s (hs a rfl)
    rw [outcome, Prog.bind_of_ok hrun, hrun']
    rfl
  | error e =>
    rw [hr] at hrun
    rw [outcome, Prog.bind_of_error hrun]
    rfl

end Determined

end

namespace MdictFile

variable {file : MdictFile} {p : Platform} {w : World}

/-- The caches are sound, and the key block cache holds no failure. -/
structure Clean (file : MdictFile) (p : Platform) (s : Session) : Prop where
  sound : file.Sound p s
  noFailure : ∀ index failure, s.keyBlockCache ≠ some (index, .failed failure)

theorem clean_fresh : file.Clean p .fresh := ⟨file.sound_fresh p, fun _ _ h => by contradiction⟩

theorem clean_events : LogInvariant (file.Clean p) :=
  fun s events hs => ⟨(file.invariant_sound p).events s events hs.sound, hs.noFailure⟩

theorem clean_opened (events : List Event) : file.Clean p { Session.fresh with events } :=
  clean_events _ events clean_fresh

/-- A key block decodes as on a fresh handle. -/
theorem decodeKeyBlock_replies (hw : w.Quiet) (index : Nat)
    : Replies w (file.Clean w.platform) (file.decodeKeyBlock index)
        (file.freshRows w.platform index) := by
  intro s hs
  obtain ⟨r, events, cache', hrun, hcache⟩ := file.decodeKeyBlock_run index w s
  obtain ⟨hsound, hok, -⟩ := hs.sound.keyBlock.run hcache
  have hmiss : file.missResult w.platform index s.keyBlockCache
      = file.freshRows w.platform index := by
    rcases hs.sound.keyBlock.missResult_eq index with heq | ⟨previous, failure, -, hfailed, -⟩
    . exact heq
    . exact absurd hfailed (hs.noFailure previous failure)
  have hclean (hnone : ∀ index failure, cache' ≠ some (index, .failed failure))
      : file.Clean w.platform { s with events, keyBlockCache := cache' } :=
    ⟨(file.invariant_sound w.platform).events _ events
      ((file.invariant_sound w.platform).keyBlock s cache' hs.sound hsound), hnone⟩
  rw [hrun]
  cases hcache with
  | hit value hit =>
    cases value with
    | ready rows =>
      rw [hok rows rfl]
      exact ⟨_, rfl, fun _ _ => hclean hs.noFailure⟩
    | failed failure => exact absurd hit (hs.noFailure index failure)
  | kept value miss result =>
    rw [← hmiss, ← result]
    refine ⟨_, rfl, ?_⟩
    intro rows hrows
    cases value with
    | ready rows => exact hclean fun _ _ h => by cases h
    | failed failure => contradiction
  | dropped error cache' cache'_eq cause unkept =>
    rcases cause with cause | cause
    . exact absurd cause (not_interrupted hw)
    . rw [← hmiss, cause]
      exact ⟨_, rfl, fun _ h => by contradiction⟩

theorem decodeKeyBlock_determined (index : Nat)
    : Determined p (file.Clean p) (file.decodeKeyBlock index) := by
  refine ⟨file.freshRows p index, ?_⟩
  rintro w rfl hw
  exact decodeKeyBlock_replies hw index

theorem decodeRecordBlock_determined (index : Nat)
    : Determined p (file.Clean p) (file.decodeRecordBlock index) := by
  refine ⟨file.ownRecords p index, ?_⟩
  rintro w rfl hw s hs
  obtain ⟨r, events, cache', hrun, hsound, hr⟩ :=
    file.decodeRecordBlock_run index w s hs.sound.recordBlock
  rw [hrun]
  rcases hr with hr | ⟨e, he, -⟩
  . rw [hr]
    exact ⟨_, rfl, fun _ _ => ⟨(file.invariant_sound w.platform).events _ events
      ((file.invariant_sound w.platform).recordBlock s cache' hs.sound hsound), hs.noFailure⟩⟩
  . exact absurd he (not_interrupted hw)

/-! ## Keys and records -/

theorem keyEntryAtOrdinal_determined (ordinal : Nat)
    : Determined p (file.Clean p) (file.keyEntryAtOrdinal ordinal) :=
  .ite .pure (.bind (.liftM clean_events) fun _ => .bind (decodeKeyBlock_determined _) fun _ =>
    .bind (.liftM clean_events) fun _ => .pure)

theorem keyAtOrdinal_determined (ordinal : Nat)
    : Determined p (file.Clean p) (file.keyAtOrdinal ordinal) :=
  .bind (keyEntryAtOrdinal_determined ordinal) fun hit => match hit with
    | none => .pure
    | some _ => .bind (.liftM clean_events) fun _ => .pure

theorem recordDescriptorFromHit_determined (hit : KeyBlockHit)
    : Determined p (file.Clean p) (file.recordDescriptorFromHit hit) := by
  refine .bind (.liftM clean_events) fun _ => .bind (.liftM clean_events) fun _ =>
    .bind (.liftM clean_events) fun _ => .bind ?_ fun _ => .bind (.liftM clean_events) fun _ =>
    .pure
  unfold recordStop
  split
  . exact .pure
  . exact .ite (.bind (decodeKeyBlock_determined _) fun _ => .bind (.liftM clean_events)
      fun _ => .pure) .pure

theorem recordAtOrdinal_determined (ordinal : Nat)
    : Determined p (file.Clean p) (file.recordAtOrdinal ordinal) := by
  refine .bind (keyEntryAtOrdinal_determined ordinal) fun hit => ?_
  cases hit with
  | none => exact .pure
  | some hit => exact .bind (recordDescriptorFromHit_determined hit) fun _ => .pure

theorem recordChunk_determined (cursor stop : Nat)
    : Determined p (file.Clean p) (file.recordChunk cursor stop) :=
  .bind (.liftM clean_events) fun _ => .bind (.liftM clean_events) fun _ =>
    .bind (decodeRecordBlock_determined _) fun _ => .bind (.liftM clean_events) fun _ =>
    .bind (.liftM clean_events) fun _ => .bind (.liftM clean_events) fun _ =>
    .bind (.liftM clean_events) fun _ => .bind (.liftM clean_events) fun _ =>
    .bind (.liftM clean_events) fun _ => .bind (.liftM clean_events) fun _ => .pure

theorem visitRecordSpanFrom_determined {β : Type} {visitor : β → Bytes → Exec β}
    (hvisitor : ∀ acc chunk, Determined p (file.Clean p) (visitor acc chunk)) (stop cursor : Nat)
    (acc : β)
    : Determined p (file.Clean p) (file.visitRecordSpanFrom stop visitor cursor acc) := by
  unfold visitRecordSpanFrom
  split
  . refine .bind (recordChunk_determined cursor stop) fun (chunk, next) => ?_
    refine .bind (hvisitor acc chunk) fun acc => ?_
    split
    . exact .fail
    . exact visitRecordSpanFrom_determined hvisitor stop next acc
  . exact .pure
termination_by stop - cursor

theorem readRecordSpan_determined (start stop : Nat)
    : Determined p (file.Clean p) (file.readRecordSpan start stop) :=
  .bind (.liftM clean_events) fun _ => .bind (.of_yields Yields.reserve clean_events) fun _ =>
    .bind (.liftM clean_events) fun _ =>
    visitRecordSpanFrom_determined (fun _ _ => .pure) stop start []

end MdictFile

/-! ## Entries and resources -/

section

variable {mdx : MdxFile} {mdd : MddFile} {p : Platform}

open MdictFile

theorem MdxFile.readEntry_determined (descriptor : RecordDescriptor)
    : Determined p (mdx.inner.Clean p) (mdx.readEntry descriptor) :=
  .bind (.liftM clean_events) fun _ => .bind (.bind (.liftM clean_events) fun _ =>
      .bind (.liftM clean_events) fun _ => .bind (.liftM clean_events) fun _ =>
      .bind (.of_yields Yields.platform clean_events) fun _ => .bind (.liftM clean_events) fun _ =>
      .bind (.liftM clean_events) fun _ => .bind (.liftM clean_events) fun _ =>
      .of_yields Yields.reserve clean_events) fun _ =>
    .bind (readRecordSpan_determined _ _) fun _ =>
    .bind (.of_yields Yields.platform clean_events) fun _ => .bind (.liftM clean_events) fun _ =>
    .bind (.liftM clean_events) fun _ => .pure

theorem MddFile.readResource_determined (descriptor : RecordDescriptor)
    : Determined p (mdd.inner.Clean p) (mdd.readResource descriptor) :=
  .bind (readRecordSpan_determined _ _) fun _ => .pure

end

end Mdict
