import Mdict.Lemmas.Persistent.Total.Artifact
import Mdict.Lemmas.Sample

/-!
This module contains that a key index can be built of every dictionary that it can hold: a build
leaves an artifact that opens again, unless the build memory is too small for it.
-/

namespace Mdict

open Effect Persistent MdictFile

variable {mdx : MdxFile} {p : Platform} {options : KeyIndexOptions}
variable {blocks : List (List DecodedKeyRow)} {identity : KeyIndexSourceIdentity}

/-- A world in which nothing goes wrong, nobody cancels and the source is unchanged. -/
structure Undisturbed (file : MdictFile) (w : World) (identity : KeyIndexSourceIdentity)
    : Prop where
  quiet : w.Quiet
  notCancelled : ∀ events, w.cancelled events = false
  unchanged : file.Unchanged w identity

theorem Undisturbed.not_stopped {file : MdictFile} {w : World} {e : Error}
    (h : Undisturbed file w identity)
    : ¬Stopped w e := by
  rintro (he | ⟨-, events, hfault⟩ | ⟨_, -, events, hcancelled⟩)
  . exact not_interrupted h.quiet he
  . rw [h.quiet.ioFault] at hfault
    exact Bool.false_ne_true hfault
  . rw [h.notCancelled] at hcancelled
    exact Bool.false_ne_true hcancelled

/-- The artifact opens with these options wherever the source is the same. -/
def OpensAgain (mdx : MdxFile) (p : Platform) (identity : KeyIndexSourceIdentity)
    (options : KeyIndexOptions) (bytes : Bytes)
    : Prop :=
  ∀ w s, w.platform = p → w.Quiet → mdx.inner.Unchanged w identity →
    ∃ opened s', mdx.openKeyIndex bytes identity options w s = (.ok opened, s')

theorem opensAgain_of_built {built : BuiltIndex}
    (h : mdx.inner.IndexBuilt p options blocks built)
    : OpensAgain mdx p built.report.sourceIdentity options (builtBytes built) := by
  rintro w s rfl hquiet hunchanged
  obtain ⟨-, -, hfails⟩ := (h.openFile_total hunchanged).outcome (s := s) trivial
  generalize hrun : mdx.openKeyIndex (builtBytes built) built.report.sourceIdentity options w s = run
  rw [MdxFile.openKeyIndex] at hrun
  rw [hrun] at hfails
  obtain ⟨e | opened, s'⟩ := run
  . exact absurd (hfails e rfl) (not_interrupted hquiet)
  . exact ⟨opened, s', rfl⟩

/-- A build asks for more memory than it has, after it has planned more than half of it. -/
def LacksMemory {α : Type} (options : KeyIndexOptions) (planned : Nat) (r : Except Error α)
    : Prop :=
  options.buildMemoryBytes / 2 < planned
    ∧ ∃ needed, r = .error
      (.limitExceeded "key_index_build_memory_bytes" needed options.buildMemoryBytes)

/-- Where nothing interferes a build that can only falter for memory does what it ensures. -/
theorem eq_or_lacksMemory {α : Type} {x : Exec α} {w : World} {I : Session → Prop} {a : α}
    {planned : Nat} (hx : Ensures w I x (· = a) (Falters w options planned))
    (hworld : Undisturbed mdx.inner w identity) {s : Session} (hs : I s)
    : (x w s).1 = .ok a ∨ LacksMemory options planned (x w s).1 := by
  obtain ⟨-, hok, hfails⟩ := hx.outcome hs
  generalize (x w s).1 = r at hok hfails ⊢
  cases r with
  | ok b =>
    rw [hok b rfl]
    exact .inl rfl
  | error e =>
    obtain ⟨hover, needed, rfl⟩ := (hfails e rfl).resolve_left hworld.not_stopped
    exact .inr ⟨hover, needed, rfl⟩

/--
A dictionary whose rows and index are within the limits has an artifact that opens again. Where
nothing interferes, every build ends with it, after any history, in a new file or in a destination
that is no longer. It can only lack build memory, and not before the memory that is planned for the
rows is more than half of that.
-/
theorem keyIndex_builds (hgrow : p.GrowsAmortized) (h : mdx.inner.Buildable p options blocks)
    (hown : mdx.inner.OwnIdentity identity)
    : ∃ bytes : Bytes,
        bytes.length = indexLen options mdx.inner.len
          (mdx.inner.locatorOf p (keysOf blocks)).text.length
        ∧ OpensAgain mdx p identity options bytes
        ∧ ∀ w index s, w.platform = p → Undisturbed mdx.inner w identity →
          Reachable mdx.inner (·.platform = p) index s →
          ((mdx.buildKeyIndexToPath options w s).1 = .ok (⟨identity, bytes.length⟩, bytes)
            ∨ LacksMemory options (plannedTotal mdx.inner p (keysOf blocks))
              (mdx.buildKeyIndexToPath options w s).1)
          ∧ ∀ destination : Destination, destination.bytes.length ≤ bytes.length →
            (mdx.buildKeyIndex destination options w s).1
              = .ok (⟨identity, bytes.length⟩, ⟨bytes, bytes.length⟩)
            ∨ LacksMemory options (plannedTotal mdx.inner p (keysOf blocks))
              (mdx.buildKeyIndex destination options w s).1 := by
  obtain ⟨built, hbuilt, hidentity, hwritten⟩ := h.exists_built hown
  have hlen := hbuilt.length_builtBytes
  have hreport : built.report = ⟨identity, (builtBytes built).length⟩ := by
    rw [hlen, ← hidentity]
  refine ⟨builtBytes built, hlen.trans hwritten, hidentity ▸ opensAgain_of_built hbuilt, ?_⟩
  rintro w index s rfl hworld hreach
  have hsound := (hreach.allSound fun _ hw => hw).1
  -- All builds make the same of the rows.
  have hsame {built' : BuiltIndex} (h' : mdx.inner.IndexBuilt w.platform options blocks built')
      (hidentity' : built'.report.sourceIdentity = identity) : built' = built :=
    (hbuilt.eq_of_memory h' (hidentity.trans hidentity'.symm)).symm
  constructor
  . apply eq_or_lacksMemory _ hworld hsound
    apply (buildToPath_total file_invariant_allSound hgrow h hworld.unchanged).mono _ fun _ he => he
    rintro _ ⟨built', h', rfl, hidentity'⟩
    rw [hsame h' hidentity', hreport]
  . intro destination hshort
    apply eq_or_lacksMemory _ hworld hsound
    apply (buildToWriter_total file_invariant_allSound hgrow h hworld.unchanged
      (by rw [← hwritten, ← hlen]; exact hshort)).mono _ fun _ he => he
    rintro _ ⟨built', h', rfl, hidentity'⟩
    rw [hsame h' hidentity', ← hlen, hreport]

namespace Sample

theorem growsAmortized : platform.GrowsAmortized := by
  intro elementSize capacity needed
  exact Nat.le_max_left (max (2 * capacity) needed) _

theorem buildable : file.Buildable world.platform .new rows where
  valid := by rfl
  memory := by decide
  kind := by rfl
  len_le := by decide
  decodes := decodesTo
  rows := by
    unfold RowFits
    decide +kernel
  text := by decide +kernel
  metadata := by decide +kernel
  total := by decide +kernel

theorem ownIdentity : file.OwnIdentity Sample.identity where
  sourceBytes := by decide
  sourceBytes_lt := by decide
  keyCount := by decide

theorem undisturbed : Undisturbed file sourceWorld Sample.identity where
  quiet := ⟨fun _ => rfl, fun _ => rfl, fun _ => show 0 < u64Max by decide⟩
  notCancelled := fun _ => rfl
  unchanged := ⟨by decide, fun _ => rfl, fun _ => rfl, by decide⟩

end Sample

/-- The default build memory is enough for the three rows of the sample. -/
theorem keyIndex_builds_sample
    : ∃ bytes : Bytes,
        (MdxFile.buildKeyIndexToPath ⟨Sample.file⟩ .new Sample.sourceWorld .fresh).1
            = .ok (⟨Sample.identity, bytes.length⟩, bytes)
          ∧ OpensAgain ⟨Sample.file⟩ Sample.world.platform Sample.identity .new bytes := by
  obtain ⟨bytes, -, hopens, hbuilds⟩ := @keyIndex_builds ⟨Sample.file⟩ _ _ _ _
    Sample.growsAmortized Sample.buildable Sample.ownIdentity
  obtain ⟨hpath, -⟩ := hbuilds Sample.sourceWorld none .fresh rfl Sample.undisturbed (.opened [])
  have hroom : plannedTotal Sample.file Sample.world.platform (keysOf Sample.rows)
      ≤ KeyIndexOptions.new.buildMemoryBytes / 2 := by
    decide +kernel
  exact ⟨bytes, hpath.resolve_right fun hlacks => Nat.not_lt.mpr hroom hlacks.1, hopens⟩

end Mdict
