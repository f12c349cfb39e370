import Mdict.Lemmas.Sample

/-!
This module contains the uniqueness of the file that a build leaves: it is the same whatever memory
the build had, and its order section is that of the sorted rows.
-/

namespace Mdict

open Effect Persistent MdictFile

/--
A build of a key index that went through after some history of the dictionary, when the source had
this identity, and what it left in a new file or in a caller's destination.
-/
def IsArtifact (mdx : MdxFile) (p : Platform) (identity : KeyIndexSourceIdentity)
    (options : KeyIndexOptions) (bytes : Bytes)
    : Prop :=
  ∃ w index before report after, w.platform = p
    ∧ Reachable mdx.inner (·.platform = p) index before ∧ report.sourceIdentity = identity
    ∧ (mdx.buildKeyIndexToPath options w before = (.ok (report, bytes), after)
      ∨ ∃ destination written, written.bytes = bytes
        ∧ mdx.buildKeyIndex destination options w before = (.ok (report, written), after))

/-- The normalized text of the key at an ordinal. -/
def MdictFile.textAt (file : MdictFile) (p : Platform) (ordinal : Nat) : Bytes :=
  (file.freshKey p ordinal).elim [] (file.keyText p)

variable {mdx : MdxFile} {p : Platform} {identity : KeyIndexSourceIdentity}
variable {options : KeyIndexOptions} {bytes : Bytes}

theorem IsArtifact.built (h : IsArtifact mdx p identity options bytes)
    : ∃ blocks built, mdx.inner.IndexBuilt p options blocks built
        ∧ built.report.sourceIdentity = identity ∧ bytes = builtBytes built := by
  obtain ⟨w, index, before, report, after, rfl, hreach, rfl, hrun⟩ := h
  obtain ⟨hsound, -⟩ := hreach.allSound fun _ hw => hw
  rcases hrun with hrun | ⟨destination, written, rfl, hrun⟩
  . have hgives : Gives w (AllSound mdx.inner w.platform index) (mdx.inner.buildToPath options) _ :=
      buildToPath_gives file_invariant_allSound
    replace hgives := hgives before hsound
    change mdx.inner.buildToPath options w before = _ at hrun
    rw [hrun] at hgives
    obtain ⟨-, blocks, built, hbuilt, hreport, hbytes⟩ := hgives
    exact ⟨blocks, built, hbuilt, congrArg (·.sourceIdentity) hreport.symm, hbytes⟩
  . have hgives : Gives w (AllSound mdx.inner w.platform index)
        (mdx.inner.buildToWriter destination options) _ :=
      buildToWriter_gives file_invariant_allSound destination
    replace hgives := hgives before hsound
    change mdx.inner.buildToWriter destination options w before = _ at hrun
    rw [hrun] at hgives
    obtain ⟨-, blocks, built, hbuilt, hreport, hbytes⟩ := hgives
    exact ⟨blocks, built, hbuilt, congrArg (·.sourceIdentity) hreport.symm, hbytes⟩

theorem row_eq_textAt {file : MdictFile} {blocks : List (List DecodedKeyRow)}
    (h : file.DecodesTo p blocks) {row : Nat} (hrow : row < file.len)
    : (file.locatorOf p (keysOf blocks)).row row = file.textAt p row := by
  have hkey : (keysOf blocks)[row]? = some _ :=
    List.getElem?_eq_getElem (by rw [h.length_keysOf]; exact hrow)
  rw [row_locatorOf hkey, textAt, (h.hasKey_iff.mpr hkey).freshKey_eq]
  rfl

/-- The order section lists the rows by normalized text and then by ordinal. -/
theorem MdictFile.IndexBuilt.order {file : MdictFile} {blocks : List (List DecodedKeyRow)}
    {built : BuiltIndex} (h : file.IndexBuilt p options blocks built)
    : (file.locatorOf p (keysOf blocks)).order.flatMap (Bytes.ofLE 4) <:+ builtBytes built
        ∧ SortedIndex.Sorted (file.textAt p) file.len
          (file.locatorOf p (keysOf blocks)).order := by
  constructor
  . have hlast : (file.locatorOf p (keysOf blocks)).sections options
        = [.text, .bounds, .raw].map (fun kind =>
            sectionOf kind options ((file.locatorOf p (keysOf blocks)).sectionBytes kind))
          ++ [sectionOf .order options ((file.locatorOf p (keysOf blocks)).sectionBytes .order)] :=
      rfl
    rw [builtBytes, h.sections, hlast]
    exact (suffix_sectionBytes _ _ _ (sectionOf .order options _)).trans (List.suffix_append _ _)
  . have hsorted := @sorted_locatorOf file p (keysOf blocks)
    rw [h.decodes.length_keysOf] at hsorted
    exact hsorted.congr fun row hrow => row_eq_textAt h.decodes hrow

/--
Builds that differ in their memory alone leave the same bytes. They end with the ordinals of all
keys in the only order by normalized text and ordinal. A merge of several runs, which needs to read
at least two at once, leaves fewer of them after each pass.
-/
theorem artifact_unique (h : IsArtifact mdx p identity options bytes)
    : (∀ memory bytes',
        IsArtifact mdx p identity { options with buildMemoryBytes := memory } bytes' →
          bytes' = bytes)
      ∧ (∃ order, order.flatMap (Bytes.ofLE 4) <:+ bytes
        ∧ ∀ order', SortedIndex.Sorted (mdx.inner.textAt p) mdx.inner.len order'
          ↔ order' = order)
      ∧ ∀ runCount > 1, ∀ fanIn ≥ 2, (groupLens runCount fanIn).length < runCount := by
  obtain ⟨blocks, built, hbuilt, rfl, rfl⟩ := h.built
  refine ⟨?_, ?_, fun runCount hruns fanIn hfan => length_groupLens_lt hruns hfan⟩
  . intro memory bytes' h'
    obtain ⟨blocks', built', hbuilt', hidentity, rfl⟩ := h'.built
    rw [hbuilt.eq_of_memory hbuilt' hidentity.symm]
  . obtain ⟨hsuffix, hsorted⟩ := hbuilt.order
    refine ⟨_, hsuffix, fun order' => ⟨fun hsorted' => hsorted'.unique hsorted, ?_⟩⟩
    rintro rfl
    exact hsorted

/-- A build on a fresh handle. -/
theorem isArtifact_fresh {w : World} {report : KeyIndexBuild}
    (h : (mdx.buildKeyIndexToPath options w .fresh).1 = .ok (report, bytes))
    : IsArtifact mdx w.platform report.sourceIdentity options bytes :=
  ⟨w, none, .fresh, report, _, rfl, .opened [], rfl, .inl (Prod.ext h rfl)⟩

namespace Sample

/-- What a build with this much memory makes of the dictionary with one key. -/
def build (memory : Nat) : Except Error (KeyIndexBuild × Bytes) :=
  (MdxFile.buildKeyIndexToPath ⟨single⟩ { KeyIndexOptions.new with buildMemoryBytes := memory }
    (worldOf single) .fresh).1

theorem isArtifact (memory : Nat)
    (h : (build memory).toOption.any
      (fun built => decide (built.1.sourceIdentity = ⟨single.source.len, 0, 1⟩)) = true)
    : ∃ report bytes, build memory = .ok (report, bytes)
        ∧ IsArtifact ⟨single⟩ (worldOf single).platform ⟨single.source.len, 0, 1⟩
          { KeyIndexOptions.new with buildMemoryBytes := memory } bytes := by
  obtain ⟨⟨report, bytes⟩, hrun, hidentity⟩ := exists_of_any h
  have hartifact := isArtifact_fresh hrun
  rw [of_decide_eq_true hidentity] at hartifact
  exact ⟨report, bytes, hrun, hartifact⟩

end Sample

/-- The sample has the same index whether a build had one megabyte or two. -/
theorem artifact_unique_sample
    : ∃ report report' bytes, Sample.build (2 ^ 20) = .ok (report, bytes)
        ∧ Sample.build (2 ^ 21) = .ok (report', bytes) := by
  obtain ⟨report, bytes, hrun, h⟩ := Sample.isArtifact (2 ^ 20) (by decide +kernel)
  obtain ⟨report', bytes', hrun', h'⟩ := Sample.isArtifact (2 ^ 21) (by decide +kernel)
  obtain ⟨hsame, -, -⟩ := artifact_unique h
  rw [hsame _ bytes' h'] at hrun'
  exact ⟨report, report', bytes, hrun, hrun'⟩

end Mdict
