import Mdict.Theorems.RoundTrip

/-!
This module contains that a caller of an open file cannot tell it from the dictionary of its
entries, and so cannot tell two files from each other that were written from the same entries.
-/

namespace Mdict

open Effect MdictFile

variable {file : MdictFile} {d : Dictionary} {w : World} {p : Platform}
variable {index : Option PersistentKeyIndex} {s : Session} {γ : Type}

/--
After any history of a file whose blocks decode, a caller gets from it what the dictionary of its
entries answers. The caller may hold any number of iterators, interleave their steps with searches
and reads, and decide what to ask from the answers before.
-/
theorem client_run_eq (h : file.Represents w.platform d) (hw : w.Quiet)
    (hreach : Reachable file (·.platform = w.platform) index s) (client : Client Question Error γ)
    (hasks : client.Asks (fun _ question => question.Within d w.platform) (d.answer w.platform) .none)
    : ∃ desk, client.run file.answer w (.new s)
        = (.ok (client.eval (d.answer w.platform) .none).1, desk) := by
  have hsound := (hreach.allSound fun _ hw => hw).1
  have hrefines := h.refines hw (@file_invariant_allSound file index w.platform)
  obtain ⟨desk, hrun, -⟩ := Client.run_eq hrefines hasks (Desk.serves_new hsound)
  exact ⟨desk, hrun⟩

namespace Sample

/-- A caller that looks a key up between two steps of an iterator over the keys. -/
def caller : Client Question Error (List (Option (Except Error KeyEntry)) × Option MdxEntry) :=
  .ask .keys fun iterator =>
    match iterator with
    | .error _ => .done ([], none)
    | .ok iterator =>
      .ask (.nextKey iterator) fun first =>
        .ask (.lookupEntry ['A', 'a']) fun found =>
          .ask (.nextKey iterator) fun second =>
            .done ([first.toOption.join, second.toOption.join], found.toOption.join)

theorem caller_asks
    : caller.Asks
        (fun _ question => question.Within (Sample.file.dictionary rows records) world.platform)
        ((Sample.file.dictionary rows records).answer world.platform) .none := by
  have hsearchable : (Sample.file.dictionary rows records).Searchable world.platform ['A', 'a'] :=
    ⟨locatorFits_dictionary.mpr locatorFits, evaluates.queryFits _ (by decide)⟩
  exact ⟨trivial, trivial, hsearchable, trivial, trivial⟩

end Sample

/-- The caller sees the first two keys, and in between the entry of a key of the same text. -/
theorem client_run_eq_sample
    : ∃ desk, Sample.caller.run Sample.file.answer Sample.world (.new .fresh)
        = (.ok ([some (.ok ⟨0, ['a', 'a']⟩), some (.ok ⟨1, ['A', 'A']⟩)],
            some ⟨⟨0, ['a', 'a']⟩, [Char.ofNat 1, Char.ofNat 2]⟩), desk) := by
  have hrepresents : Sample.file.Represents Sample.world.platform
      (Sample.file.dictionary Sample.rows Sample.records) :=
    ⟨_, _, Sample.decodesTo, Sample.recordsDecodeTo, rfl⟩
  obtain ⟨desk, hrun⟩ := client_run_eq hrepresents Sample.quiet Sample.reachable Sample.caller
    Sample.caller_asks
  have heval : (Sample.caller.eval
      ((Sample.file.dictionary Sample.rows Sample.records).answer Sample.world.platform) .none).1
        = ([some (.ok ⟨0, ['a', 'a']⟩), some (.ok ⟨1, ['A', 'A']⟩)],
            some ⟨⟨0, ['a', 'a']⟩, [Char.ofNat 1, Char.ofNat 2]⟩) := by
    decide +kernel
  exact ⟨desk, hrun.trans (by rw [heval])⟩

/-! ## Files with the same entries -/

/--
Two files written from the same entries, whatever their versions, blocks and checksum policies, are
the same to every caller, after any histories of their own.
-/
theorem written_alike {volume volume' : Volume} {options options' : OpenOptions}
    {header header' : Header} (hfits : volume.Fits options.limits)
    (hfits' : volume'.Fits options'.limits) (hdeclares : volume.Declares options.limits header)
    (hdeclares' : volume'.Declares options'.limits header')
    (hsame : volume.dictionary header options.limits = volume'.dictionary header' options'.limits)
    (hlower : ∀ character, (p.toLowercase character).length ≤ 3)
    : ∃ file file',
      (∀ w s, w.platform = p → w.Quiet →
        (∃ s', MdictFile.open volume.bytes volume.kind options w s = (.ok file, s'))
          ∧ ∃ s', MdictFile.open volume'.bytes volume'.kind options' w s = (.ok file', s'))
      ∧ ∀ (client : Client Question Error γ) (w w' : World)
          (index index' : Option PersistentKeyIndex) (s s' : Session),
          w.platform = p → w'.platform = p → w.Quiet → w'.Quiet →
          Reachable file (·.platform = p) index s → Reachable file' (·.platform = p) index' s' →
          client.Asks
            (fun _ question => question.Within (volume.dictionary header options.limits) p)
            ((volume.dictionary header options.limits).answer p) .none →
          ∃ answer desk desk', client.run file.answer w (.new s) = (.ok answer, desk)
            ∧ client.run file'.answer w' (.new s') = (.ok answer, desk') := by
  obtain ⟨file, hopens, hopen⟩ := hfits.open hdeclares p
  obtain ⟨file', hopens', hopen'⟩ := hfits'.open hdeclares' p
  refine ⟨file, file', ?_, ?_⟩
  . rintro w s rfl hw
    have hanswers := Answers.of_yields (I := fun _ => True) hopens rfl fun _ _ h => h
    have hanswers' := Answers.of_yields (I := fun _ => True) hopens' rfl fun _ _ h => h
    obtain ⟨s', hrun, -⟩ := hanswers.quiet hw trivial
    obtain ⟨s'', hrun', -⟩ := hanswers'.quiet hw trivial
    exact ⟨⟨s', hrun⟩, s'', hrun'⟩
  intro client w w' index index' s s' hp hp' hw hw' hreach hreach' hasks
  have hrepresents := hopen.represents hfits hlower
  have hrepresents' := hopen'.represents hfits' hlower
  rw [← hsame] at hrepresents'
  obtain ⟨desk, hrun, -⟩ := Client.run_eq
    (MdictFile.Represents.refines (hp ▸ hrepresents) hw file_invariant_allSound) (hp ▸ hasks)
    (Desk.serves_new (hp ▸ (hreach.allSound fun _ hw => hw).1))
  obtain ⟨desk', hrun', -⟩ := Client.run_eq
    (MdictFile.Represents.refines (hp' ▸ hrepresents') hw' file_invariant_allSound) (hp' ▸ hasks)
    (Desk.serves_new (hp' ▸ (hreach'.allSound fun _ hw => hw).1))
  rw [hp] at hrun
  rw [hp'] at hrun'
  exact ⟨_, desk, desk', hrun, hrun'⟩

namespace Sample

/-- The same entries in a version 2 file with one key block and one record block. -/
def rewritten : Volume :=
  { written with
    version := .v2
    xml := "<Dictionary GeneratedByEngineVersion=\"2.0\" Encoding=\"UTF-8\"/>".toList
    keyBlocks := [[(['a'], [120, 0]), (['A'], []), (['b'], [121])]]
    recordBlocks := [[120, 0, 121]]
    keyBlocks_ne_nil := by decide
    keys_terminated := by decide
    recordBlocks_flatten := rfl }

theorem rewritten_fits : rewritten.Fits OpenOptions.new.limits where
  length := by decide +kernel
  narrow := by decide +kernel
  xml := by decide +kernel
  xmlLimit := by decide +kernel
  summaries := by decide +kernel
  keywordIndex := by decide +kernel
  keyMetadata := by decide +kernel
  keyBlockEntries := by decide +kernel
  recordIndex := by decide +kernel
  recordMetadata := by decide +kernel
  payloads := by decide +kernel

/-- Both files declare what makes their dictionaries the same. -/
theorem declare_alike
    : ∃ header header', written.Declares OpenOptions.new.limits header
        ∧ rewritten.Declares OpenOptions.new.limits header'
        ∧ written.dictionary header OpenOptions.new.limits
          = rewritten.dictionary header' OpenOptions.new.limits := by
  have h : (declares written OpenOptions.new.limits).isSome = true
      ∧ (declares rewritten OpenOptions.new.limits).isSome = true
      ∧ (declares written OpenOptions.new.limits).map (KeyNormalizer.fromHeader · .mdx)
        = (declares rewritten OpenOptions.new.limits).map (KeyNormalizer.fromHeader · .mdx) := by
    decide +kernel
  obtain ⟨hwritten, hrewritten, hsame⟩ := h
  obtain ⟨header, hheader⟩ := Option.isSome_iff_exists.mp hwritten
  obtain ⟨header', hheader'⟩ := Option.isSome_iff_exists.mp hrewritten
  rw [hheader, hheader', Option.map_some, Option.map_some, Option.some.injEq] at hsame
  refine ⟨header, header', declares_of hheader, declares_of hheader', ?_⟩
  unfold Volume.dictionary
  rw [show written.kind = .mdx from rfl, show rewritten.kind = .mdx from rfl, hsame]
  rfl

/-- A caller that reads an entry while it iterates over all of them. -/
def reader : Client Question Error (List (Except Error (Option MdxEntry))) :=
  .ask .entries fun _ =>
    .ask (.nextEntry 0) fun _ =>
      .ask (.entryAt 2) fun third =>
        .ask (.nextEntry 0) fun second =>
          .done [third, second.map fun item => item.bind (·.toOption)]

end Sample

/-- The reader gets the same from both files. -/
theorem written_alike_sample
    : ∃ file file' s s',
        MdictFile.open Sample.written.bytes .mdx .new Sample.world .fresh = (.ok file, s)
        ∧ MdictFile.open Sample.rewritten.bytes .mdx .new Sample.world .fresh = (.ok file', s')
        ∧ ∃ answer desk desk',
          Sample.reader.run file.answer Sample.world (.new .fresh) = (.ok answer, desk)
          ∧ Sample.reader.run file'.answer Sample.world (.new .fresh) = (.ok answer, desk') := by
  obtain ⟨header, header', hdeclares, hdeclares', hsame⟩ := Sample.declare_alike
  obtain ⟨file, file', hopens, halike⟩ := written_alike Sample.written_fits Sample.rewritten_fits
    hdeclares hdeclares' hsame Sample.length_toLowercase
  obtain ⟨⟨s, hopen⟩, s', hopen'⟩ := hopens _ .fresh rfl Sample.quiet
  exact ⟨file, file', s, s', hopen, hopen', halike Sample.reader Sample.world Sample.world none none
    .fresh .fresh rfl rfl Sample.quiet Sample.quiet (.opened []) (.opened [])
    ⟨trivial, trivial, trivial, trivial, trivial⟩⟩

end Mdict
