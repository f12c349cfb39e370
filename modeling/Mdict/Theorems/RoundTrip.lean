import Mdict.Lemmas.Writer.Dictionary
import Mdict.Lemmas.Sample

/-!
This module contains that what was written into a file is read back from it, and that nobody can
tell from the answers of a reader how it was written.
-/

namespace Mdict

open Effect MdictFile

variable {volume : Volume} {options : OpenOptions} {header : Header} {file : MdictFile}
variable {limits : Limits} {p : Platform} {w : World} {index : Option PersistentKeyIndex}
variable {s : Session}

/-- The text of a record without the trailing NULs. -/
def trimNul (text : Str) : Str := (text.reverse.dropWhile (· == Char.ofNat 0)).reverse

theorem readText_encode {d : Dictionary} {encoding : UnicodeEncoding} {text : Str}
    (hencoding : d.recordEncoding = some encoding.text)
    (hlimit : 3 * ((encoding.encode text).length + 1) ≤ 2 * d.limits.materializedRecordBytes)
    (hlen : 64 * (encoding.encode text).length < u64Bound)
    : d.readText p (encoding.encode text) = .ok (trimNul text) := by
  obtain ⟨decodedLen, hdecoded, hle⟩ := encoding.exists_maxDecodedLen p hlen
  have hu64 : 16 < u64Bound := by decide
  rw [Dictionary.readText, hencoding, okOr_some, except_ok_bind, ensureLimit_of_le (by omega),
    except_ok_bind, hdecoded, except_ok_bind, ensureLimit_of_le (by omega), except_ok_bind,
    checkedAdd_of_lt (by omega), okOr_some, except_ok_bind, decodeRecordText,
    UnicodeEncoding.decode_encode hlen]
  rfl

theorem readAt_of_none {d : Dictionary} {α : Type} {read : KeyEntry → Bytes → Except Error α}
    {ordinal : Nat} (h : d.entries[ordinal]? = none)
    : d.readAt read ordinal = .ok none := by
  rw [Dictionary.readAt, h]

theorem readAt_of_some {d : Dictionary} {α : Type} {read : KeyEntry → Bytes → Except Error α}
    {ordinal : Nat} {key : Str} {record : Bytes} (h : d.entries[ordinal]? = some (key, record))
    : d.readAt read ordinal = (read { ordinal, key } record).map some := by
  rw [Dictionary.readAt, h]
  rfl

theorem readResource_of_le {d : Dictionary} {key : KeyEntry} {record : Bytes}
    (h : record.length ≤ d.limits.materializedRecordBytes)
    : d.readResource key record = .ok { key, bytes := record } := by
  rw [Dictionary.readResource, ensureLimit_of_le h]
  rfl

/-- Every key of a dictionary, and then nothing. -/
theorem accessed_keyAt (d : Dictionary)
    : accessed (fun ordinal => .ok (d.keyAt ordinal)) (d.keys.length + 1) 0
        = d.keys.mapIdx (fun ordinal key => some (.ok { ordinal, key })) ++ [none] := by
  have hrest (n ordinal : Nat) (hn : ordinal + n = d.keys.length)
      : accessed (fun ordinal => .ok (d.keyAt ordinal)) (n + 1) ordinal
          = (d.keys.drop ordinal).mapIdx (fun i key => some (.ok { ordinal := ordinal + i, key }))
            ++ [none] := by
    induction n generalizing ordinal with
    | zero =>
      rw [List.drop_of_length_le (by omega), accessed, Dictionary.keyAt,
        List.getElem?_eq_none (by omega)]
      rfl
    | succ n ih =>
      have hlt : ordinal < d.keys.length := by omega
      rw [List.drop_eq_getElem_cons hlt, List.mapIdx_cons, accessed, Dictionary.keyAt,
        List.getElem?_eq_getElem hlt, Option.map_some, ih (ordinal + 1) (by omega)]
      simp only [List.cons_append, Nat.add_zero, Nat.add_assoc, Nat.add_comm 1]
  have h := hrest d.keys.length 0 (Nat.zero_add _)
  simpa using h

/-- What is read at an ordinal of a file is what was written there. -/
structure ReadsBack (file : MdictFile) (volume : Volume) (limit : Nat) (w : World) (s : Session)
    (ordinal : Nat)
    : Prop where
  key : ∃ s', file.keyAtOrdinal ordinal w s
    = (.ok (volume.entries[ordinal]?.map fun entry => ⟨ordinal, entry.1⟩), s')
  missing : volume.entries[ordinal]? = none →
    (∃ s', MdxFile.entryAt ⟨file⟩ ordinal w s = (.ok none, s'))
      ∧ ∃ s', MddFile.resourceAt ⟨file⟩ ordinal w s = (.ok none, s')
  resource : ∀ key record, volume.entries[ordinal]? = some (key, record) → record.length ≤ limit →
    ∃ s', MddFile.resourceAt ⟨file⟩ ordinal w s = (.ok (some ⟨⟨ordinal, key⟩, record⟩), s')
  entry : ∀ key text, volume.entries[ordinal]? = some (key, volume.encoding.encode text) →
    volume.kind = .mdx → 3 * ((volume.encoding.encode text).length + 1) ≤ 2 * limit →
      ∃ s', MdxFile.entryAt ⟨file⟩ ordinal w s = (.ok (some ⟨⟨ordinal, key⟩, trimNul text⟩), s')

/-- A record is no longer than the file. -/
theorem Volume.Fits.length_record (hfits : volume.Fits limits) {key : Str} {record : Bytes}
    (h : (key, record) ∈ volume.entries)
    : 64 * record.length < u64Bound := by
  have hrecord : record.length ≤ volume.recordBlocks.flatten.length := by
    rw [volume.recordBlocks_flatten, List.flatMap_def]
    have hmem : record ∈ volume.entries.map (·.2) := List.mem_map.mpr ⟨_, h, rfl⟩
    exact (List.sublist_flatten_of_mem hmem).length_le
  have hblocks (blocks : List Bytes)
      : blocks.flatten.length ≤ ((blocks.map envelope).flatten).length := by
    induction blocks with
    | nil => exact Nat.le_refl 0
    | cons block blocks ih =>
      rw [List.map_cons, List.flatten_cons, List.flatten_cons, List.length_append,
        List.length_append, length_envelope]
      omega
  have hpart := @Volume.length_le_of_mem volume volume.recordBlockBytes (by simp [Volume.sections])
  have hlt := hfits.length
  have hle := hblocks volume.recordBlocks
  rw [Volume.recordBlockBytes] at hpart
  omega

theorem readsBack (hopen : volume.IsOpen options header file) (hfits : volume.Fits options.limits)
    (hlower : ∀ character, (w.platform.toLowercase character).length ≤ 3)
    (h : Reachable file (·.platform = w.platform) index s) (hw : w.Quiet) (ordinal : Nat)
    : ReadsBack file volume options.limits.materializedRecordBytes w s ordinal := by
  obtain ⟨blocks, decoded, hblocks, hdecoded, hdictionary⟩ := hopen.represents hfits hlower
  have hkey := (h.answer fun I hI => keyAtOrdinal_answers hI hblocks ordinal).1 hw
  have hentry := (h.answer fun I hI => entryAt_dictionary hI hblocks hdecoded ordinal).1 hw
  have hresource := (h.answer fun I hI => resourceAt_dictionary hI hblocks hdecoded ordinal).1 hw
  rw [← @keyAt_dictionary file blocks decoded] at hkey
  rw [← hdictionary] at hkey hentry hresource
  rw [Dictionary.keyAt, Dictionary.keys, List.getElem?_map, Option.map_map] at hkey
  constructor
  . exact hkey
  . intro hmissing
    rw [Dictionary.entryAt, readAt_of_none hmissing] at hentry
    rw [Dictionary.resourceAt, readAt_of_none hmissing] at hresource
    exact ⟨hentry, hresource⟩
  . intro key record hpresent hlimit
    rw [Dictionary.resourceAt, readAt_of_some hpresent, readResource_of_le hlimit] at hresource
    exact hresource
  . intro key text hpresent hkind hlimit
    have hlen := hfits.length_record (List.mem_of_getElem? hpresent)
    have htext := @readText_encode w.platform (volume.dictionary header options.limits) _ _
      (by rw [Volume.dictionary, hkind]) hlimit hlen
    rw [Dictionary.entryAt, readAt_of_some hpresent, Dictionary.readEntry, htext] at hentry
    exact hentry

/--
A file that was written within the limits opens, whatever its version, its kind and its blocks, and
after any history of calls iterating and reading at any ordinal give back what was written.
-/
theorem written_reads_back (hfits : volume.Fits options.limits)
    (hdeclares : volume.Declares options.limits header)
    (hlower : ∀ character, (p.toLowercase character).length ≤ 3)
    : ∃ file, file.len = volume.entries.length
      ∧ (∀ w s, w.platform = p → w.Quiet →
          ∃ s', MdictFile.open volume.bytes volume.kind options w s = (.ok file, s'))
      ∧ ∀ w index s, w.platform = p → w.Quiet → Reachable file (·.platform = p) index s →
        (∃ s', items (KeyIter.next file) (volume.entries.length + 1) .new w s
          = (.ok ((volume.entries.map (·.1)).mapIdx (fun ordinal key => some (.ok ⟨ordinal, key⟩))
            ++ [none]), s'))
        ∧ ∀ ordinal, ReadsBack file volume options.limits.materializedRecordBytes w s ordinal := by
  obtain ⟨file, hopens, hopen⟩ := hfits.open hdeclares p
  have hlayout : file.len = volume.entries.length := by
    rw [MdictFile.len, hopen.layout]
    rfl
  refine ⟨file, hlayout, ?_, ?_⟩
  . rintro w s rfl hw
    have hanswers := Answers.of_yields (I := fun _ => True) hopens rfl fun _ _ h => h
    obtain ⟨s', hrun, -⟩ := hanswers.quiet hw trivial
    exact ⟨s', hrun⟩
  rintro w index s rfl hw hreach
  refine ⟨?_, readsBack hopen hfits hlower hreach hw⟩
  obtain ⟨blocks, decoded, hblocks, hdecoded, hdictionary⟩ := hopen.represents hfits hlower
  have hitems := (hreach.answer fun I hI => (@nextKey_stepsThrough _ _ _ _ decoded hw hI
    hblocks).items (volume.entries.length + 1) (show RowIter.IsAt file w.platform (some 0) .new from
      RowIter.standsAt_new)).1 hw
  rw [← hdictionary] at hitems
  have hkeys := accessed_keyAt (volume.dictionary header options.limits)
  rw [Dictionary.keys, List.length_map] at hkeys
  obtain ⟨s', hrun⟩ := hitems
  exact ⟨s', hrun.trans (congrArg (fun found => (Except.ok found, s')) hkeys)⟩

namespace Sample

/-- Three entries in two key blocks; the record of the first is cut in two. -/
def written : Volume where
  version := .v1
  kind := .mdx
  encoding := .utf8
  xml := "<Dictionary GeneratedByEngineVersion=\"1.2\" Encoding=\"UTF-8\"/>".toList
  keyBlocks := [[(['a'], [120, 0]), (['A'], [])], [(['b'], [121])]]
  recordBlocks := [[120], [], [0, 121]]
  encoding_eq := by decide
  keyBlocks_ne_nil := by decide
  keys_terminated := by decide
  recordBlocks_flatten := rfl

theorem written_fits : written.Fits OpenOptions.new.limits where
  length := by decide +kernel
  narrow := by decide +kernel
  xml := by decide +kernel
  xmlLimit := by decide +kernel
  summaries := by decide +kernel
  keywordIndex := by decide +kernel
  keyMetadata := by decide +kernel
  keyBlockEntries := by decide +kernel
  recordIndex := by decide +kernel
  recordMetadata := by decide +kernel
  payloads := by decide +kernel

/-- What the checks of the header come to. -/
def declares (volume : Volume) (limits : Limits) : Option Header :=
  let text := Str.trim (Str.trimMatches (· == Char.ofNat 0) volume.xml)
  match parseSingleTag text limits with
  | .error _ => none
  | .ok (tagName, attributes) =>
    match buildHeaderSection volume.kind (Unicode.utf16le volume.xml).length text tagName attributes
      0 with
    | .error _ => none
    | .ok parsed =>
      if parsed.header.encrypted = 0
          ∧ declaredMajorVersion parsed.header.generatedByEngineVersion
            "malformed GeneratedByEngineVersion" = .ok volume.version.major
          ∧ declaredMajorVersion parsed.header.requiredEngineVersion
            "malformed RequiredEngineVersion" = .ok volume.version.major
          ∧ validateVersionRelationship volume.version.major volume.version.major = .ok ()
          ∧ TextEncoding.forKeys volume.kind parsed.header = .ok volume.encoding.text then
        some parsed.header
      else
        none

theorem declares_of (h : declares volume limits = some header) : volume.Declares limits header := by
  unfold declares at h
  dsimp only at h
  split at h
  . contradiction
  . next tagName attributes htag =>
    split at h
    . contradiction
    . next parsed hparsed =>
      split at h
      . next hchecks =>
        obtain ⟨hplain, hgenerated, hrequired, hrelationship, hencoding⟩ := hchecks
        cases h
        exact ⟨⟨tagName, attributes, parsed, htag, hparsed, rfl⟩, hplain, hgenerated,
          ⟨_, hrequired, hrelationship⟩, hencoding⟩
      . contradiction

theorem written_declares : ∃ header, written.Declares OpenOptions.new.limits header := by
  have h : (declares written OpenOptions.new.limits).isSome = true := by decide +kernel
  obtain ⟨header, hheader⟩ := Option.isSome_iff_exists.mp h
  exact ⟨header, declares_of hheader⟩

theorem length_toLowercase (character : Char)
    : (world.platform.toLowercase character).length ≤ 3 :=
  show 1 ≤ 3 by decide

end Sample

/-- The first entry of a small file is read back without its trailing NUL. -/
theorem written_reads_back_sample
    : ∃ file s', MdictFile.open Sample.written.bytes .mdx .new Sample.world .fresh = (.ok file, s')
        ∧ ∃ s'', MdxFile.entryAt ⟨file⟩ 0 Sample.world .fresh
          = (.ok (some ⟨⟨0, ['a']⟩, ['x']⟩), s'') := by
  obtain ⟨header, hdeclares⟩ := Sample.written_declares
  obtain ⟨file, -, hopens, hreads⟩ := written_reads_back Sample.written_fits hdeclares
    Sample.length_toLowercase
  obtain ⟨s', hopen⟩ := hopens _ .fresh rfl Sample.quiet
  obtain ⟨s'', hentry⟩ := ((hreads _ none .fresh rfl Sample.quiet (.opened [])).2 0).entry ['a']
    ['x', Char.ofNat 0] rfl rfl (by decide)
  exact ⟨file, s', hopen, s'', hentry⟩

end Mdict
