import Mdict.Lemmas.Iter
import Mdict.Lemmas.Reachable

/-!
This module contains what a dictionary that verifies no checksums answers: whatever one that verifies
them does, unless an earlier failure is in its way.
-/

namespace Mdict

open Effect

/-- Without its checksum a stream whose checksum matches is decompressed as with it. -/
def Platform.IgnoresChecksum (p : Platform) : Prop :=
  ∀ payload len, (p.inflate payload len false).status = .done →
    p.inflate payload len true = p.inflate payload len false

/--
Two worlds with the same third-party code, of which the second hinders nothing, and invariants that
do not look at the record of events.
-/
structure Ground (w w' : World) (I J : Session → Prop) : Prop where
  platform_eq : w'.platform = w.platform
  quiet : w'.Quiet
  left : LogInvariant I
  right : LogInvariant J

namespace Ground

variable {w w' : World} {I J : Session → Prop} {α β : Type} {G : β → Prop}

theorem of_yields (h : Ground w w' I J) {x y : Exec α} {r r' : Except Error α}
    (hx : Yields w.platform x r) (hy : Yields w'.platform y r') (hr : ∀ a, r = .ok a → r' = .ok a)
    : Follows.Always w w' I J x y := by
  intro s t a s' hs ht hrun _
  obtain ⟨events, hxs | ⟨e, -, hxs⟩⟩ := hx w s rfl
  . rw [hxs, Prod.mk.injEq] at hrun
    obtain ⟨rfl, rfl⟩ := hrun
    obtain ⟨events', hyt | ⟨e, he, -⟩⟩ := hy w' t rfl
    . rw [hr a rfl] at hyt
      exact ⟨h.left s events hs, _, hyt, h.right t events' ht⟩
    . exact absurd he (not_interrupted h.quiet)
  . rw [hxs] at hrun
    cases hrun

theorem reserve (h : Ground w w' I J) {bytes : Nat} {context : String}
    : Follows.Always w w' I J (Exec.reserve bytes context) (Exec.reserve bytes context) :=
  h.of_yields .reserve .reserve fun _ h => h

theorem log (h : Ground w w' I J) {event : Event}
    : Follows.Always w w' I J (Exec.log event) (Exec.log event) :=
  h.of_yields .log .log fun _ h => h

theorem io (h : Ground w w' I J) : Follows.Always w w' I J Exec.io Exec.io :=
  h.of_yields .io .io fun _ h => h

theorem platform_bind (h : Ground w w' I J) {f g : Platform → Exec β}
    (hf : Follows w w' I J G (f w.platform) (g w.platform))
    : Follows w w' I J G (Exec.platform >>= f) (Exec.platform >>= g) := by
  intro s t b s' hs ht hrun hb
  obtain ⟨hs', t', hgt, ht'⟩ := hf s t b s' hs ht hrun hb
  refine ⟨hs', t', ?_, ht'⟩
  change g w'.platform w' t = _
  rw [h.platform_eq]
  exact hgt

theorem readExactAt (h : Ground w w' I J) {source : FileSource} {offset len : Nat}
    {context : String}
    : Follows.Always w w' I J (source.readExactAt offset len context)
        (source.readExactAt offset len context) :=
  .bind .same fun _ => .bind h.log fun _ => .bind h.io fun _ => .pure

end Ground

variable {w w' : World} {I J : Session → Prop}

/-! ## Blocks -/

theorem verifyChecksum_skip {policy : ChecksumPolicy} {context : String} {bytes : Bytes}
    {expected : Nat}
    : ∀ a, verifyChecksum policy context bytes expected = .ok a →
        verifyChecksum .skip context bytes expected = .ok a :=
  fun _ _ => rfl

theorem decodeZlibBlock_follows (h : Ground w w' I J) (hp : w.platform.IgnoresChecksum)
    {context : String} {payload : Bytes} {len : Nat} {policy : ChecksumPolicy}
    : Follows.Always w w' I J (decodeZlibBlock w.platform context payload len policy)
        (decodeZlibBlock w.platform context payload len .skip) := by
  have hsame {policy : ChecksumPolicy}
      : Follows.Always w w' I J (decodeZlibBlock w.platform context payload len policy)
          (decodeZlibBlock w.platform context payload len policy) :=
    .bind h.log fun _ => .bind .same fun _ => .bind .same fun _ => .bind .same fun _ => .pure
  cases policy with
  | skip => exact hsame
  | verify =>
    by_cases hdone : (w.platform.inflate payload len false).status = .done
    . have heq : decodeZlibBlock w.platform context payload len .skip
          = decodeZlibBlock w.platform context payload len .verify := by
        change (Exec.log _ >>= fun _ => _) = (Exec.log _ >>= fun _ => _)
        rw [show (ChecksumPolicy.skip == .skip) = true from rfl, hp payload len hdone]
        rfl
      rw [heq]
      exact hsame
    . apply Follows.bind h.log
      intro _
      apply Follows.liftM_bind
      intro _ hstatus
      rw [failIf_eq_ok] at hstatus
      exact absurd hdone hstatus

theorem decodePayload_follows (h : Ground w w' I J) (hp : w.platform.IgnoresChecksum)
    {compType : CompressionType} {context : String} {payload : Bytes} {len : Nat}
    {policy : ChecksumPolicy}
    : Follows.Always w w' I J (decodePayload w.platform compType context payload len policy)
        (decodePayload w.platform compType context payload len .skip) := by
  cases compType with
  | none => exact .bind .same fun _ => .bind h.log fun _ => .pure
  | zlib => exact decodeZlibBlock_follows h hp
  | lzo =>
    unfold decodePayload decodeLzoBlock
    cases w.platform.lzo with
    | none => exact .fail
    | some decompress =>
      exact .bind h.log fun _ => .bind .same fun _ => .bind .same fun _ => .pure

/-- A block that passes its checksum is decoded to the same bytes without it. -/
theorem decodeBlock_follows (h : Ground w w' I J) (hp : w.platform.IgnoresChecksum)
    {context : String} {block : Bytes} {len : Nat} {limits : Limits} {policy : ChecksumPolicy}
    : Follows.Always w w' I J (decodeBlock context block len limits policy)
        (decodeBlock context block len limits .skip) :=
  .bind .same fun _ => .bind .same fun _ => .bind .same fun _ => .bind .same fun _ =>
    h.platform_bind <| .bind (decodePayload_follows h hp) fun _ => .bind .same fun _ =>
    .bind (.liftM verifyChecksum_skip) fun _ => .pure

/-! ## Opening -/

theorem parseHeaderBytesWithLimits_follows (h : Ground w w' I J) {bytes : Bytes}
    {kind : ContainerKind} {limits : Limits} {policy : ChecksumPolicy}
    : Follows.Always w w' I J (parseHeaderBytesWithLimits bytes kind limits policy)
        (parseHeaderBytesWithLimits bytes kind limits .skip) :=
  .bind .same fun (_, _) => .bind .same fun _ => .bind .same fun _ => .bind .same fun _ =>
    .bind .same fun _ => .bind h.reserve fun _ => .bind .same fun (_, _) =>
    .bind .same fun (_, _) => .bind (.liftM verifyChecksum_skip) fun _ => h.platform_bind <|
    .bind .same fun _ => .bind .same fun (_, _) => .same

theorem parseHeader_follows (h : Ground w w' I J) {source : FileSource} {kind : ContainerKind}
    {limits : Limits} {policy : ChecksumPolicy}
    : Follows.Always w w' I J (parseHeader source kind limits policy)
        (parseHeader source kind limits .skip) :=
  .bind h.reserve fun _ => .bind h.readExactAt fun _ => .bind .same fun (_, _) =>
    .bind .same fun _ => .bind .same fun _ => .bind .same fun _ => .bind .same fun _ =>
    .bind .same fun _ => .bind h.reserve fun _ => .bind h.readExactAt fun _ =>
    parseHeaderBytesWithLimits_follows h

/-- Without verification the grammar of the keyword index is chosen as with it. -/
theorem V2.detectKeywordIndexLayout_skip {header checksumBytes : Bytes} {policy : ChecksumPolicy}
    {layout : V2.KeywordIndexLayout}
    (h : V2.detectKeywordIndexLayout header checksumBytes policy = .ok layout)
    : V2.detectKeywordIndexLayout header checksumBytes .skip = .ok layout := by
  cases policy with
  | skip => exact h
  | verify =>
    unfold V2.detectKeywordIndexLayout at h ⊢
    dsimp only at h ⊢
    by_cases hcanonical : adler32 header = Bytes.toBE checksumBytes
    . rwa [if_pos hcanonical] at h ⊢
    . by_cases hlegacy : adler32 header = Bytes.toLE checksumBytes
      . rwa [if_neg hcanonical, if_pos hlegacy] at h ⊢
      . rw [if_neg hcanonical, if_neg hlegacy] at h
        contradiction

theorem V1.parseKeywordSection_follows (h : Ground w w' I J) {source : FileSource}
    {header : Header} {keyEncoding : TextEncoding} {offset : Nat} {options : OpenOptions}
    : Follows.Always w w' I J (V1.parseKeywordSection source header keyEncoding offset options)
        (V1.parseKeywordSection source header keyEncoding offset
          { options with checksumPolicy := .skip }) :=
  .bind .same fun _ => .bind .same fun _ => .bind h.reserve fun _ => .bind h.readExactAt fun _ =>
    .bind .same fun (_, _) => .bind .same fun (_, _) => .bind .same fun (_, _) =>
    .bind .same fun (_, _) => .bind .same fun _ => .bind .same fun _ => .bind .same fun _ =>
    .bind .same fun _ => .bind .same fun _ => .bind .same fun _ => .bind .same fun _ =>
    .bind .same fun _ => .bind h.reserve fun _ => .bind h.readExactAt fun _ =>
    h.platform_bind <| .bind .same fun _ => .bind .same fun _ => .bind h.reserve fun _ =>
    .bind .same fun _ => .bind .same fun _ => .bind .same fun _ => .bind .same fun _ =>
    .bind .same fun _ => .bind (.forM _ fun _ => .same) fun _ => .pure

theorem V2.parseKeywordSection_follows (h : Ground w w' I J) (hp : w.platform.IgnoresChecksum)
    {source : FileSource} {header : Header} {keyEncoding : TextEncoding} {offset : Nat}
    {options : OpenOptions}
    : Follows.Always w w' I J (V2.parseKeywordSection source header keyEncoding offset options)
        (V2.parseKeywordSection source header keyEncoding offset
          { options with checksumPolicy := .skip }) :=
  .bind h.reserve fun _ => .bind h.readExactAt fun _ => .bind .same fun _ =>
    .bind (.liftM fun _ => detectKeywordIndexLayout_skip) fun _ =>
    .bind .same fun (_, _) => .bind .same fun (_, _) => .bind .same fun (_, _) =>
    .bind .same fun (_, _) => .bind .same fun (_, _) =>
    .bind .same fun _ => .bind .same fun _ => .bind .same fun _ => .bind .same fun _ =>
    .bind .same fun _ => .bind .same fun _ => .bind .same fun _ => .bind .same fun _ =>
    .bind .same fun _ => .bind .same fun _ => .bind h.reserve fun _ =>
    .bind h.readExactAt fun _ => .bind .same fun _ => .bind .same fun _ =>
    .bind h.reserve fun _ => h.platform_bind <| .bind .same fun _ => .bind .same fun _ =>
    .bind h.reserve fun _ => .bind (decodeBlock_follows h hp) fun _ =>
    .bind .same fun _ => .bind .same fun _ => .bind .same fun _ => .bind .same fun _ =>
    .bind .same fun _ => .bind (.forM _ fun _ => .same) fun _ => .pure

theorem parseRecordSectionWith_follows (h : Ground w w' I J) {headerLen rowLen : Nat}
    {readField : ReadField} {source : FileSource} {offset : Nat} {limits : Limits}
    : Follows.Always w w' I J
        (parseRecordSectionWith headerLen rowLen readField source offset limits)
        (parseRecordSectionWith headerLen rowLen readField source offset limits) :=
  .bind h.reserve fun _ => .bind h.readExactAt fun _ => .bind .same fun (_, _) =>
    .bind .same fun (_, _) => .bind .same fun (_, _) => .bind .same fun (_, _) =>
    .bind .same fun (_, _) => .bind .same fun _ => .bind .same fun _ => .bind .same fun _ =>
    .bind .same fun _ => .bind h.reserve fun _ => .bind .same fun _ => .bind h.reserve fun _ =>
    .bind h.readExactAt fun _ => .bind .same fun (_, _) => .bind .same fun _ =>
    .bind .same fun _ => .bind .same fun _ => .bind .same fun _ => .pure

theorem parseLayoutWith_follows (h : Ground w w' I J) {wire : WireOperations}
    {parseKeywordSection : FileSource → Header → TextEncoding → Nat → OpenOptions
      → Exec KeywordSection}
    {parseRecordSection : FileSource → Nat → Limits → Exec RecordSection}
    {source : FileSource} {headerSection : HeaderSection} {kind : ContainerKind}
    {options : OpenOptions}
    (hkeys : ∀ keyEncoding, Follows.Always w w' I J
      (parseKeywordSection source headerSection.header keyEncoding
        headerSection.keywordSectionOffset options)
      (parseKeywordSection source headerSection.header keyEncoding
        headerSection.keywordSectionOffset { options with checksumPolicy := .skip }))
    (hrecords : ∀ offset, Follows.Always w w' I J
      (parseRecordSection source offset options.limits)
      (parseRecordSection source offset options.limits))
    : Follows.Always w w' I J
        (parseLayoutWith wire parseKeywordSection parseRecordSection source headerSection kind
          options)
        (parseLayoutWith wire parseKeywordSection parseRecordSection source headerSection kind
          { options with checksumPolicy := .skip }) :=
  .bind h.reserve fun _ => .bind .same fun _ => .bind .same fun _ => .bind (hkeys _) fun _ =>
    .bind h.reserve fun _ => .bind (hrecords _) fun _ => .bind h.reserve fun _ =>
    .bind .same fun _ => .pure

theorem WireVersion.parseLayout_follows (h : Ground w w' I J)
    (hp : w.platform.IgnoresChecksum) {version : WireVersion} {source : FileSource}
    {headerSection : HeaderSection} {kind : ContainerKind} {options : OpenOptions}
    : Follows.Always w w' I J (version.parseLayout source headerSection kind options)
        (version.parseLayout source headerSection kind
          { options with checksumPolicy := .skip }) := by
  cases version with
  | v1 =>
    exact parseLayoutWith_follows h (fun _ => V1.parseKeywordSection_follows h)
      fun _ => parseRecordSectionWith_follows h
  | v2 =>
    exact parseLayoutWith_follows h (fun _ => V2.parseKeywordSection_follows h hp)
      fun _ => parseRecordSectionWith_follows h

theorem openLayout_follows (h : Ground w w' I J) (hp : w.platform.IgnoresChecksum)
    {source : FileSource} {kind : ContainerKind} {options : OpenOptions}
    : Follows.Always w w' I J (openLayout source kind options)
        (openLayout source kind { options with checksumPolicy := .skip }) :=
  .bind (parseHeader_follows h) fun _ => .bind .same fun _ => .bind .same fun _ =>
    .bind .same fun _ => .bind .same fun _ => .bind (WireVersion.parseLayout_follows h hp) fun _ =>
    .same

namespace MdictFile

/-- The same dictionary without verification of checksums. -/
def skipping (file : MdictFile) : MdictFile := { file with checksumPolicy := .skip }

variable {file : MdictFile}

/-- What opens with verification opens without, to the same dictionary but for the policy. -/
theorem open_skipping {bytes : Bytes} {kind : ContainerKind} {options : OpenOptions}
    (hp : w.platform.IgnoresChecksum) (hw : w'.platform = w.platform) (hquiet : w'.Quiet)
    {s s' : Session} (hrun : MdictFile.open bytes kind options w s = (.ok file, s')) (t : Session)
    : ∃ t', MdictFile.open bytes kind { options with checksumPolicy := .skip } w' t
        = (.ok file.skipping, t') := by
  have hground : Ground w w' (fun _ => True) (fun _ => True) :=
    ⟨hw, hquiet, fun _ _ _ => trivial, fun _ _ _ => trivial⟩
  simp only [MdictFile.open, Prog.bind_eq_ok, liftM_eq_ok, Prog.pure_apply, Prod.mk.injEq,
    Except.ok.injEq] at hrun ⊢
  obtain ⟨source, _, ⟨hsource, rfl⟩, layout, s1, hlayout, rfl, rfl⟩ := hrun
  obtain ⟨-, t', hlayout', -⟩ :=
    openLayout_follows hground hp s t layout s1 trivial trivial hlayout trivial
  exact ⟨t', source, t, ⟨hsource, rfl⟩, layout, t', hlayout', rfl, rfl⟩

/-! ## Key blocks -/

theorem findKeyBlockByOrdinal_go_skipping (file : MdictFile) (ordinal left right : Nat)
    : findKeyBlockByOrdinal.go file.skipping ordinal left right
      = findKeyBlockByOrdinal.go file ordinal left right := by
  fun_induction findKeyBlockByOrdinal.go file ordinal left right with
  | case1 left right hlt mid ihBelow ihAbove =>
    rw [findKeyBlockByOrdinal.go, if_pos hlt]
    simp only [ihBelow, ihAbove, mid]
    rfl
  | case2 left right hge => rw [findKeyBlockByOrdinal.go, if_neg hge]

theorem keyPosition_skipping (file : MdictFile) (ordinal : Nat)
    : file.skipping.keyPosition ordinal = file.keyPosition ordinal := by
  have hfind : file.skipping.findKeyBlockByOrdinal ordinal = file.findKeyBlockByOrdinal ordinal :=
    findKeyBlockByOrdinal_go_skipping file ordinal 0 file.layout.keyBlocks.length
  simp only [keyPosition, hfind]
  rfl

theorem steady_follows (h : Ground w w' I J) {α : Type} {x : Exec α} (hx : Steady w.platform x)
    : Follows.Always w w' I J x x := by
  have hx' := hx
  rw [← h.platform_eq] at hx'
  refine h.of_yields hx.yields hx'.yields fun a ha => ?_
  rw [h.platform_eq]
  exact ha

theorem decodeKeyBlockUncached_follows (h : Ground w w' I J)
    (hp : w.platform.IgnoresChecksum) (index : Nat)
    : Follows.Always w w' I J (file.decodeKeyBlockUncached index)
        (file.skipping.decodeKeyBlockUncached index) :=
  .bind .same fun _ => .bind .same fun _ => .bind .same fun _ => .bind .same fun _ =>
    h.platform_bind <| .bind .same fun _ => .bind .same fun _ => .bind .same fun _ =>
    .bind h.reserve fun _ => .bind h.reserve fun _ => .bind h.reserve fun _ =>
    .bind h.readExactAt fun _ => .bind (decodeBlock_follows h hp) fun _ => .bind .same fun _ =>
    .bind .same fun _ => .bind .same fun _ =>
    .bind (steady_follows h (file.boundariesMatch_steady w.platform _ _ _)) fun _ =>
    .bind .same fun _ => .pure

theorem decodeRecordBlockUncached_follows (h : Ground w w' I J)
    (hp : w.platform.IgnoresChecksum) (index : Nat)
    : Follows.Always w w' I J (file.decodeRecordBlockUncached index)
        (file.skipping.decodeRecordBlockUncached index) :=
  .bind .same fun _ => .bind .same fun _ => .bind .same fun _ => .bind h.reserve fun _ =>
    .bind h.reserve fun _ => .bind h.readExactAt fun _ => decodeBlock_follows h hp

theorem outcome_follows {p : Platform} {α : Type} {x y : Exec α} {a : α}
    (h : ∀ {I J : Session → Prop}, Ground (.calm p) (.calm p) I J →
      Follows.Always (.calm p) (.calm p) I J x y)
    (hx : outcome p x = .ok a)
    : outcome p y = .ok a := by
  have hground : Ground (.calm p) (.calm p) (fun _ => True) (fun _ => True) :=
    ⟨rfl, World.calm_quiet p, fun _ _ _ => trivial, fun _ _ _ => trivial⟩
  obtain ⟨-, t', hrun, -⟩ := h hground .fresh .fresh a (x (.calm p) .fresh).2 trivial trivial
    (Prod.ext hx rfl) trivial
  rw [outcome, hrun]

variable {p : Platform} {index : Nat}

theorem ownRows_skipping (hp : p.IgnoresChecksum) {rows : List DecodedKeyRow}
    (h : file.ownRows p index = .ok rows)
    : file.skipping.ownRows p index = .ok rows :=
  outcome_follows (fun hground => decodeKeyBlockUncached_follows hground hp index) h

theorem ownRecords_skipping (hp : p.IgnoresChecksum) {data : Bytes}
    (h : file.ownRecords p index = .ok data)
    : file.skipping.ownRecords p index = .ok data :=
  outcome_follows (fun hground => decodeRecordBlockUncached_follows hground hp index) h

theorem freshRows_skipping (hp : p.IgnoresChecksum) {rows : List DecodedKeyRow}
    (h : file.freshRows p index = .ok rows)
    : file.skipping.freshRows p index = .ok rows := by
  rw [freshRows_eq_ok] at h ⊢
  refine ⟨ownRows_skipping hp h.1, fun previous hprevious => ?_⟩
  obtain ⟨before, hbefore, hjoins⟩ := h.2 previous hprevious
  exact ⟨before, ownRows_skipping hp hbefore, hjoins⟩

theorem decodesTo_skipping (hp : p.IgnoresChecksum) {blocks : List (List DecodedKeyRow)}
    (h : file.DecodesTo p blocks)
    : file.skipping.DecodesTo p blocks where
  length_eq := h.length_eq
  freshRows := fun index rows hrows => freshRows_skipping hp (h.freshRows index rows hrows)

/-- Every block before one that decodes with verification decodes without. -/
def KeepsBefore (file : MdictFile) (p : Platform) : Prop :=
  ∀ index rows, file.freshRows p index = .ok rows →
    ∀ origin < index, ∃ rows, file.skipping.freshRows p origin = .ok rows

/-- What it takes for a dictionary without verification to follow the one with verification. -/
structure SkipGround (file : MdictFile) (w w' : World) (I J : Session → Prop) : Prop
    extends Ground w w' I J where
  checksum : w.platform.IgnoresChecksum
  sound : file.Invariant w.platform I
  skipSound : file.skipping.Invariant w'.platform J
  kept : file.KeepsBefore w.platform

variable (h : file.SkipGround w w' I J)
include h

theorem decodeKeyBlock_follows (index : Nat)
    : Follows.Always w w' I J (file.decodeKeyBlock index)
        (file.skipping.decodeKeyBlock index) := by
  apply Follows.of_ensures (decodeKeyBlock_ensures h.sound index)
  intro rows hrows
  have hskip := freshRows_skipping h.checksum hrows
  apply (decodeKeyBlock_ensures h.skipSound index).mono
  . intro rows' hrows'
    rw [h.platform_eq, hskip] at hrows'
    injection hrows' with hrows'
    exact hrows'.symm
  . rintro e (he | ⟨origin, hle, he⟩)
    . exact not_interrupted h.quiet he
    . rw [h.platform_eq] at he
      by_cases heq : origin = index
      . rw [heq, hskip] at he
        contradiction
      . obtain ⟨_, hkept⟩ := h.kept index rows hrows origin (by omega)
        rw [hkept] at he
        contradiction

theorem decodeRecordBlock_follows (index : Nat)
    : Follows.Always w w' I J (file.decodeRecordBlock index)
        (file.skipping.decodeRecordBlock index) := by
  apply Follows.of_ensures (decodeRecordBlock_answers h.sound index)
    (Q := fun data => file.ownRecords w.platform index = .ok data)
  intro data hdata
  apply (decodeRecordBlock_answers h.skipSound index).mono
  . intro data' hdata'
    rw [h.platform_eq, ownRecords_skipping h.checksum hdata] at hdata'
    injection hdata' with hdata'
    exact hdata'.symm
  . rintro e (he | he)
    . exact not_interrupted h.quiet he
    . rw [h.platform_eq, ownRecords_skipping h.checksum hdata] at he
      contradiction

/-- A locator that was built with verification is built without. -/
theorem keyLocator_follows
    : Follows.Always w w' I J file.keyLocator file.skipping.keyLocator := by
  apply Follows.of_ensures (keyLocator_ensures h.sound)
  rintro _ ⟨blocks, hblocks, hfits, rfl⟩
  have hblocks' := decodesTo_skipping h.checksum hblocks
  rw [← h.platform_eq] at hblocks' hfits
  apply (keyLocator_answers h.skipSound hblocks' ⟨hfits.entries, hfits.bytes, hfits.text⟩).mono
  . rintro locator hlocator
    injection hlocator with hlocator
    rw [← hlocator, h.platform_eq]
    rfl
  . rintro e (he | he)
    . exact not_interrupted h.quiet he
    . contradiction

/-! ## Calls -/

theorem keyEntryAtOrdinal_follows (ordinal : Nat)
    : Follows.Always w w' I J (file.keyEntryAtOrdinal ordinal)
        (file.skipping.keyEntryAtOrdinal ordinal) := by
  have hposition := keyPosition_skipping file ordinal
  refine .ite .pure (.bind (.liftM fun _ hok => hposition.trans hok) fun (_, _) => ?_)
  exact .bind (decodeKeyBlock_follows h _) fun _ => .bind .same fun _ => .pure

theorem keyAtOrdinal_follows (ordinal : Nat)
    : Follows.Always w w' I J (file.keyAtOrdinal ordinal) (file.skipping.keyAtOrdinal ordinal) :=
  .bind (keyEntryAtOrdinal_follows h ordinal) fun hit => match hit with
    | none => .pure
    | some _ => .bind .same fun _ => .pure

theorem recordDescriptorFromHit_follows (hit : KeyBlockHit)
    : Follows.Always w w' I J (file.recordDescriptorFromHit hit)
        (file.skipping.recordDescriptorFromHit hit) := by
  refine .bind .same fun _ => .bind .same fun _ => .bind .same fun _ => .bind ?_ fun _ =>
    .bind .same fun _ => .pure
  unfold recordStop
  split
  . exact .pure
  . exact .ite (.bind (decodeKeyBlock_follows h _) fun _ => .bind .same fun _ => .pure) .pure

theorem recordAtOrdinal_follows (ordinal : Nat)
    : Follows.Always w w' I J (file.recordAtOrdinal ordinal)
        (file.skipping.recordAtOrdinal ordinal) :=
  .bind (keyEntryAtOrdinal_follows h ordinal) fun hit => match hit with
    | none => .pure
    | some hit => .bind (recordDescriptorFromHit_follows h hit) fun _ => .pure

theorem recordChunk_follows (cursor stop : Nat)
    : Follows.Always w w' I J (file.recordChunk cursor stop)
        (file.skipping.recordChunk cursor stop) :=
  .bind .same fun _ => .bind .same fun _ => .bind (decodeRecordBlock_follows h _) fun _ =>
    .bind .same fun _ => .bind .same fun _ => .bind .same fun _ => .bind .same fun _ =>
    .bind .same fun _ => .bind .same fun _ => .bind .same fun _ => .pure

theorem visitRecordSpanFrom_follows {β : Type} {visitor : β → Bytes → Exec β}
    (hvisitor : ∀ acc chunk, Follows.Always w w' I J (visitor acc chunk) (visitor acc chunk))
    (stop cursor : Nat) (acc : β)
    : Follows.Always w w' I J (file.visitRecordSpanFrom stop visitor cursor acc)
        (file.skipping.visitRecordSpanFrom stop visitor cursor acc) := by
  unfold visitRecordSpanFrom
  split
  . refine .bind (recordChunk_follows h cursor stop) fun (chunk, next) => ?_
    refine .bind (hvisitor acc chunk) fun acc => ?_
    split
    . exact .fail
    . exact visitRecordSpanFrom_follows hvisitor stop next acc
  . exact .pure
termination_by stop - cursor

theorem readRecordSpan_follows (start stop : Nat)
    : Follows.Always w w' I J (file.readRecordSpan start stop)
        (file.skipping.readRecordSpan start stop) :=
  .bind .same fun _ => .bind h.reserve fun _ => .bind .same fun _ =>
    visitRecordSpanFrom_follows h (fun _ _ => .pure) stop start []

theorem normalizedQuery_follows (query : Str) (context : String)
    : Follows.Always w w' I J (file.normalizedQuery query context)
        (file.skipping.normalizedQuery query context) :=
  h.platform_bind <| .bind .same fun _ => .bind .same fun _ => .bind h.reserve fun _ =>
    .bind .same fun _ => .pure

theorem rawExactAt_follows (locator : KeyLocator) (digest : Nat) (query : Str) (position : Nat)
    : Follows.Always w w' I J (file.rawExactAt locator digest query position)
        (file.skipping.rawExactAt locator digest query position) :=
  .bind .same fun _ => .bind .same fun _ => .ite .pure <|
    .bind (keyEntryAtOrdinal_follows h _) fun _ => .bind .same fun _ => .bind .same fun _ => .pure

theorem locateKeys_follows (query : Str)
    : Follows.Always w w' I J (file.locateKeys query) (file.skipping.locateKeys query) := by
  refine .bind (keyLocator_follows h) fun locator =>
    .bind (normalizedQuery_follows h query _) fun normalized => ?_
  cases locator.equalRange normalized with
  | none => exact .pure
  | some range =>
    refine .bind (.bind (.foldlM _ (fun _ _ => ?_) _) fun _ => .ite .pure .pure) fun exact => ?_
    . exact .bind (rawExactAt_follows h _ _ _ _) fun (_, _) => .pure
    . cases exact with
      | none => exact .pure
      | some exact => exact .pure

omit h

theorem keyRequests_skipping (file : MdictFile) (inputIndex : Nat) (ordinals : List Nat)
    : file.skipping.keyRequests inputIndex ordinals = file.keyRequests inputIndex ordinals := by
  induction ordinals generalizing inputIndex with
  | nil => rfl
  | cons ordinal ordinals ih =>
    simp only [keyRequests, ih, keyPosition_skipping]
    rfl

theorem fillVariants_follows {p : Platform} {query : Str} {wanted variantOffset : Nat}
    {sourceKey sourceKey' : Nat → Exec (Nat × Str)}
    (hkey : ∀ position, Follows.Always w w' I J (sourceKey position) (sourceKey' position))
    (positions : List Nat) (variantPosition : Nat) (ordinals : List Nat)
    : Follows.Always w w' I J
        (CaseVariants.fillVariants p query wanted variantOffset sourceKey positions
          variantPosition ordinals)
        (CaseVariants.fillVariants p query wanted variantOffset sourceKey' positions
          variantPosition ordinals) := by
  induction positions generalizing variantPosition ordinals with
  | nil => exact .pure
  | cons position positions ih =>
    exact .bind (hkey position) fun _ => .ite (.ite (.ite .pure (ih _ _)) (ih _ _)) (ih _ _)

include h

theorem fillBlocks_follows (requests : List KeyRequest) (results : List (Option KeyEntry))
    : Follows.Always w w' I J (file.fillBlocks results requests)
        (file.skipping.fillBlocks results requests) := by
  cases requests with
  | nil =>
    rw [fillBlocks, fillBlocks]
    exact .pure
  | cons request rest =>
    rw [fillBlocks, fillBlocks]
    refine .bind (decodeKeyBlock_follows h _) fun _ => .bind .same fun results => ?_
    exact fillBlocks_follows (rest.dropWhile (·.blockIndex == request.blockIndex)) results
termination_by requests.length
decreasing_by
  have := (List.dropWhile_sublist (l := rest) (·.blockIndex == request.blockIndex)).length_le
  simp only [List.length_cons]
  omega

theorem keysAtOrdinals_follows (ordinals : List Nat)
    : Follows.Always w w' I J (file.keysAtOrdinals ordinals)
        (file.skipping.keysAtOrdinals ordinals) := by
  have hrequests := keyRequests_skipping file 0 ordinals
  exact .bind (.liftM fun _ hok => hrequests.trans hok) fun _ => fillBlocks_follows h _ _

theorem locateKeyPage_follows (query : Str) (offset limit : Nat)
    : Follows.Always w w' I J (file.locateKeyPage query offset limit)
        (file.skipping.locateKeyPage query offset limit) := by
  refine .bind (keyLocator_follows h) fun locator =>
    .bind (normalizedQuery_follows h query _) fun normalized => ?_
  cases locator.equalRange normalized with
  | none => exact .pure
  | some range =>
    refine .bind .same fun _ => .bind .same fun _ => .bind h.reserve fun _ =>
      .bind (.foldlM _ (fun _ _ => ?_) _) fun _ =>
      .ite .pure (.bind (.mapM _ fun _ => .same) fun _ => .pure)
    exact .bind (rawExactAt_follows h _ _ _ _) fun (_, _) => .ite .same .pure

theorem locatePrefix_follows (keyPrefix : Str) (limit : Nat)
    : Follows.Always w w' I J (file.locatePrefix keyPrefix limit)
        (file.skipping.locatePrefix keyPrefix limit) :=
  .ite .pure (.bind (keyLocator_follows h) fun _ =>
    .bind (normalizedQuery_follows h keyPrefix _) fun _ => .pure)

theorem scanNormalizedKeys_follows {β : Type} (visit : β → Nat → Bytes → β × Bool) (acc : β)
    : Follows.Always w w' I J (file.scanNormalizedKeys visit acc)
        (file.skipping.scanNormalizedKeys visit acc) := by
  refine .bind (keyLocator_follows h) fun locator => ?_
  exact .pure

theorem selectPage_follows {candidateCount offset limit : Nat} {query : Str}
    {sourceKey sourceKey' : Nat → Exec (Nat × Str)}
    (hkey : ∀ position, Follows.Always w w' I J (sourceKey position) (sourceKey' position))
    : Follows.Always w w' I J
        (CaseVariants.selectPage file query candidateCount offset limit sourceKey)
        (CaseVariants.selectPage file.skipping query candidateCount offset limit sourceKey') := by
  refine .bind .same fun _ => .bind .same fun _ => .bind h.reserve fun _ => h.platform_bind <|
    .bind (.foldlM _ (fun _ _ => .bind (hkey _) fun _ => .pure) _) fun _ => .ite .pure ?_
  exact .ite (.bind (fillVariants_follows hkey _ _ _) fun _ => .pure) .pure

theorem locateCaseVariants_follows (query : Str) (offset limit : Nat)
    : Follows.Always w w' I J (file.locateCaseVariants query offset limit)
        (file.skipping.locateCaseVariants query offset limit) := by
  refine .bind (keyLocator_follows h) fun locator =>
    .bind (normalizedQuery_follows h query _) fun normalized => ?_
  cases locator.equalRange normalized with
  | none => exact .pure
  | some range =>
    refine selectPage_follows h fun _ => .bind .same fun _ => ?_
    exact .bind (keyAtOrdinal_follows h _) fun _ => .bind .same fun _ => .pure

end MdictFile

/-! ## Iterators -/

/-- A step of an iterator that does not end in a failure. -/
def Stepped {α ι : Type} (result : Option (Except Error α) × ι) : Prop :=
  ∀ e, result.1 ≠ some (.error e)

/-- A step that ends in a failure whenever the one before it does. -/
theorem stepped_bind {α β ι κ : Type} {x y : Exec (Option (Except Error α) × ι)}
    {f g : Option (Except Error α) × ι → Exec (Option (Except Error β) × κ)}
    (hx : Follows w w' I J Stepped x y)
    (hnone : ∀ iter, Follows w w' I J Stepped (f (none, iter)) (g (none, iter)))
    (hok : ∀ a iter, Follows w w' I J Stepped (f (some (.ok a), iter)) (g (some (.ok a), iter)))
    (herror : ∀ e iter s b s', f (some (.error e), iter) w s = (.ok b, s') → ¬Stepped b)
    : Follows w w' I J Stepped (x >>= f) (y >>= g) := by
  refine .bind_of hx ?_ ?_
  . rintro ⟨_ | e | a, iter⟩ hstepped
    . exact hnone iter
    . exact absurd rfl (hstepped e)
    . exact hok a iter
  . rintro ⟨_ | e | a, iter⟩ hnot
    . exact absurd (fun e h => by contradiction) hnot
    . exact herror e iter
    . exact absurd (fun e h => by injection h; contradiction) hnot

variable {file : MdictFile} (h : file.SkipGround w w' I J)
include h

theorem RowIter.advance_follows (iter : RowIter)
    : Follows w w' I J Stepped (iter.advance file) (iter.advance file.skipping) := by
  rw [RowIter.advance, RowIter.advance.eq_def file.skipping]
  refine .of_ite .pure fun hlt => ?_
  cases hcurrent : iter.currentBlock with
  | some entries =>
    simp only
    exact .ite (advance_follows _) .pure
  | none =>
    simp only
    apply Follows.attempt_bind (MdictFile.decodeKeyBlock_follows h iter.blockIndex)
    . intro entries
      exact .ite (advance_follows _) .pure
    . rintro e s _ _ ⟨⟩ hstepped
      exact hstepped e rfl
termination_by file.keyBlockCount - iter.blockIndex

theorem KeyIter.next_follows (iter : RowIter)
    : Follows w w' I J Stepped (KeyIter.next file iter) (KeyIter.next file.skipping iter) := by
  refine .ite .pure (stepped_bind (RowIter.advance_follows h iter) ?_ ?_ ?_)
  . intro iter
    exact .pure
  . intro position iter
    exact .pure
  . rintro e iter s _ _ ⟨⟩ hstepped
    exact hstepped e rfl

theorem RecordIter.next_follows (iter : RowIter)
    : Follows w w' I J Stepped (RecordIter.next file iter) (RecordIter.next file.skipping iter) := by
  refine .ite .pure (stepped_bind (RowIter.advance_follows h iter) ?_ ?_ ?_)
  . intro iter
    exact .pure
  . intro position iter
    apply Follows.attempt_bind (MdictFile.recordDescriptorFromHit_follows h _)
    . intro descriptor
      exact .pure
    . rintro e s _ _ ⟨⟩ hstepped
      exact hstepped e rfl
  . rintro e iter s _ _ ⟨⟩ hstepped
    exact hstepped e rfl

theorem MdxFile.readEntry_follows (descriptor : MdictFile.RecordDescriptor)
    : Follows.Always w w' I J (MdxFile.readEntry ⟨file⟩ descriptor)
        (MdxFile.readEntry ⟨file.skipping⟩ descriptor) := by
  refine .bind .same fun _ => .bind (.bind .same fun _ => .bind .same fun _ => .bind .same fun _ =>
    h.platform_bind <| .bind .same fun _ => .bind .same fun _ => .bind .same fun _ => h.reserve)
    fun _ => ?_
  exact .bind (MdictFile.readRecordSpan_follows h _ _) fun _ => h.platform_bind <|
    .bind .same fun _ => .bind .same fun _ => .pure

theorem readAt_follows {β : Type} {read read' : MdictFile.RecordDescriptor → Exec β}
    (hread : ∀ descriptor, Follows.Always w w' I J (read descriptor) (read' descriptor))
    (ordinal : Nat)
    : Follows.Always w w' I J (readAt file read ordinal) (readAt file.skipping read' ordinal) :=
  .bind (MdictFile.recordAtOrdinal_follows h ordinal) fun descriptor => match descriptor with
    | none => .pure
    | some _ => .bind (hread _) fun _ => .pure

theorem MdxFile.entryAt_follows (ordinal : Nat)
    : Follows.Always w w' I J (MdxFile.entryAt ⟨file⟩ ordinal)
        (MdxFile.entryAt ⟨file.skipping⟩ ordinal) := by
  rw [MdxFile.entryAt_eq, MdxFile.entryAt_eq]
  exact readAt_follows h (MdxFile.readEntry_follows h) ordinal

theorem MdxFile.lookup_follows (query : Str)
    : Follows.Always w w' I J (MdxFile.lookup ⟨file⟩ query)
        (MdxFile.lookup ⟨file.skipping⟩ query) :=
  .bind (MdictFile.locateKeys_follows h query) fun found => match found with
    | none => .pure
    | some _ => .bind .same fun _ => MdxFile.entryAt_follows h _

theorem MdxFile.locateWithMode_follows (query : Str) (mode : MatchMode)
    : Follows.Always w w' I J (MdxFile.locateWithMode ⟨file⟩ query mode)
        (MdxFile.locateWithMode ⟨file.skipping⟩ query mode) := by
  refine .ite (.bind (MdictFile.locateCaseVariants_follows h query _ _) fun page => ?_)
    (MdictFile.locateKeys_follows h query)
  cases page with
  | none => exact MdictFile.locateKeys_follows h query
  | some page => exact .pure

theorem MdxFile.locatePageWithMode_follows (query : Str) (offset limit : Nat) (mode : MatchMode)
    : Follows.Always w w' I J (MdxFile.locatePageWithMode ⟨file⟩ query offset limit mode)
        (MdxFile.locatePageWithMode ⟨file.skipping⟩ query offset limit mode) := by
  refine .ite (.bind (MdictFile.locateCaseVariants_follows h query _ _) fun page => ?_)
    (MdictFile.locateKeyPage_follows h query _ _)
  cases page with
  | none => exact MdictFile.locateKeyPage_follows h query _ _
  | some page => exact .pure

theorem MdxFile.prefixKeys_follows (keyPrefix : Str) (limit : Nat)
    : Follows.Always w w' I J (MdxFile.prefixKeys ⟨file⟩ keyPrefix limit)
        (MdxFile.prefixKeys ⟨file.skipping⟩ keyPrefix limit) :=
  .bind (MdictFile.locatePrefix_follows h keyPrefix limit) fun _ =>
    .bind (MdictFile.keysAtOrdinals_follows h _) fun _ => .pure

theorem ReadsRecords.next_follows {ι β : Type} {make : RowIter → Bool → ι}
    {next next' : ι → Exec (Option (Except Error β) × ι)}
    {read read' : MdictFile.RecordDescriptor → Exec β}
    (hnext : ReadsRecords file make next read) (hnext' : ReadsRecords file.skipping make next' read')
    (hread : ∀ descriptor, Follows.Always w w' I J (read descriptor) (read' descriptor))
    (records : RowIter) (done : Bool)
    : Follows w w' I J Stepped (next (make records done)) (next' (make records done)) := by
  cases done with
  | true =>
    rw [hnext.fused, hnext'.fused]
    exact .pure
  | false =>
    rw [hnext.next_eq, hnext'.next_eq]
    refine stepped_bind (RecordIter.next_follows h records) ?_ ?_ ?_
    . intro records
      exact .pure
    . intro descriptor records
      apply Follows.attempt_bind (hread descriptor)
      . intro value
        exact .pure
      . rintro e s _ _ ⟨⟩ hstepped
        exact hstepped e rfl
    . rintro e records s _ _ ⟨⟩ hstepped
      exact hstepped e rfl

theorem MdxEntryIter.next_follows (iter : MdxEntryIter)
    : Follows w w' I J Stepped (MdxEntryIter.next ⟨file⟩ iter)
        (MdxEntryIter.next ⟨file.skipping⟩ iter) :=
  (MdxEntryIter.readsRecords ⟨file⟩).next_follows h (MdxEntryIter.readsRecords ⟨file.skipping⟩)
    (MdxFile.readEntry_follows h) iter.records iter.done

theorem MddFile.readResource_follows (descriptor : MdictFile.RecordDescriptor)
    : Follows.Always w w' I J (MddFile.readResource ⟨file⟩ descriptor)
        (MddFile.readResource ⟨file.skipping⟩ descriptor) :=
  .bind (MdictFile.readRecordSpan_follows h _ _) fun _ => .pure

theorem MddFile.resourceAt_follows (ordinal : Nat)
    : Follows.Always w w' I J (MddFile.resourceAt ⟨file⟩ ordinal)
        (MddFile.resourceAt ⟨file.skipping⟩ ordinal) := by
  rw [MddFile.resourceAt_eq, MddFile.resourceAt_eq]
  exact readAt_follows h (MddFile.readResource_follows h) ordinal

theorem MddFile.lookup_follows (query : Str)
    : Follows.Always w w' I J (MddFile.lookup ⟨file⟩ query)
        (MddFile.lookup ⟨file.skipping⟩ query) := by
  rw [MddFile.lookup_eq, MddFile.lookup_eq]
  exact .bind (MdictFile.locateKeys_follows h query) fun found => match found with
    | none => .pure
    | some _ => .bind .same fun _ => MddFile.resourceAt_follows h _

theorem MddResourceIter.next_follows (iter : MddResourceIter)
    : Follows w w' I J Stepped (MddResourceIter.next ⟨file⟩ iter)
        (MddResourceIter.next ⟨file.skipping⟩ iter) :=
  (MddResourceIter.readsRecords ⟨file⟩).next_follows h
    (MddResourceIter.readsRecords ⟨file.skipping⟩) (MddFile.readResource_follows h) iter.records
    iter.done

end Mdict
