import Mdict.Lemmas.HeaderRounds
import Mdict.Lemmas.TagText

/-!
This module contains the results about the header tag: scanning it is safe whatever it contains, and
a tag is read back as it was written.
-/

namespace Mdict

open Effect Unicode Xml

/--
Whatever a header contains, no loop over its tag or over the entities of a value exceeds its rounds,
no byte is read beyond the end and no slice cuts through a character.
-/
theorem header_scan_safe (xml value : Str) (limits : Limits)
    : (parseSingleTagRounds xml limits = parseSingleTag xml limits
        ∧ ∀ message, parseSingleTagRounds xml limits ≠ .error (.panic message))
      ∧ unescapeXmlRounds (utf8 value) = unescapeXml (utf8 value)
        ∧ ∀ message, unescapeXmlRounds (utf8 value) ≠ .error (.panic message) := by
  refine ⟨⟨parseSingleTagRounds_eq xml limits, fun message hpanic => ?_⟩,
    unescapeXmlRounds_eq (utf8 value), fun message hpanic => ?_⟩
  . rw [parseSingleTagRounds_eq, Tag.parseSingleTag_eq] at hpanic
    exact Tag.readTag_notPanic xml limits _ hpanic message rfl
  . rw [unescapeXmlRounds_eq] at hpanic
    exact unescapeXml_notPanic value _ hpanic message rfl

/-! ## Tags -/

/--
A header tag is parsed to the name and the attributes it was written with, whichever of the texts of
the tag was written.
-/
theorem parseSingleTag_text {tagName : Str} {attrs : List (Str × Str)} {text : Str}
    (htext : Tag.TagText tagName attrs text) (hnames : (attrs.map (·.1)).Nodup) {limits : Limits}
    (hlimit : attrs.length ≤ limits.headerAttributes)
    : parseSingleTag text limits = .ok (tagName, attrs) := by
  rw [Tag.parseSingleTag_eq]
  exact Tag.readTag_text htext hnames hlimit

namespace Tag

/-- A tag with an attribute in either quotes. -/
theorem tagText_sample
    : TagText ['D'] [(['a'], ['&', '>', '\'']), (['b'], ['"'])]
        "<D a=\"&amp;>'\" b\t= '\"'></D >".toList := by
  have hspace : Spaces [' '] := fun c hc => List.mem_singleton.mp hc ▸ rfl
  have htab : Spaces ['\t'] := fun c hc => List.mem_singleton.mp hc ▸ rfl
  have hnone : Spaces [] := fun c hc => absurd hc List.not_mem_nil
  have hname (c : Char) (h : isSpace c = false ∧ c ≠ '=' ∧ c ≠ '>' ∧ c ≠ '/')
      : IsAttributeName [c] := by
    refine ⟨List.cons_ne_nil _ _, fun d hd => ?_, fun hd => h.2.2.2 (Option.some.inj hd)⟩
    rw [List.mem_singleton.mp hd]
    exact ⟨h.1, h.2.1, h.2.2.1⟩
  have htag : IsTagName ['D'] := ⟨List.cons_ne_nil _ _, fun c hc => List.mem_singleton.mp hc ▸ by decide⟩
  have hfirst : AttributeText (['a'], ['&', '>', '\'']) "a=\"&amp;>'\"".toList :=
    .mk (hname 'a' (by decide)) hnone hnone (.inl rfl)
      (.reference .amp (.plain (by decide) (by decide) (.plain (by decide) (by decide) .nil)))
  have hsecond : AttributeText (['b'], ['"']) "b\t= '\"'".toList :=
    .mk (hname 'b' (by decide)) htab hspace (.inr rfl) (.plain (by decide) (by decide) .nil)
  exact .mk htag (.cons hspace hfirst (.cons hspace hsecond .nil)) (fun _ => ⟨_, _, rfl, rfl⟩)
    (.closing hnone hnone hspace hnone)

end Tag

theorem parseSingleTag_text_sample
    : parseSingleTag "<D a=\"&amp;>'\" b\t= '\"'></D >".toList Limits.new
        = .ok (['D'], [(['a'], ['&', '>', '\'']), (['b'], ['"'])]) :=
  parseSingleTag_text Tag.tagText_sample (by decide) (by decide)

/-! ## References -/

/-- The references of a value are resolved as XML says, and other values are rejected. -/
def MeetsGrammar (value : Str) : Prop :=
  ((∃ t, unescapeXml (utf8 value) = .ok t) ↔ WellFormed false value)
    ∧ ∀ t, unescapeXml (utf8 value) = .ok t → Unescapes false value t

/--
The references of a value are resolved as XML says, and other values are rejected, unless the value
is well formed but for a plus sign before the digits of a number, which is let pass.
-/
theorem meetsGrammar_iff (value : Str)
    : MeetsGrammar value ↔ ¬(WellFormed true value ∧ Signed value) := by
  have haccepts : (∃ t, unescapeXml (utf8 value) = .ok t) ↔ WellFormed true value := by
    rw [wellFormed_iff]
    exact exists_congr fun t => unescapeXml_eq_ok
  rw [MeetsGrammar, haccepts]
  constructor
  . rintro ⟨hiff, -⟩ ⟨hformed, hsigned⟩
    exact (wellFormed_iff_not_signed hformed).mp (hiff.mp hformed) hsigned
  . intro hsigned
    have hstrict (h : WellFormed true value) : WellFormed false value :=
      (wellFormed_iff_not_signed h).mpr fun hs => hsigned ⟨h, hs⟩
    refine ⟨⟨hstrict, WellFormed.mono⟩, fun t ht => ?_⟩
    obtain ⟨t', ht'⟩ := wellFormed_iff.mp (hstrict (haccepts.mp ⟨t, ht⟩))
    have heq := unescapeXml_eq_ok.mpr ht'.mono
    rw [ht] at heq
    cases heq
    exact ht'

/-- The value `&#+65;` is accepted. -/
theorem not_meetsGrammar_plus
    : unescapeXml (utf8 ['&', '#', '+', '6', '5', ';']) = .ok ['A']
        ∧ ¬MeetsGrammar ['&', '#', '+', '6', '5', ';'] := by
  have haccepts : unescapeXml (utf8 ['&', '#', '+', '6', '5', ';']) = .ok ['A'] :=
    unescapeXml_eq_ok.mpr (.reference (@Reference.decimal _ ['+'] ['6', '5'] 65 _ (by decide) rfl rfl)
      .nil)
  refine ⟨haccepts, fun h => ?_⟩
  obtain ⟨r, c, rest, heq, href⟩ := h.1.mp ⟨_, haccepts⟩ [] _ rfl
  exact href.not_signed (by decide : ['#'] ∈ marks) heq

end Mdict
