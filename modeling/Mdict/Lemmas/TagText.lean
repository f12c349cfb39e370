import Mdict.Lemmas.Tag

/-!
This module contains the texts of a header tag: the freedom there is in writing it, and that the
parser reads back what was written.
-/

namespace Mdict

open Effect Unicode Xml

namespace Tag

/-! ## Writing a tag -/

/-- Any number of whitespace characters. -/
def Spaces (s : Str) : Prop := ∀ c ∈ s, isSpace c = true

/-- The names of tags. -/
structure IsTagName (name : Str) : Prop where
  ne_nil : name ≠ []
  chars : ∀ c ∈ name, isSpace c = false ∧ c ≠ '/' ∧ c ≠ '>'

/-- The names of attributes. -/
structure IsAttributeName (name : Str) : Prop where
  ne_nil : name ≠ []
  chars : ∀ c ∈ name, isSpace c = false ∧ c ≠ '=' ∧ c ≠ '>'
  head : name.head? ≠ some '/'

/-- `text` stands for `value` between quotes: `&` and the quote are written as references, and any
other character may be. -/
inductive ValueText (quote : Char) : (value text : Str) → Prop where
  | nil : ValueText quote [] []
  | plain {c : Char} {value text : Str} (hamp : c ≠ '&') (hquote : c ≠ quote)
      (hrest : ValueText quote value text)
      : ValueText quote (c :: value) (c :: text)
  | reference {r : Str} {c : Char} {value text : Str} (href : Reference false r c)
      (hrest : ValueText quote value text)
      : ValueText quote (c :: value) ('&' :: (r ++ ';' :: text))

/-- An attribute with either quote and any whitespace around the equals sign. -/
inductive AttributeText : (attr : Str × Str) → (text : Str) → Prop where
  | mk {name value text gap gap' : Str} {quote : Char} (hname : IsAttributeName name)
      (hgap : Spaces gap) (hgap' : Spaces gap') (hquote : quote = '"' ∨ quote = '\'')
      (hvalue : ValueText quote value text)
      : AttributeText (name, value) (name ++ (gap ++ '=' :: (gap' ++ quote :: (text ++ [quote]))))

/-- Attributes with any whitespace before each. -/
inductive AttributesText : (attrs : List (Str × Str)) → (text : Str) → Prop where
  | nil : AttributesText [] []
  | cons {attr : Str × Str} {attrs : List (Str × Str)} {gap text rest : Str} (hgap : Spaces gap)
      (hattr : AttributeText attr text) (hrest : AttributesText attrs rest)
      : AttributesText (attr :: attrs) (gap ++ (text ++ rest))

/-- The end of a tag, which closes itself or is closed by another tag of the same name. -/
inductive EndText (tagName : Str) : (text : Str) → Prop where
  | selfClosing {gap gap' : Str} (hgap : Spaces gap) (hgap' : Spaces gap')
      : EndText tagName (gap ++ '/' :: '>' :: gap')
  | closing {gap gap₁ gap₂ gap₃ : Str} (hgap : Spaces gap) (hgap₁ : Spaces gap₁)
      (hgap₂ : Spaces gap₂) (hgap₃ : Spaces gap₃)
      : EndText tagName
          (gap ++ '>' :: (gap₁ ++ '<' :: '/' :: (tagName ++ (gap₂ ++ '>' :: gap₃))))

/-- A tag with its attributes, the first of which is set off from the name. -/
inductive TagText : (tagName : Str) → (attrs : List (Str × Str)) → (text : Str) → Prop where
  | mk {tagName attrsText endText : Str} {attrs : List (Str × Str)} (hname : IsTagName tagName)
      (hattrs : AttributesText attrs attrsText)
      (hgap : attrs ≠ [] → ∃ c rest, attrsText = c :: rest ∧ isSpace c = true)
      (hend : EndText tagName endText)
      : TagText tagName attrs ('<' :: (tagName ++ (attrsText ++ endText)))

/-! ## Reading it back -/

variable {s rest : Str} {c : Char}

/-- Reading characters of a class stops at the first that is not in it. -/
theorem takeWhile_dropWhile_stop {q : Char → Bool} {name : Str} (hname : ∀ c ∈ name, q c = true)
    (hstop : ∀ c ∈ rest.head?, q c = false)
    : (name ++ rest).takeWhile q = name ∧ (name ++ rest).dropWhile q = rest := by
  rw [List.takeWhile_append_of_pos hname, List.dropWhile_append_of_pos hname]
  cases rest with
  | nil => exact ⟨List.append_nil name, rfl⟩
  | cons c rest =>
    have hc := hstop c rfl
    rw [List.takeWhile_cons_of_neg (by rw [hc]; exact Bool.false_ne_true),
      List.dropWhile_cons_of_neg (by rw [hc]; exact Bool.false_ne_true)]
    exact ⟨List.append_nil name, rfl⟩

theorem skipSpace_append {gap : Str} (hgap : Spaces gap) (s : Str)
    : skipSpace (gap ++ s) = skipSpace s :=
  List.dropWhile_append_of_pos hgap

theorem skipSpace_cons (hc : isSpace c = false) (s : Str) : skipSpace (c :: s) = c :: s :=
  List.dropWhile_cons_of_neg (by rw [hc]; exact Bool.false_ne_true)

theorem skipSpace_spaces {gap : Str} (hgap : Spaces gap) : skipSpace gap = [] := by
  have h := skipSpace_append hgap []
  rwa [List.append_nil] at h

/-- What comes after whitespace is not in a class without whitespace. -/
theorem head?_gap {q : Char → Bool} {gap : Str} (hgap : Spaces gap)
    (hq : ∀ c, isSpace c = true → q c = false) (hc : q c = false)
    : ∀ d ∈ (gap ++ c :: s).head?, q d = false := by
  intro d hd
  cases gap with
  | nil =>
    cases hd
    exact hc
  | cons space gap =>
    cases hd
    exact hq _ (hgap _ List.mem_cons_self)

namespace ValueText

variable {quote : Char} {value text : Str}

theorem unescapes (h : ValueText quote value text) : Unescapes true text value := by
  induction h with
  | nil => exact .nil
  | plain hamp _ _ ih => exact .plain hamp ih
  | reference href _ ih => exact .reference href.mono ih

theorem quote_not_mem (h : ValueText quote value text) (hquote : quote = '"' ∨ quote = '\'')
    : quote ∉ text := by
  induction h with
  | nil => exact List.not_mem_nil
  | plain _ hne _ ih =>
    intro hmem
    rcases List.mem_cons.mp hmem with heq | hmem
    . exact hne heq.symm
    . exact ih hmem
  | reference href _ ih =>
    intro hmem
    rcases List.mem_cons.mp hmem with heq | hmem
    . rcases hquote with rfl | rfl <;> contradiction
    . rcases List.mem_append.mp hmem with hmem | hmem
      . obtain ⟨-, -, hdouble, hsingle⟩ := href.ne hmem
        rcases hquote with rfl | rfl
        . exact hdouble rfl
        . exact hsingle rfl
      . rcases List.mem_cons.mp hmem with heq | hmem
        . rcases hquote with rfl | rfl <;> contradiction
        . exact ih hmem

theorem readQuoted (h : ValueText quote value text) (hquote : quote = '"' ∨ quote = '\'')
    (name rest : Str)
    : readQuoted name quote (text ++ quote :: rest) = .ok ((name, value), rest) := by
  have hne : ∀ c ∈ text, (c != quote) = true := by
    intro c hc
    rw [bne_iff_ne]
    rintro rfl
    exact h.quote_not_mem hquote hc
  obtain ⟨htake, hdrop⟩ := @takeWhile_dropWhile_stop (quote :: rest) _ _ hne (by
    intro c hc
    cases hc
    exact bne_self_eq_false quote)
  rw [Tag.readQuoted, hdrop, htake]
  dsimp only
  rw [unescapeXml_eq_ok.mpr h.unescapes]
  rfl

end ValueText

theorem isNameChar_of_isSpace (c : Char) (hc : isSpace c = true) : isNameChar c = false := by
  rw [isNameChar, hc]
  rfl

theorem IsAttributeName.isNameChar {name : Str} (h : IsAttributeName name)
    : ∀ c ∈ name, isNameChar c = true := by
  intro c hc
  obtain ⟨hspace, hequals, hclose⟩ := h.chars c hc
  rw [Tag.isNameChar, hspace, bne_iff_ne.mpr hequals, bne_iff_ne.mpr hclose]
  rfl

theorem readAttribute_text {attr : Str × Str} {text : Str} (h : AttributeText attr text)
    {attrs : List (Str × Str)} (hnew : attr.1 ∉ attrs.map (·.1)) (rest : Str)
    : readAttribute (text ++ rest) attrs = .ok (attr, rest) := by
  obtain @⟨name, value, text, gap, gap', quote, hname, hgap, hgap', hquote, hvalue⟩ := h
  have htext : name ++ (gap ++ '=' :: (gap' ++ quote :: (text ++ [quote]))) ++ rest
      = name ++ (gap ++ '=' :: (gap' ++ quote :: (text ++ quote :: rest))) := by
    simp only [List.append_assoc, List.cons_append, List.nil_append]
  obtain ⟨htake, hdrop⟩ := takeWhile_dropWhile_stop hname.isNameChar
    (head?_gap (s := gap' ++ quote :: (text ++ quote :: rest)) hgap isNameChar_of_isSpace
      (rfl : isNameChar '=' = false))
  have hdup : ¬attrs.any (·.1 == name) := by
    rw [List.any_eq_true]
    rintro ⟨other, hmem, heq⟩
    exact hnew (List.mem_map.mpr ⟨other, hmem, eq_of_beq heq⟩)
  have hquoteSpace : isSpace quote = false := by
    rcases hquote with rfl | rfl <;> rfl
  rw [htext]
  unfold readAttribute
  dsimp only
  rw [htake, hdrop, failIf_of_not hname.ne_nil, except_ok_bind, failIf_of_not hdup, except_ok_bind,
    skipSpace_append hgap, skipSpace_cons rfl]
  split
  . next heq =>
    injection heq with _ heq
    rw [← heq, skipSpace_append hgap', skipSpace_cons hquoteSpace]
    rcases hquote with rfl | rfl
    . exact hvalue.readQuoted (.inl rfl) name rest
    . exact hvalue.readQuoted (.inr rfl) name rest
  . next hequals => exact absurd rfl (hequals _)

/-- The end of a tag, when all attributes have been read. -/
theorem readAttributes_end {tagName text : Str} (h : EndText tagName text) (limit left : Nat)
    (attrs : List (Str × Str)) (hname : IsTagName tagName)
    : ∃ rest selfClosing, readAttributes limit left text attrs = .ok (attrs, rest, selfClosing)
        ∧ readTagEnd tagName rest selfClosing = .ok () := by
  cases h with
  | @selfClosing gap gap' hgap hgap' =>
    refine ⟨gap', true, ?_, ?_⟩
    . unfold readAttributes
      rw [skipSpace_append hgap, skipSpace_cons rfl]
      rfl
    . unfold readTagEnd
      rw [skipSpace_spaces hgap']
      rfl
  | @closing gap gap₁ gap₂ gap₃ hgap hgap₁ hgap₂ hgap₃ =>
    refine ⟨gap₁ ++ '<' :: '/' :: (tagName ++ (gap₂ ++ '>' :: gap₃)), false, ?_, ?_⟩
    . unfold readAttributes
      rw [skipSpace_append hgap, skipSpace_cons rfl]
      rfl
    . have hchars : ∀ c ∈ tagName, isClosingChar c = true := by
        intro c hc
        obtain ⟨hspace, -, hclose⟩ := hname.chars c hc
        rw [isClosingChar, hspace, bne_iff_ne.mpr hclose]
        rfl
      have hspaces (c : Char) (hc : isSpace c = true) : isClosingChar c = false := by
        rw [isClosingChar, hc]
        rfl
      obtain ⟨htake, hdrop⟩ := takeWhile_dropWhile_stop hchars
        (head?_gap (s := gap₃) hgap₂ hspaces (rfl : isClosingChar '>' = false))
      unfold readTagEnd
      rw [skipSpace_append hgap₁, skipSpace_cons rfl, failIf_of_not fun h => Bool.false_ne_true h.2,
        except_ok_bind]
      split
      . next heq => exact absurd heq (List.cons_ne_nil _ _)
      . next heq =>
        injection heq with _ heq
        injection heq with _ heq
        rw [← heq, htake, hdrop, failIf_of_not (not_not.mpr rfl), except_ok_bind,
          skipSpace_append hgap₂, skipSpace_cons rfl]
        split
        . next heq =>
          injection heq with _ heq
          rw [← heq, failIf_of_not (not_not.mpr (skipSpace_spaces hgap₃))]
        . next hclose => exact absurd rfl (hclose _)
      . next hclosing => exact absurd rfl (hclosing _)

/-- An attribute begins with a character that starts a name. -/
theorem AttributeText.exists_cons {attr : Str × Str} {text : Str} (h : AttributeText attr text)
    : ∃ c tail, text = c :: tail ∧ isSpace c = false ∧ c ≠ '/' ∧ c ≠ '>' := by
  obtain @⟨name, value, text, gap, gap', quote, hname, -, -, -, -⟩ := h
  cases name with
  | nil => exact absurd rfl hname.ne_nil
  | cons c name =>
    obtain ⟨hspace, -, hclose⟩ := hname.chars c List.mem_cons_self
    exact ⟨c, _, rfl, hspace, fun hc => hname.head (by rw [hc]; rfl), hclose⟩

/-- A round of the loop over the attributes that reads one. -/
theorem readAttributes_cons {limit left : Nat} {attrs : List (Str × Str)} {attr : Str × Str}
    {gap : Str} (hgap : Spaces gap) (hspace : isSpace c = false) (hslash : c ≠ '/') (hclose : c ≠ '>')
    (hattr : readAttribute (c :: s) attrs = .ok (attr, rest))
    : readAttributes limit (left + 1) (gap ++ c :: s) attrs
        = readAttributes limit left rest (attrs ++ [attr]) := by
  rw [readAttributes, skipSpace_append hgap, skipSpace_cons hspace]
  split
  . contradiction
  . next heq =>
    injection heq with heq _
    exact absurd heq hslash
  . next heq =>
    injection heq with heq _
    exact absurd heq hslash
  . next heq =>
    injection heq with heq _
    exact absurd heq hclose
  . next heq =>
    rw [← heq, hattr]
    rfl

/-- The parser reads attributes back, whatever was read before them. -/
theorem readAttributes_text {tagName : Str} {attrs : List (Str × Str)} {text endText : Str}
    (h : AttributesText attrs text) (hend : EndText tagName endText) (hname : IsTagName tagName)
    {limit left : Nat} (hleft : attrs.length ≤ left) {seen : List (Str × Str)}
    (hnodup : ((seen ++ attrs).map (·.1)).Nodup)
    : ∃ rest selfClosing, readAttributes limit left (text ++ endText) seen
          = .ok (seen ++ attrs, rest, selfClosing)
        ∧ readTagEnd tagName rest selfClosing = .ok () := by
  induction h generalizing left seen with
  | nil =>
    rw [List.append_nil]
    exact readAttributes_end hend limit left seen hname
  | @cons attr attrs gap text rest hgap hattr hrest ih =>
    have hnew : attr.1 ∉ seen.map (·.1) := by
      rw [List.map_append, List.map_cons] at hnodup
      intro hmem
      exact (List.nodup_append.mp hnodup).2.2 _ hmem _ List.mem_cons_self rfl
    rw [List.append_cons] at hnodup ⊢
    rw [List.length_cons] at hleft
    obtain ⟨left, rfl⟩ : ∃ left', left = left' + 1 := ⟨left - 1, by omega⟩
    obtain ⟨last, selfClosing, hread, hclosed⟩ := @ih left (by omega) _ hnodup
    refine ⟨last, selfClosing, ?_, hclosed⟩
    have hattr' := readAttribute_text hattr hnew (rest ++ endText)
    obtain ⟨c, tail, rfl, hspace, hslash, hclose⟩ := hattr.exists_cons
    rw [List.cons_append] at hattr'
    rw [List.append_assoc, List.append_assoc, List.cons_append,
      readAttributes_cons hgap hspace hslash hclose hattr', hread]

theorem readTag_text {tagName : Str} {attrs : List (Str × Str)} {text : Str}
    (h : TagText tagName attrs text) (hnodup : (attrs.map (·.1)).Nodup) {limits : Limits}
    (hlimit : attrs.length ≤ limits.headerAttributes)
    : readTag text limits = .ok (tagName, attrs) := by
  obtain @⟨attrsText, endText, _, hname, hattrs, hgap, hend⟩ := h
  have hchars : ∀ c ∈ tagName, isTagChar c = true := by
    intro c hc
    obtain ⟨hspace, hslash, hclose⟩ := hname.chars c hc
    rw [isTagChar, hspace, bne_iff_ne.mpr hslash, bne_iff_ne.mpr hclose]
    rfl
  have hspaces (c : Char) (hc : isSpace c = true) : isTagChar c = false := by
    rw [isTagChar, hc]
    rfl
  -- The name is followed by whitespace, or by the end of the tag.
  have hstop : ∀ c ∈ (attrsText ++ endText).head?, isTagChar c = false := by
    cases hattrs with
    | nil =>
      cases hend with
      | selfClosing hgap _ => exact head?_gap hgap hspaces rfl
      | closing hgap _ _ _ => exact head?_gap hgap hspaces rfl
    | cons _ _ _ =>
      obtain ⟨c, rest, htext, hc⟩ := hgap (List.cons_ne_nil _ _)
      rw [htext]
      intro d hd
      cases hd
      exact hspaces c hc
  obtain ⟨htake, hdrop⟩ := takeWhile_dropWhile_stop hchars hstop
  obtain ⟨rest, selfClosing, hread, hclosed⟩ := @readAttributes_text _ _ _ _ hattrs hend hname
    limits.headerAttributes _ hlimit [] hnodup
  unfold readTag
  split
  . next heq =>
    injection heq with _ heq
    rw [← heq, htake, hdrop]
    dsimp only
    rw [failIf_of_not hname.ne_nil, except_ok_bind, hread, except_ok_bind]
    dsimp only
    rw [hclosed]
    rfl
  . next hopen => exact absurd rfl (hopen _)

end Tag

end Mdict
