import Mdict.Lemmas.Header

/-!
This module contains the parser of the header tag on characters, where nothing is indexed and nothing
is sliced, and that the scanner on bytes does the same.
-/

namespace Mdict

open Effect Unicode

namespace Tag

/-! ## The parser on characters -/

/-- The characters that `is_ascii_whitespace` accepts. -/
def isSpace (c : Char) : Bool :=
  c == ' ' || c == '\t' || c == '\n' || c == '\x0c' || c == '\r'

def skipSpace (s : Str) : Str := s.dropWhile isSpace

/-- The characters of the name of a tag. -/
def isTagChar (c : Char) : Bool := !isSpace c && c != '/' && c != '>'

/-- The characters of the name of an attribute. -/
def isNameChar (c : Char) : Bool := !isSpace c && c != '=' && c != '>'

/-- The characters of the name of a closing tag. -/
def isClosingChar (c : Char) : Bool := !isSpace c && c != '>'

/-- A value up to its quote and what comes after that. -/
def readQuoted (name : Str) (quote : Char) (s : Str) : Except Error ((Str × Str) × Str) :=
  match s.dropWhile (· != quote) with
  | [] => .error (.invalidFormat "unterminated header xml attribute value")
  | _ :: rest => do
    let value ← unescapeXml (utf8 (s.takeWhile (· != quote)))
    return ((name, value), rest)

/-- An attribute and what comes after it. -/
def readAttribute (s : Str) (attrs : List (Str × Str)) : Except Error ((Str × Str) × Str) := do
  let name := s.takeWhile isNameChar
  failIf (name = []) (.invalidFormat "empty header XML attribute name")
  failIf (attrs.any (·.1 == name)) (.invalidData "duplicate exact header XML attribute")
  match skipSpace (s.dropWhile isNameChar) with
  | '=' :: s =>
    match skipSpace s with
    | '"' :: s => readQuoted name '"' s
    | '\'' :: s => readQuoted name '\'' s
    | _ => .error (.invalidFormat "expected quoted header xml attribute")
  | _ => .error (.invalidFormat "expected '=' in header xml attribute")

/-- The attributes, what comes after the `>` that ends the tag, and whether the tag closes itself. -/
def readAttributes (limit : Nat)
    : (left : Nat) → (s : Str) → (attrs : List (Str × Str))
    → Except Error (List (Str × Str) × Str × Bool)
  | left, s, attrs =>
    match skipSpace s with
    | [] => .error (.invalidFormat "unterminated header xml tag")
    | '/' :: '>' :: rest => .ok (attrs, rest, true)
    | '/' :: _ => .error (.invalidFormat "invalid self-closing header tag")
    | '>' :: rest => .ok (attrs, rest, false)
    | c :: s =>
      match left with
      | 0 => .error (.limitExceeded "header_attributes" (attrs.length + 1) limit)
      | left + 1 => do
        let (attr, rest) ← readAttribute (c :: s) attrs
        readAttributes limit left rest (attrs ++ [attr])

/-- Check what follows a tag. -/
def readTagEnd (tagName : Str) (s : Str) (selfClosing : Bool) : Except Error Unit := do
  failIf (skipSpace s ≠ [] ∧ selfClosing)
    (.invalidFormat "trailing content after top-level header tag")
  match skipSpace s with
  | [] => .ok ()
  | '<' :: '/' :: s => do
    failIf (s.takeWhile isClosingChar ≠ tagName)
      (.invalidFormat "mismatched top-level header closing tag")
    match skipSpace (s.dropWhile isClosingChar) with
    | '>' :: s =>
      failIf (skipSpace s ≠ [])
        (.invalidFormat "trailing content after top-level header element")
    | _ => .error (.invalidFormat "malformed top-level header closing tag")
  | _ => .error (.invalidFormat "content inside top-level header element is not supported")

def readTag (xml : Str) (limits : Limits) : Except Error (Str × List (Str × Str)) :=
  match xml with
  | '<' :: s => do
    let name := s.takeWhile isTagChar
    failIf (name = []) (.invalidFormat "empty top-level header tag")
    let (attrs, rest, selfClosing) ←
      readAttributes limits.headerAttributes limits.headerAttributes (s.dropWhile isTagChar) []
    readTagEnd name rest selfClosing
    return (name, attrs)
  | _ => .error (.invalidFormat "header xml must start with '<'")

/-! ## Scanning -/

theorem isAsciiWhitespace_of_le {b : UInt8} (h : 0x80 ≤ b) : isAsciiWhitespace b = false := by
  have hall : ∀ n : Fin 256, 0x80 ≤ UInt8.ofFin n → isAsciiWhitespace (UInt8.ofFin n) = false := by
    decide +kernel
  exact hall b.toFin h

theorem classOf_isAsciiWhitespace (c : Char) : classOf isAsciiWhitespace false c = isSpace c := by
  have h := classOf_or (fun b => b == 0x20 || b == 0x09 || b == 0x0A || b == 0x0C) (· == 0x0D)
    false false c
  unfold isSpace
  rw [← classOf_beq (a := ' ') (by decide), ← classOf_beq (a := '\t') (by decide),
    ← classOf_beq (a := '\n') (by decide), ← classOf_beq (a := '\x0c') (by decide),
    ← classOf_beq (a := '\r') (by decide), ← classOf_or, ← classOf_or, ← classOf_or, ← classOf_or]
  rfl

variable {xml s : Str} {i : Nat}

/-- Scanning from between two characters leads to between two characters. -/
theorem restAt_scanWhile {p : UInt8 → Bool} {v : Bool} {q : Char → Bool}
    (hv : ∀ b, 0x80 ≤ b → p b = v) (hq : ∀ c, classOf p v c = q c) (h : RestAt xml i s)
    : scanWhile p (utf8 xml) i = i + (utf8 (s.takeWhile q)).length
        ∧ RestAt xml (scanWhile p (utf8 xml) i) (s.dropWhile q)
        ∧ strSlice (utf8 xml) i (scanWhile p (utf8 xml) i) = .ok (utf8 (s.takeWhile q)) := by
  have hscan : scanWhile p (utf8 xml) i = i + (utf8 (s.takeWhile q)).length := by
    rw [scanWhile, h.drop, takeWhile_utf8 hv, funext hq]
  refine ⟨hscan, ?_, ?_⟩
  . rw [hscan]
    apply RestAt.append
    rwa [List.takeWhile_append_dropWhile]
  . obtain ⟨before, rfl, rfl⟩ := h
    have hslice := strSlice_utf8 before (s.takeWhile q) (s.dropWhile q)
    rw [List.takeWhile_append_dropWhile, utf8_append before (s.takeWhile q), List.length_append,
      ← hscan] at hslice
    exact hslice

theorem restAt_skipAsciiWhitespace (h : RestAt xml i s)
    : RestAt xml (skipAsciiWhitespace (utf8 xml) i) (skipSpace s) :=
  (restAt_scanWhile (fun _ => isAsciiWhitespace_of_le) classOf_isAsciiWhitespace h).2.1

theorem classOf_not_space (c : Char)
    : classOf (fun b => !isAsciiWhitespace b) true c = !isSpace c := by
  rw [← classOf_isAsciiWhitespace]
  exact classOf_not isAsciiWhitespace false c

theorem isTagByte (c : Char)
    : classOf (fun b => !isAsciiWhitespace b && b != 0x2F && b != 0x3E) true c = isTagChar c := by
  rw [isTagChar, ← classOf_not_space, ← classOf_bne (a := '/') (by decide),
    ← classOf_bne (a := '>') (by decide), ← classOf_and, ← classOf_and]
  rfl

theorem isNameByte (c : Char)
    : classOf (fun b => !isAsciiWhitespace b && b != 0x3D && b != 0x3E) true c = isNameChar c := by
  rw [isNameChar, ← classOf_not_space, ← classOf_bne (a := '=') (by decide),
    ← classOf_bne (a := '>') (by decide), ← classOf_and, ← classOf_and]
  rfl

theorem isClosingByte (c : Char)
    : classOf (fun b => !isAsciiWhitespace b && b != 0x3E) true c = isClosingChar c := by
  rw [isClosingChar, ← classOf_not_space, ← classOf_bne (a := '>') (by decide), ← classOf_and]
  rfl

theorem bne_of_le {b a : UInt8} (hb : 0x80 ≤ b) (ha : a < 0x80) : (b != a) = true := by
  rw [bne_iff_ne]
  rintro rfl
  exact absurd hb (UInt8.not_le.mpr ha)

/-- The scanner on bytes comes to the same outcome as the parser on characters. -/
def Agrees {α : Type} (xml : Str) (scanned : Except Error (α × Nat)) (read : Except Error (α × Str))
    : Prop :=
  match read with
  | .error e => scanned = .error e
  | .ok (a, rest) => ∃ j, scanned = .ok (a, j) ∧ RestAt xml j rest

/-- From the opening quote on. -/
theorem readQuoted_agrees {name : Str} {quote : Char} (hquote : quote.toNat < 128)
    (h : RestAt xml i s)
    : Agrees xml (do
        let index := scanWhile (· != UInt8.ofNat quote.toNat) (utf8 xml) i
        failIf (index ≥ (utf8 xml).length) (.invalidFormat "unterminated header xml attribute value")
        let valueBytes ← strSlice (utf8 xml) i index
        let value ← unescapeXml valueBytes
        return ((name, value), index + 1)) (readQuoted name quote s) := by
  have hbyte : UInt8.ofNat quote.toNat < 0x80 := by
    rw [UInt8.lt_iff_toNat_lt, UInt8.toNat_ofNat']
    change _ < 128
    omega
  obtain ⟨-, hrest, hslice⟩ :=
    restAt_scanWhile (fun _ hb => bne_of_le hb hbyte) (classOf_bne hquote) h
  dsimp only
  generalize scanWhile (· != UInt8.ofNat quote.toNat) (utf8 xml) i = index at hrest hslice ⊢
  unfold readQuoted
  cases hs : s.dropWhile (· != quote) with
  | nil =>
    rw [hs] at hrest
    rw [failIf_of (ge_of_eq (hrest.eq_length_iff.mpr rfl))]
    rfl
  | cons c rest =>
    have hc : c = quote := by
      have := List.head?_dropWhile_not (· != quote) s
      rw [hs] at this
      simpa using this
    rw [hs, hc] at hrest
    have hlt : ¬index ≥ (utf8 xml).length := fun hge =>
      List.cons_ne_nil _ _ (hrest.eq_length_iff.mp (Nat.le_antisymm hrest.length_le hge))
    rw [failIf_of_not hlt, except_ok_bind, hslice, except_ok_bind]
    dsimp only
    cases unescapeXml (utf8 (s.takeWhile (· != quote))) with
    | error e => rfl
    | ok value => exact ⟨index + 1, rfl, hrest.succ hquote⟩

theorem filter_quote_eq_none (h : RestAt xml i s) (hdouble : ¬∃ rest, s = '"' :: rest)
    (hsingle : ¬∃ rest, s = '\'' :: rest)
    : (utf8 xml)[i]?.filter (fun b => b == 0x22 || b == 0x27) = none := by
  rw [Option.filter_eq_none_iff]
  intro b hb
  rw [Bool.or_eq_true, beq_iff_eq, beq_iff_eq]
  rintro (rfl | rfl)
  . exact hdouble ((h.getElem?_eq_some (a := '"') (by decide)).mp hb)
  . exact hsingle ((h.getElem?_eq_some (a := '\'') (by decide)).mp hb)

theorem parseAttribute_agrees (h : RestAt xml i s) (attrs : List (Str × Str))
    : Agrees xml (parseAttribute (utf8 xml) i attrs) (readAttribute s attrs) := by
  obtain ⟨hindex, hrest, hslice⟩ := restAt_scanWhile
    (fun b hb => by rw [isAsciiWhitespace_of_le hb, bne_of_le hb (by decide),
      bne_of_le hb (by decide)]; rfl) isNameByte h
  unfold parseAttribute readAttribute
  dsimp only
  generalize scanWhile (fun b => !isAsciiWhitespace b && b != 0x3D && b != 0x3E) (utf8 xml) i = index
    at hindex hrest hslice ⊢
  by_cases hname : s.takeWhile isNameChar = []
  . rw [failIf_of hname, failIf_of (by rw [hindex, hname]; rfl)]
    rfl
  have hne : i ≠ index := by
    intro heq
    have hlen : (utf8 (s.takeWhile isNameChar)).length = 0 := by omega
    exact hname (utf8_inj.mp (List.length_eq_zero_iff.mp hlen))
  rw [failIf_of_not hname, failIf_of_not hne, except_ok_bind, except_ok_bind, hslice, except_ok_bind,
    strOfUtf8_utf8, except_ok_bind]
  by_cases hdup : attrs.any (·.1 == s.takeWhile isNameChar)
  . rw [failIf_of hdup]
    rfl
  rw [failIf_of_not hdup, except_ok_bind, except_ok_bind]
  have hskip := restAt_skipAsciiWhitespace hrest
  generalize skipSpace (s.dropWhile isNameChar) = s at hskip ⊢
  generalize skipAsciiWhitespace (utf8 xml) index = index at hskip ⊢
  split
  . next s =>
    have hbyte : (utf8 xml)[index]? = some 0x3D :=
      (hskip.getElem?_eq_some (a := '=') (by decide)).mpr ⟨s, rfl⟩
    rw [failIf_of_not (not_not.mpr hbyte), except_ok_bind]
    have hskip := restAt_skipAsciiWhitespace (hskip.succ (by decide))
    generalize skipSpace s = s at hskip ⊢
    generalize skipAsciiWhitespace (utf8 xml) (index + 1) = index at hskip ⊢
    have hquoted (quote : Char) (hascii : quote.toNat < 128)
        (hquote : (UInt8.ofNat quote.toNat == 0x22 || UInt8.ofNat quote.toNat == 0x27) = true)
        {s : Str} (hskip : RestAt xml index (quote :: s))
        : (utf8 xml)[index]?.filter (fun b => b == 0x22 || b == 0x27)
          = some (UInt8.ofNat quote.toNat) := by
      rw [(hskip.getElem?_eq_some hascii).mpr ⟨s, rfl⟩, Option.filter_some, if_pos hquote]
    split
    . next s =>
      rw [hquoted '"' (by decide) rfl hskip, okOr_some, except_ok_bind]
      exact readQuoted_agrees (by decide) (hskip.succ (by decide))
    . next s =>
      rw [hquoted '\'' (by decide) rfl hskip, okOr_some, except_ok_bind]
      exact readQuoted_agrees (by decide) (hskip.succ (by decide))
    . next hdouble hsingle =>
      rw [filter_quote_eq_none hskip (fun hrest => hrest.elim hdouble)
        fun hrest => hrest.elim hsingle]
      rfl
  . next hequals =>
    have hbyte : (utf8 xml)[index]? ≠ some 0x3D := fun hbyte =>
      ((hskip.getElem?_eq_some (a := '=') (by decide)).mp hbyte).elim hequals
    rw [failIf_of hbyte]
    rfl

/-- The outcome of the attributes; the scanner stops at the `>` that ends the tag. -/
def AgreesAtEnd (xml : Str) (scanned : Except Error (List (Str × Str) × Nat × Bool))
    (read : Except Error (List (Str × Str) × Str × Bool))
    : Prop :=
  match read with
  | .error e => scanned = .error e
  | .ok (attrs, rest, selfClosing) =>
    ∃ j, scanned = .ok (attrs, j, selfClosing) ∧ RestAt xml j ('>' :: rest)

/-- A round of the loop over the attributes, given that the rounds after it agree. -/
theorem parseAttributes_agrees_of {limit left : Nat} (h : RestAt xml i s) {attrs : List (Str × Str)}
    (hnext : ∀ left', left = left' + 1 → ∀ j s attr, RestAt xml j s →
      AgreesAtEnd xml (parseAttributes (utf8 xml) limit left' j (attrs ++ [attr]))
        (readAttributes limit left' s (attrs ++ [attr])))
    : AgreesAtEnd xml (parseAttributes (utf8 xml) limit left i attrs)
        (readAttributes limit left s attrs) := by
  have hskip := restAt_skipAsciiWhitespace h
  unfold readAttributes
  dsimp only
  generalize skipSpace s = s at hskip ⊢
  split
  . unfold parseAttributes
    dsimp only
    rw [hskip.getElem?]
    rfl
  . next rest =>
    have hslash := (hskip.getElem?_eq_some (a := '/') (by decide)).mpr ⟨_, rfl⟩
    have hend := hskip.succ (by decide)
    have hclose := (hend.getElem?_eq_some (a := '>') (by decide)).mpr ⟨_, rfl⟩
    unfold parseAttributes
    dsimp only
    rw [hslash]
    exact ⟨_, if_pos hclose, hend⟩
  . next rest hrest =>
    have hslash := (hskip.getElem?_eq_some (a := '/') (by decide)).mpr ⟨_, rfl⟩
    have hclose : (utf8 xml)[skipAsciiWhitespace (utf8 xml) i + 1]? ≠ some 0x3E := fun hclose =>
      (((hskip.succ (by decide)).getElem?_eq_some (a := '>') (by decide)).mp hclose).elim hrest
    unfold parseAttributes
    dsimp only
    rw [hslash]
    exact if_neg hclose
  . next rest =>
    have hclose := (hskip.getElem?_eq_some (a := '>') (by decide)).mpr ⟨_, rfl⟩
    unfold parseAttributes
    dsimp only
    rw [hclose]
    exact ⟨_, rfl, hskip⟩
  . next c rest _ hslash hclose =>
    have hagrees := parseAttribute_agrees hskip attrs
    have hne {a : Char} (ha : a.toNat < 128) (hc : c = a → False)
        : (utf8 xml)[skipAsciiWhitespace (utf8 xml) i]? ≠ some (UInt8.ofNat a.toNat) := by
      intro hbyte
      obtain ⟨rest', heq⟩ := (hskip.getElem?_eq_some ha).mp hbyte
      injection heq with heq _
      exact hc heq
    unfold parseAttributes
    dsimp only
    split
    . next hnone =>
      have hle := List.getElem?_eq_none_iff.mp hnone
      have hnil := hskip.eq_length_iff.mp (Nat.le_antisymm hskip.length_le hle)
      contradiction
    . next hbyte => exact absurd hbyte (hne (a := '/') (by decide) hslash)
    . next hbyte => exact absurd hbyte (hne (a := '>') (by decide) hclose)
    . split
      . rfl
      . next left =>
        unfold Agrees at hagrees
        cases hread : readAttribute (c :: rest) attrs with
        | error e =>
          rw [hread] at hagrees
          rw [hagrees]
          rfl
        | ok result =>
          obtain ⟨attr, rest'⟩ := result
          rw [hread] at hagrees
          obtain ⟨j, hparse, hj⟩ := hagrees
          rw [hparse]
          exact hnext left rfl j rest' attr hj

theorem parseAttributes_agrees (limit left : Nat) (h : RestAt xml i s) (attrs : List (Str × Str))
    : AgreesAtEnd xml (parseAttributes (utf8 xml) limit left i attrs)
        (readAttributes limit left s attrs) := by
  induction left generalizing i s attrs with
  | zero => exact parseAttributes_agrees_of h fun _ hleft => by contradiction
  | succ left ih =>
    apply parseAttributes_agrees_of h
    rintro left' hleft j s attr hs
    cases hleft
    exact ih hs _

theorem isPrefixOf_closing : (ascii "</").isPrefixOf (utf8 s) ↔ ∃ rest, s = '<' :: '/' :: rest := by
  rw [ascii, isPrefixOf_utf8, List.isPrefixOf_iff_prefix]
  constructor
  . rintro ⟨rest, rfl⟩
    exact ⟨rest, rfl⟩
  . rintro ⟨rest, rfl⟩
    exact ⟨rest, rfl⟩

/-- From the `>` that ends a tag on. -/
theorem parseTagEnd_eq {name : Str} {selfClosing : Bool} (h : RestAt xml i ('>' :: s))
    : parseTagEnd (utf8 xml) (utf8 name) i selfClosing = readTagEnd name s selfClosing := by
  have hskip := restAt_skipAsciiWhitespace (h.succ (by decide))
  unfold parseTagEnd readTagEnd
  dsimp only
  generalize skipSpace s = s at hskip ⊢
  generalize skipAsciiWhitespace (utf8 xml) (i + 1) = index at hskip ⊢
  have hend : index ≠ (utf8 xml).length ↔ s ≠ [] := not_congr hskip.eq_length_iff
  have htrailing : (index ≠ (utf8 xml).length ∧ selfClosing) ↔ (s ≠ [] ∧ selfClosing) :=
    and_congr_left fun _ => hend
  by_cases hself : s ≠ [] ∧ selfClosing
  . rw [failIf_of hself, failIf_of (htrailing.mpr hself)]
    rfl
  rw [failIf_of_not hself, failIf_of_not (fun h => hself (htrailing.mp h)), except_ok_bind,
    except_ok_bind]
  by_cases hnil : s = []
  . rw [if_pos (hskip.eq_length_iff.mpr hnil), hnil]
    rfl
  rw [if_neg (hend.mpr hnil), hskip.drop]
  split
  . contradiction
  . next s =>
    rw [failIf_of_not (not_not.mpr (isPrefixOf_closing.mpr ⟨s, rfl⟩)), except_ok_bind]
    obtain ⟨-, hrest, hslice⟩ := restAt_scanWhile
      (fun b hb => by rw [isAsciiWhitespace_of_le hb, bne_of_le hb (by decide)]; rfl) isClosingByte
      ((hskip.succ (by decide)).succ (by decide))
    generalize scanWhile (fun b => !isAsciiWhitespace b && b != 0x3E) (utf8 xml) (index + 2) = stop
      at hrest hslice ⊢
    rw [get?_of_strSlice hslice]
    by_cases hname : s.takeWhile isClosingChar = name
    . have hbytes : some (utf8 (s.takeWhile isClosingChar)) = some (utf8 name) := by rw [hname]
      rw [failIf_of_not (not_not.mpr hbytes), failIf_of_not (not_not.mpr hname), except_ok_bind,
        except_ok_bind]
      have hskip := restAt_skipAsciiWhitespace hrest
      generalize skipSpace (s.dropWhile isClosingChar) = s at hskip ⊢
      generalize skipAsciiWhitespace (utf8 xml) stop = index at hskip ⊢
      split
      . next s =>
        have hclose : (utf8 xml)[index]? = some 0x3E :=
          (hskip.getElem?_eq_some (a := '>') (by decide)).mpr ⟨s, rfl⟩
        have hlast := (restAt_skipAsciiWhitespace (hskip.succ (by decide))).eq_length_iff
        rw [failIf_of_not (not_not.mpr hclose), except_ok_bind]
        unfold failIf
        exact ite_congr (propext (not_congr hlast)) (fun _ => rfl) fun _ => rfl
      . next hclose =>
        have hbyte : (utf8 xml)[index]? ≠ some 0x3E := fun hbyte =>
          ((hskip.getElem?_eq_some (a := '>') (by decide)).mp hbyte).elim hclose
        rw [failIf_of hbyte]
        rfl
    . have hbytes : some (utf8 (s.takeWhile isClosingChar)) ≠ some (utf8 name) := fun heq =>
        hname (utf8_inj.mp (Option.some.inj heq))
      rw [failIf_of hbytes, failIf_of hname]
      rfl
  . next _ hclosing =>
    have hbegins : ¬(ascii "</").isPrefixOf (utf8 s) := fun hbegins =>
      (isPrefixOf_closing.mp hbegins).elim hclosing
    rw [failIf_of hbegins]
    rfl

/-- The scanner of the header and the parser on characters give the same result. -/
theorem parseSingleTag_eq (xml : Str) (limits : Limits)
    : parseSingleTag xml limits = readTag xml limits := by
  have hstart := RestAt.zero xml
  unfold parseSingleTag readTag
  dsimp only
  split
  . next s =>
    have hopen : (utf8 ('<' :: s))[0]? = some 0x3C :=
      (hstart.getElem?_eq_some (a := '<') (by decide)).mpr ⟨s, rfl⟩
    obtain ⟨hindex, hrest, hslice⟩ := restAt_scanWhile
      (fun b hb => by rw [isAsciiWhitespace_of_le hb, bne_of_le hb (by decide),
        bne_of_le hb (by decide)]; rfl) isTagByte (hstart.succ (by decide))
    rw [failIf_of_not (not_not.mpr hopen), except_ok_bind]
    rw [Nat.zero_add] at hindex hrest hslice
    generalize scanWhile (fun b => !isAsciiWhitespace b && b != 0x2F && b != 0x3E)
      (utf8 ('<' :: s)) 1 = index at hindex hrest hslice ⊢
    by_cases hname : s.takeWhile isTagChar = []
    . rw [failIf_of hname, failIf_of (by rw [hindex, hname]; rfl)]
      rfl
    have hne : ¬index = 1 := by
      intro heq
      have hlen : (utf8 (s.takeWhile isTagChar)).length = 0 := by omega
      exact hname (utf8_inj.mp (List.length_eq_zero_iff.mp hlen))
    rw [failIf_of_not hname, failIf_of_not hne, except_ok_bind, except_ok_bind, hslice,
      except_ok_bind, strOfUtf8_utf8, except_ok_bind]
    have hagrees := parseAttributes_agrees limits.headerAttributes limits.headerAttributes hrest []
    unfold AgreesAtEnd at hagrees
    cases hread : readAttributes limits.headerAttributes limits.headerAttributes
        (s.dropWhile isTagChar) [] with
    | error e =>
      rw [hread] at hagrees
      rw [hagrees]
      rfl
    | ok result =>
      obtain ⟨attrs, rest, selfClosing⟩ := result
      rw [hread] at hagrees
      obtain ⟨j, hparse, hj⟩ := hagrees
      rw [hparse, except_ok_bind, except_ok_bind]
      dsimp only
      rw [parseTagEnd_eq hj]
  . next hopen =>
    have hbyte : (utf8 xml)[0]? ≠ some 0x3C := fun hbyte =>
      ((hstart.getElem?_eq_some (a := '<') (by decide)).mp hbyte).elim hopen
    rw [failIf_of hbyte]
    rfl

/-! ## Panics -/

theorem readQuoted_notPanic (name : Str) (quote : Char) (s : Str)
    : FailsWith NotPanic (readQuoted name quote s) := by
  unfold readQuoted
  split
  . exact .error (notPanic_invalidFormat _)
  . exact .bind (unescapeXml_notPanic _) fun _ _ => .pure _

theorem readAttribute_notPanic (s : Str) (attrs : List (Str × Str))
    : FailsWith NotPanic (readAttribute s attrs) := by
  refine .bind (failsWith_failIf (notPanic_invalidFormat _)) fun _ _ =>
    .bind (failsWith_failIf (by rintro _ ⟨⟩)) fun _ _ => ?_
  split
  . split
    . exact readQuoted_notPanic _ _ _
    . exact readQuoted_notPanic _ _ _
    . exact .error (notPanic_invalidFormat _)
  . exact .error (notPanic_invalidFormat _)

theorem readAttributes_notPanic_of {limit left : Nat} {s : Str} {attrs : List (Str × Str)}
    (hnext : ∀ left', left = left' + 1 → ∀ s attrs,
      FailsWith NotPanic (readAttributes limit left' s attrs))
    : FailsWith NotPanic (readAttributes limit left s attrs) := by
  unfold readAttributes
  dsimp only
  split
  . exact .error (notPanic_invalidFormat _)
  . exact .ok _
  . exact .error (notPanic_invalidFormat _)
  . exact .ok _
  . split
    . exact .error (by rintro _ ⟨⟩)
    . exact .bind (readAttribute_notPanic _ _) fun _ _ => hnext _ rfl _ _

theorem readAttributes_notPanic (limit left : Nat) (s : Str) (attrs : List (Str × Str))
    : FailsWith NotPanic (readAttributes limit left s attrs) := by
  induction left generalizing s attrs with
  | zero => exact readAttributes_notPanic_of fun _ hleft => by contradiction
  | succ left ih =>
    apply readAttributes_notPanic_of
    rintro left' hleft s attrs
    cases hleft
    exact ih s attrs

theorem readTagEnd_notPanic (name s : Str) (selfClosing : Bool)
    : FailsWith NotPanic (readTagEnd name s selfClosing) := by
  refine .bind (failsWith_failIf (notPanic_invalidFormat _)) fun _ _ => ?_
  split
  . exact .ok ()
  . refine .bind (failsWith_failIf (notPanic_invalidFormat _)) fun _ _ => ?_
    split
    . exact failsWith_failIf (notPanic_invalidFormat _)
    . exact .error (notPanic_invalidFormat _)
  . exact .error (notPanic_invalidFormat _)

theorem readTag_notPanic (xml : Str) (limits : Limits) : FailsWith NotPanic (readTag xml limits) := by
  unfold readTag
  split
  . exact .bind (failsWith_failIf (notPanic_invalidFormat _)) fun _ _ =>
      .bind (readAttributes_notPanic _ _ _ _) fun _ _ =>
        .bind (readTagEnd_notPanic _ _ _) fun _ _ => .pure _
  . exact .error (notPanic_invalidFormat _)

end Tag

end Mdict
