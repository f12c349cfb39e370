import Mdict.Lib.Unicode

/-!
This module contains the references in XML text: the names of five characters and the numbers of
all characters. Text without references to resolve is plain.
-/

namespace Xml

/-! ## References -/

def decimalDigit? (c : Char) : Option Nat :=
  if 0x30 ≤ c.toNat ∧ c.toNat ≤ 0x39 then some (c.toNat - 0x30) else none

def hexDigit? (c : Char) : Option Nat :=
  if 0x30 ≤ c.toNat ∧ c.toNat ≤ 0x39 then
    some (c.toNat - 0x30)
  else if 0x61 ≤ c.toNat ∧ c.toNat ≤ 0x66 then
    some (c.toNat - 0x61 + 10)
  else if 0x41 ≤ c.toNat ∧ c.toNat ≤ 0x46 then
    some (c.toNat - 0x41 + 10)
  else
    none

/-- The number that one or more digits denote. -/
def number? (radix : Nat) (digit? : Char → Option Nat) (digits : List Char) : Option Nat :=
  if digits = [] then none else digits.foldlM (fun n c => (digit? c).map (n * radix + ·)) 0

/-- What may stand before the digits of a number: nothing, or also a plus sign. -/
def signs (plus : Bool) : List (List Char) := if plus then [[], ['+']] else [[]]

/-- What stands between `&` and `;` and the character that it refers to. -/
inductive Reference (plus : Bool) : List Char → Char → Prop where
  | amp : Reference plus ['a', 'm', 'p'] '&'
  | lt : Reference plus ['l', 't'] '<'
  | gt : Reference plus ['g', 't'] '>'
  | quot : Reference plus ['q', 'u', 'o', 't'] '"'
  | apos : Reference plus ['a', 'p', 'o', 's'] '\''
  | decimal {sign digits : List Char} {n : Nat} {c : Char} (hsign : sign ∈ signs plus)
      (hnumber : number? 10 decimalDigit? digits = some n) (hchar : Unicode.charOfNat? n = some c)
      : Reference plus ('#' :: (sign ++ digits)) c
  | hex {x : Char} {sign digits : List Char} {n : Nat} {c : Char} (hx : x = 'x' ∨ x = 'X')
      (hsign : sign ∈ signs plus) (hnumber : number? 16 hexDigit? digits = some n)
      (hchar : Unicode.charOfNat? n = some c)
      : Reference plus ('#' :: x :: (sign ++ digits)) c

/-- Text and what it stands for when its references are resolved. -/
inductive Unescapes (plus : Bool) : List Char → List Char → Prop where
  | nil : Unescapes plus [] []
  | plain {c : Char} {s t : List Char} (hc : c ≠ '&') (hrest : Unescapes plus s t)
      : Unescapes plus (c :: s) (c :: t)
  | reference {r : List Char} {c : Char} {s t : List Char} (href : Reference plus r c)
      (hrest : Unescapes plus s t)
      : Unescapes plus ('&' :: (r ++ ';' :: s)) (c :: t)

/-- Every `&` starts a reference. -/
def WellFormed (plus : Bool) (s : List Char) : Prop :=
  ∀ before after, s = before ++ '&' :: after →
    ∃ r c rest, after = r ++ ';' :: rest ∧ Reference plus r c

variable {plus : Bool} {r s t u plain : List Char} {c : Char}

theorem isSome_of_mem_number? {radix : Nat} {digit? : Char → Option Nat} {digits : List Char}
    {n : Nat} (h : number? radix digit? digits = some n) {d : Char} (hd : d ∈ digits)
    : (digit? d).isSome := by
  have hfold (digits : List Char) (start : Nat)
      (h : digits.foldlM (fun n c => (digit? c).map (n * radix + ·)) start = some n)
      (hd : d ∈ digits)
      : (digit? d).isSome := by
    induction digits generalizing start with
    | nil => contradiction
    | cons c digits ih =>
      rw [List.foldlM_cons] at h
      obtain ⟨next, hnext, hrest⟩ := Option.bind_eq_some_iff.mp h
      rw [Option.map_eq_some_iff] at hnext
      obtain ⟨value, hvalue, -⟩ := hnext
      rcases List.mem_cons.mp hd with rfl | hd
      . rw [hvalue]
        rfl
      . exact ih next hrest hd
  unfold number? at h
  split at h
  . contradiction
  . exact hfold digits 0 h hd

theorem ne_of_isSome_digit {d : Char}
    (h : (decimalDigit? d).isSome ∨ (hexDigit? d).isSome)
    : d ≠ ';' ∧ d ≠ '&' ∧ d ≠ '"' ∧ d ≠ '\'' ∧ d ≠ '+' := by
  refine ⟨?_, ?_, ?_, ?_, ?_⟩
  all_goals
    rintro rfl
    revert h
    decide

/-- Nothing in a reference ends it, starts another or is a quote. -/
theorem Reference.ne (h : Reference plus r c) {d : Char} (hd : d ∈ r)
    : d ≠ ';' ∧ d ≠ '&' ∧ d ≠ '"' ∧ d ≠ '\'' := by
  have hsigns {sign : List Char} (hsign : sign ∈ signs plus) (hd : d ∈ sign) : d = '+' := by
    unfold signs at hsign
    split at hsign
    . simp only [List.mem_cons, List.not_mem_nil, or_false] at hsign
      rcases hsign with rfl | rfl
      . contradiction
      . exact List.mem_singleton.mp hd
    . rw [List.mem_singleton.mp hsign] at hd
      contradiction
  have hnames : d ∈ ['a', 'm', 'p'] ∨ d ∈ ['l', 't'] ∨ d ∈ ['g', 't']
      ∨ d ∈ ['q', 'u', 'o', 't'] ∨ d ∈ ['a', 'p', 'o', 's'] ∨ d ∈ ['#', 'x', 'X', '+']
      → d ≠ ';' ∧ d ≠ '&' ∧ d ≠ '"' ∧ d ≠ '\'' := by
    intro h
    simp only [List.mem_cons, List.not_mem_nil, or_false] at h
    refine ⟨?_, ?_, ?_, ?_⟩
    all_goals
      rintro rfl
      revert h
      decide
  cases h with
  | amp => exact hnames (.inl hd)
  | lt => exact hnames (.inr (.inl hd))
  | gt => exact hnames (.inr (.inr (.inl hd)))
  | quot => exact hnames (.inr (.inr (.inr (.inl hd))))
  | apos => exact hnames (.inr (.inr (.inr (.inr (.inl hd)))))
  | decimal hsign hnumber hchar =>
    rcases List.mem_cons.mp hd with rfl | hd
    . decide
    . rcases List.mem_append.mp hd with hd | hd
      . rw [hsigns hsign hd]
        decide
      . have := ne_of_isSome_digit (.inl (isSome_of_mem_number? hnumber hd))
        exact ⟨this.1, this.2.1, this.2.2.1, this.2.2.2.1⟩
  | hex hx hsign hnumber hchar =>
    rcases List.mem_cons.mp hd with rfl | hd
    . decide
    . rcases List.mem_cons.mp hd with rfl | hd
      . rcases hx with rfl | rfl <;> decide
      . rcases List.mem_append.mp hd with hd | hd
        . rw [hsigns hsign hd]
          decide
        . have := ne_of_isSome_digit (.inr (isSome_of_mem_number? hnumber hd))
          exact ⟨this.1, this.2.1, this.2.2.1, this.2.2.2.1⟩

theorem Reference.mono (h : Reference false r c) : Reference plus r c := by
  have hsigns {sign : List Char} (hsign : sign ∈ signs false) : sign ∈ signs plus := by
    rw [List.mem_singleton.mp hsign]
    cases plus <;> decide
  cases h with
  | amp => exact .amp
  | lt => exact .lt
  | gt => exact .gt
  | quot => exact .quot
  | apos => exact .apos
  | decimal hsign hnumber hchar => exact .decimal (hsigns hsign) hnumber hchar
  | hex hx hsign hnumber hchar => exact .hex hx (hsigns hsign) hnumber hchar

/-! ## Text -/

/-- Only one reference can start at a place, for it ends at the first `;`. -/
theorem append_semicolon_inj {r' s' : List Char} (h : r ++ ';' :: s = r' ++ ';' :: s')
    (hr : ';' ∉ r) (hr' : ';' ∉ r')
    : r = r' ∧ s = s' := by
  induction r generalizing r' with
  | nil =>
    cases r' with
    | nil =>
      injection h with _ h
      exact ⟨rfl, h⟩
    | cons d r' =>
      injection h with hd _
      exact absurd (hd ▸ List.mem_cons_self) hr'
  | cons d r ih =>
    cases r' with
    | nil =>
      injection h with hd _
      exact absurd (hd ▸ List.mem_cons_self) hr
    | cons d' r' =>
      injection h with hd h
      obtain ⟨rfl, rfl⟩ := ih h (fun hmem => hr (List.mem_cons_of_mem _ hmem))
        fun hmem => hr' (List.mem_cons_of_mem _ hmem)
      exact ⟨by rw [hd], rfl⟩

theorem Reference.semicolon_not_mem (h : Reference plus r c) : ';' ∉ r :=
  fun hmem => (h.ne hmem).1 rfl

theorem Unescapes.mono (h : Unescapes false s t) : Unescapes plus s t := by
  induction h with
  | nil => exact .nil
  | plain hc hrest ih => exact .plain hc ih
  | reference href hrest ih => exact .reference href.mono ih

theorem unescapes_cons (hc : c ≠ '&')
    : Unescapes plus (c :: s) u ↔ ∃ t, u = c :: t ∧ Unescapes plus s t := by
  constructor
  . intro h
    cases h with
    | plain _ hrest => exact ⟨_, rfl, hrest⟩
    | reference => exact absurd rfl hc
  . rintro ⟨t, rfl, ht⟩
    exact .plain hc ht

theorem unescapes_append (hplain : '&' ∉ plain)
    : Unescapes plus (plain ++ s) u ↔ ∃ t, u = plain ++ t ∧ Unescapes plus s t := by
  induction plain generalizing u with
  | nil => simp
  | cons c plain ih =>
    have hc : c ≠ '&' := fun heq => hplain (heq ▸ List.mem_cons_self)
    have ih := fun u => @ih u fun hmem => hplain (List.mem_cons_of_mem _ hmem)
    rw [List.cons_append, unescapes_cons hc]
    constructor
    . rintro ⟨t, rfl, ht⟩
      obtain ⟨rest, rfl, hrest⟩ := (ih _).mp ht
      exact ⟨rest, rfl, hrest⟩
    . rintro ⟨t, rfl, ht⟩
      exact ⟨plain ++ t, rfl, (ih _).mpr ⟨t, rfl, ht⟩⟩

/-- Text without `&` stands for itself. -/
theorem unescapes_plain (hs : '&' ∉ s) : Unescapes plus s u ↔ u = s := by
  have h := @unescapes_append plus [] u s hs
  rw [List.append_nil] at h
  rw [h]
  constructor
  . rintro ⟨t, rfl, ht⟩
    cases ht
    exact List.append_nil s
  . intro heq
    exact ⟨[], by rw [heq, List.append_nil], .nil⟩

theorem unescapes_reference
    : Unescapes plus ('&' :: s) u
        ↔ ∃ r c rest t, s = r ++ ';' :: rest ∧ Reference plus r c ∧ u = c :: t
          ∧ Unescapes plus rest t := by
  constructor
  . intro h
    cases h with
    | plain hc _ => exact absurd rfl hc
    | reference href hrest => exact ⟨_, _, _, _, rfl, href, rfl, hrest⟩
  . rintro ⟨r, c, rest, t, rfl, href, rfl, hrest⟩
    exact .reference href hrest

theorem WellFormed.of_append (h : WellFormed plus (u ++ s)) : WellFormed plus s := by
  rintro before after rfl
  exact h (u ++ before) after (List.append_assoc _ _ _).symm

/-- Text stands for something exactly when every `&` in it starts a reference. -/
theorem wellFormed_iff : WellFormed plus s ↔ ∃ t, Unescapes plus s t := by
  constructor
  . intro h
    induction hn : s.length using Nat.strongRecOn generalizing s with
    | ind n ih =>
      cases s with
      | nil => exact ⟨[], .nil⟩
      | cons c s =>
        rw [List.length_cons] at hn
        by_cases hc : c = '&'
        . subst hc
          obtain ⟨r, c, rest, rfl, href⟩ := h [] s rfl
          have hrest : WellFormed plus rest := by
            apply WellFormed.of_append (u := '&' :: (r ++ [';']))
            rwa [List.cons_append, List.append_assoc]
          rw [List.length_append, List.length_cons] at hn
          obtain ⟨t, ht⟩ := ih rest.length (by omega) hrest rfl
          exact ⟨c :: t, .reference href ht⟩
        . obtain ⟨t, ht⟩ := ih s.length (by omega) (WellFormed.of_append (u := [c]) h) rfl
          exact ⟨c :: t, .plain hc ht⟩
  . rintro ⟨t, ht⟩
    induction ht with
    | nil =>
      intro before after h
      cases before <;> contradiction
    | plain hc hrest ih =>
      intro before after h
      cases before with
      | nil =>
        injection h with hc' _
        exact absurd hc' hc
      | cons d before =>
        injection h with _ h
        exact ih before after h
    | @reference r c s t href hrest ih =>
      intro before after h
      cases before with
      | nil =>
        injection h with _ h
        exact ⟨r, c, s, h.symm, href⟩
      | cons d before =>
        injection h with _ h
        rcases List.append_eq_append_iff.mp h with ⟨middle, rfl, hs⟩ | ⟨middle, rfl, hafter⟩
        . cases middle with
          | nil =>
            injection hs with heq _
            exact absurd heq (by decide)
          | cons d' middle =>
            injection hs with _ hs
            exact ih middle after hs
        . -- The reference itself has no other `&`.
          cases middle with
          | nil =>
            injection hafter with heq _
            exact absurd heq (by decide)
          | cons d' middle =>
            injection hafter with heq _
            have hmem : d' ∈ before ++ d' :: middle :=
              List.mem_append_right _ List.mem_cons_self
            exact absurd heq.symm (href.ne hmem).2.1

/-! ## Signs -/

/-- What stands between the `&` of a reference and its number. -/
def marks : List (List Char) := [['#'], ['#', 'x'], ['#', 'X']]

/-- Somewhere a plus sign stands where the digits of a number should. -/
def Signed (s : List Char) : Prop :=
  ∃ before mark after, mark ∈ marks ∧ s = before ++ '&' :: (mark ++ '+' :: after)

/-- A reference without signs does not begin like one with a sign. -/
theorem Reference.not_signed (h : Reference false r c) {mark after rest : List Char}
    (hmark : mark ∈ marks)
    : mark ++ '+' :: after ≠ r ++ ';' :: rest := by
  have hdigits {radix n : Nat} {digit? : Char → Option Nat} {digits : List Char}
      (hnumber : number? radix digit? digits = some n) {d : Char} (hd : digit? d = none)
      (after rest : List Char)
      : d :: after ≠ digits ++ ';' :: rest := by
    intro heq
    cases digits with
    | nil => contradiction
    | cons d' digits =>
      injection heq with hhead _
      have hsome := isSome_of_mem_number? hnumber (hhead ▸ List.mem_cons_self : d ∈ _)
      rw [hd] at hsome
      contradiction
  have hbegin : ∃ tail, mark ++ '+' :: after = '#' :: tail := by
    simp only [marks, List.mem_cons, List.not_mem_nil, or_false] at hmark
    rcases hmark with rfl | rfl | rfl
    . exact ⟨_, rfl⟩
    . exact ⟨_, rfl⟩
    . exact ⟨_, rfl⟩
  have hname {d : Char} {name : List Char} (hd : d ≠ '#')
      : mark ++ '+' :: after ≠ (d :: name) ++ ';' :: rest := by
    obtain ⟨tail, htail⟩ := hbegin
    rw [htail]
    intro heq
    injection heq with hhead _
    exact hd hhead.symm
  cases h with
  | amp => exact hname (by decide)
  | lt => exact hname (by decide)
  | gt => exact hname (by decide)
  | quot => exact hname (by decide)
  | apos => exact hname (by decide)
  | decimal hsign hnumber _ =>
    rw [List.mem_singleton.mp hsign]
    intro heq
    simp only [marks, List.mem_cons, List.not_mem_nil, or_false] at hmark
    rcases hmark with rfl | rfl | rfl
    . injection heq with _ heq
      exact hdigits hnumber (d := '+') rfl _ _ heq
    . injection heq with _ heq
      exact hdigits hnumber (d := 'x') rfl _ _ heq
    . injection heq with _ heq
      exact hdigits hnumber (d := 'X') rfl _ _ heq
  | hex hx hsign hnumber _ =>
    rw [List.mem_singleton.mp hsign]
    intro heq
    simp only [marks, List.mem_cons, List.not_mem_nil, or_false] at hmark
    rcases hmark with rfl | rfl | rfl
    . injection heq with _ heq
      injection heq with hhead _
      rcases hx with rfl | rfl <;> contradiction
    . injection heq with _ heq
      injection heq with _ heq
      exact hdigits hnumber (d := '+') rfl _ _ heq
    . injection heq with _ heq
      injection heq with _ heq
      exact hdigits hnumber (d := '+') rfl _ _ heq

/-- A reference has no sign, or it begins with a mark and a sign. -/
theorem Reference.unsigned_or (h : Reference true r c)
    : Reference false r c ∨ ∃ mark ∈ marks, ∃ digits, r = mark ++ '+' :: digits := by
  have hsigns {sign : List Char} (hsign : sign ∈ signs true) : sign ∈ signs false ∨ sign = ['+'] := by
    rcases List.mem_cons.mp hsign with rfl | hsign
    . exact .inl List.mem_cons_self
    . exact .inr (List.mem_singleton.mp hsign)
  cases h with
  | amp => exact .inl .amp
  | lt => exact .inl .lt
  | gt => exact .inl .gt
  | quot => exact .inl .quot
  | apos => exact .inl .apos
  | @decimal sign digits n c hsign hnumber hchar =>
    rcases hsigns hsign with hsign | rfl
    . exact .inl (.decimal hsign hnumber hchar)
    . exact .inr ⟨['#'], by decide, digits, rfl⟩
  | @hex x sign digits n c hx hsign hnumber hchar =>
    rcases hsigns hsign with hsign | rfl
    . exact .inl (.hex hx hsign hnumber hchar)
    . refine .inr ⟨['#', x], ?_, digits, rfl⟩
      rcases hx with rfl | rfl <;> decide

/-- Text that is well formed but for signs is well formed when it has no signs. -/
theorem wellFormed_iff_not_signed (h : WellFormed true s) : WellFormed false s ↔ ¬Signed s := by
  constructor
  . rintro hs ⟨before, mark, after, hmark, rfl⟩
    obtain ⟨r, c, rest, heq, href⟩ := hs before _ rfl
    exact href.not_signed hmark heq
  . rintro hs before after rfl
    obtain ⟨r, c, rest, rfl, href⟩ := h before after rfl
    rcases href.unsigned_or with href | ⟨mark, hmark, digits, rfl⟩
    . exact ⟨r, c, rest, rfl, href⟩
    . exfalso
      refine hs ⟨before, mark, digits ++ ';' :: rest, hmark, ?_⟩
      rw [List.append_assoc]
      rfl

theorem WellFormed.mono (h : WellFormed false s) : WellFormed plus s := by
  intro before after hs
  obtain ⟨r, c, rest, hrest, href⟩ := h before after hs
  exact ⟨r, c, rest, hrest, href.mono⟩

end Xml
