import Mdict.Lemmas.Page

/-!
This module contains what the selection of case variants answers: the exact matches of a range and
then the keys that differ only in case, whatever backend supplies the keys.
-/

namespace Mdict

open Effect

namespace CaseVariants

variable {p : Platform} {query : Str} {offset limit : Nat}

/-- The exact matches among the candidates. -/
def exactOf (query : Str) (candidates : List (Nat × Str)) : List Nat :=
  (candidates.filter fun candidate => candidate.2 == query).map (·.1)

/-- The candidates that differ from the query only in case. -/
def variantsOf (p : Platform) (query : Str) (candidates : List (Nat × Str)) : List Nat :=
  (candidates.filter fun candidate =>
    candidate.2 != query && equalIgnoringCase p candidate.2 query).map (·.1)

/-- The page that shows a window of the exact matches followed by the variants. -/
def pageOf (offset limit : Nat) (exact variants : List Nat) : Option LocatedKeyPage :=
  if exact.length + variants.length = 0 then
    none
  else
    some {
      basis := if variants.length = 0 then .rawExact else .caseVariants
      total := exact.length + variants.length
      ordinals := Search.window (exact ++ variants) offset limit
    }

/-- The first pass counts both groups and keeps the window of the exact one. -/
theorem foldl_countRow (candidates seen : List (Nat × Str))
    : candidates.foldl (countRow p query offset limit)
          ⟨Search.window (exactOf query seen) offset limit, (exactOf query seen).length,
            (variantsOf p query seen).length⟩
        = ⟨Search.window (exactOf query (seen ++ candidates)) offset limit,
            (exactOf query (seen ++ candidates)).length,
            (variantsOf p query (seen ++ candidates)).length⟩ := by
  induction candidates generalizing seen with
  | nil => rw [List.append_nil]; rfl
  | cons candidate candidates ih =>
    have ih := ih (seen ++ [candidate])
    rw [List.append_assoc, List.singleton_append] at ih
    rw [List.foldl_cons, ← ih]
    congr 1
    obtain ⟨ordinal, key⟩ := candidate
    unfold countRow
    dsimp only
    by_cases hexact : key = query
    . rw [if_pos hexact]
      simp [exactOf, variantsOf, hexact, Search.window_concat]
    . rw [if_neg hexact]
      cases hcase : equalIgnoringCase p key query with
      | true => simp [exactOf, variantsOf, hexact, hcase]
      | false => simp [exactOf, variantsOf, hexact, hcase]

variable {w : World} {I : Session → Prop} {E : Error → Prop} {sourceKey : Nat → Exec (Nat × Str)}

/-- The second pass fills the page up with variants. -/
theorem fillVariants_ensures {wanted variantOffset : Nat} (rest : List (Nat × Str))
    (first variantPosition : Nat) (ordinals : List Nat)
    (hsource : ∀ i candidate, rest[i]? = some candidate →
      Ensures w I (sourceKey (first + i)) (· = candidate) E)
    (hwanted : ordinals.length < wanted)
    : Ensures w I
        (fillVariants p query wanted variantOffset sourceKey (List.range' first rest.length)
          variantPosition ordinals)
        (· = ordinals ++ ((variantsOf p query rest).drop (variantOffset - variantPosition)).take
          (wanted - ordinals.length)) E := by
  induction rest generalizing first variantPosition ordinals with
  | nil =>
    apply Ensures.pure
    simp [variantsOf]
  | cons candidate rest ih =>
    have hrest (i : Nat) (candidate : Nat × Str) (hi : rest[i]? = some candidate)
        : Ensures w I (sourceKey (first + 1 + i)) (· = candidate) E := by
      have := hsource (i + 1) candidate hi
      rwa [Nat.add_comm i, ← Nat.add_assoc] at this
    rw [List.length_cons, List.range'_succ]
    unfold fillVariants
    apply Ensures.bind (hsource 0 candidate rfl)
    rintro ⟨ordinal, key⟩ rfl
    dsimp only
    by_cases hvariant : key ≠ query ∧ equalIgnoringCase p key query
    . have hcons : variantsOf p query ((ordinal, key) :: rest)
          = ordinal :: variantsOf p query rest := by
        simp [variantsOf, hvariant]
      rw [if_pos hvariant, hcons]
      split
      . next hge =>
        have hdrop : variantOffset - variantPosition = 0 := by omega
        have hdrop' : variantOffset - (variantPosition + 1) = 0 := by omega
        rw [hdrop, List.drop_zero]
        obtain ⟨n, hn⟩ := Nat.exists_eq_add_of_lt hwanted
        have htake : wanted - ordinals.length = n + 1 := by omega
        rw [htake, List.take_succ_cons]
        split
        . next hfull =>
          rw [List.length_append, List.length_singleton] at hfull
          have hzero : n = 0 := by omega
          apply Ensures.pure
          rw [hzero, List.take_zero]
        . next hnot =>
          rw [List.length_append, List.length_singleton] at hnot
          have hih := ih (first + 1) (variantPosition + 1) (ordinals ++ [ordinal]) hrest (by
            rw [List.length_append, List.length_singleton]
            omega)
          apply hih.mono _ (fun _ h => h)
          rintro _ rfl
          have htake' : wanted - (ordinals ++ [ordinal]).length = n := by
            rw [List.length_append, List.length_singleton]
            omega
          rw [htake', hdrop', List.drop_zero, List.append_assoc, List.singleton_append]
      . next hlt =>
        apply (ih (first + 1) (variantPosition + 1) ordinals hrest hwanted).mono _ (fun _ h => h)
        rintro _ rfl
        have hdrop : variantOffset - variantPosition = (variantOffset - (variantPosition + 1)) + 1 := by
          omega
        rw [hdrop, List.drop_succ_cons]
    . have hcons : variantsOf p query ((ordinal, key) :: rest) = variantsOf p query rest := by
        rw [variantsOf, List.filter_cons_of_neg]
        . rfl
        . simpa using hvariant
      rw [if_neg hvariant, hcons]
      exact ih (first + 1) variantPosition ordinals hrest hwanted

/--
A selection shows the window of the exact matches followed by the variants, provided the backend
supplies the same candidate for a position every time.
-/
theorem selectPage_ensures {file : MdictFile} {count : Nat} {C : Nat → Nat × Str → Prop}
    (hI : LogInvariant I) (hw : w.platform = p)
    (hunique : ∀ position a b, C position a → C position b → a = b)
    (hsource : ∀ position, position < count → Ensures w I (sourceKey position) (C position) E)
    (hinterrupted : ∀ e, Interrupted w e → E e)
    (hoverflow : u64Bound ≤ min limit (count - offset) * 4 → ∀ e, E e)
    (hlimit : file.limits.locatorBytes < min limit (count - offset) * 4 →
      ∀ e, e.isLimitExceeded → e.isRowLimit = false → E e)
    : Ensures w I (selectPage file query count offset limit sourceKey)
        (fun page => ∃ candidates, candidates.length = count
          ∧ (∀ position candidate, candidates[position]? = some candidate → C position candidate)
          ∧ page = pageOf offset limit (exactOf query candidates) (variantsOf p query candidates))
        E := by
  subst hw
  unfold selectPage
  apply ensures_checkedMul_bind
  . exact fun h => hoverflow h _
  intro _
  apply ensures_failIf_bind
  . exact fun h => hlimit h _ rfl rfl
  intro _
  apply ensures_reserve_bind hI hinterrupted
  apply ensures_platform_bind
  apply Ensures.bind (Ensures.foldlM_range (J := fun i counts =>
    ∃ candidates : List (Nat × Str), candidates.length = i
      ∧ (∀ position candidate, candidates[position]? = some candidate → C position candidate)
      ∧ counts = candidates.foldl (countRow w.platform query offset limit) ⟨[], 0, 0⟩) ?step
    ⟨[], rfl, by simp, rfl⟩)
  case step =>
    rintro i counts hi ⟨candidates, rfl, hcandidates, rfl⟩
    apply Ensures.bind (hsource _ hi)
    intro candidate hcandidate
    apply Ensures.pure
    refine ⟨candidates ++ [candidate], by simp, ?_, by rw [List.foldl_append]; rfl⟩
    intro position other hother
    rw [List.getElem?_append] at hother
    split at hother
    . exact hcandidates position other hother
    . rw [List.getElem?_singleton] at hother
      split at hother
      . cases hother
        have : position = candidates.length := by omega
        exact this ▸ hcandidate
      . contradiction
  rintro _ ⟨candidates, rfl, hcandidates, rfl⟩
  have hcounts := @foldl_countRow w.platform query offset limit
    candidates []
  have hnil : Search.window (exactOf query []) offset limit = [] := by simp [exactOf, Search.window]
  rw [List.nil_append, hnil] at hcounts
  change candidates.foldl (countRow w.platform query offset limit) ⟨[], 0, 0⟩ = _ at hcounts
  rw [hcounts]
  dsimp only
  by_cases htotal : (exactOf query candidates).length
      + (variantsOf w.platform query candidates).length = 0
  . rw [if_pos htotal]
    apply Ensures.pure
    refine ⟨candidates, rfl, hcandidates, ?_⟩
    rw [pageOf, if_pos htotal]
  . rw [if_neg htotal]
    have hpage : pageOf offset limit (exactOf query candidates)
        (variantsOf w.platform query candidates) = some {
        basis := if (variantsOf w.platform query candidates).length = 0 then .rawExact
          else .caseVariants
        total := (exactOf query candidates).length
          + (variantsOf w.platform query candidates).length
        ordinals := Search.window (exactOf query candidates) offset limit
          ++ ((variantsOf w.platform query candidates).drop
              (offset - (exactOf query candidates).length)).take
            (min limit ((exactOf query candidates).length
                + (variantsOf w.platform query candidates).length - offset)
              - (Search.window (exactOf query candidates) offset limit).length) } := by
      rw [pageOf, if_neg htotal, Search.window_append]
    split
    . next hwanted =>
      rw [List.range_eq_range']
      apply Ensures.bind (fillVariants_ensures candidates 0 0 _ ?_ hwanted)
      . rintro _ rfl
        apply Ensures.pure
        exact ⟨candidates, rfl, hcandidates, by rw [hpage, Nat.sub_zero]⟩
      . intro i candidate hi
        rw [Nat.zero_add]
        apply (hsource i (List.getElem?_eq_some_iff.mp hi).1).mono _ (fun _ h => h)
        intro other hother
        exact hunique i other candidate hother (hcandidates i candidate hi)
    . next hfull =>
      apply Ensures.bind (R := fun ordinals => ordinals
        = Search.window (exactOf query candidates) offset limit) (.pure rfl)
      rintro _ rfl
      apply Ensures.pure
      refine ⟨candidates, rfl, hcandidates, ?_⟩
      rw [hpage, Nat.sub_eq_zero_of_le (by omega), List.take_zero, List.append_nil]

end CaseVariants

namespace MdictFile

variable {file : MdictFile} {w : World} {I : Session → Prop} {p : Platform}
variable {blocks : List (List DecodedKeyRow)} {keys : List Str}

/-- The keys with the normalized text of `query` that differ from it only in case. -/
def variantOrdinals (file : MdictFile) (p : Platform) (keys : List Str) (query : Str) : List Nat :=
  ordinalsWhere keys fun key =>
    file.keyText p key = file.keyText p query && (key != query && equalIgnoringCase p key query)

/-- The candidates are the rows of a range with their keys. -/
def IsCandidate (keyOf : Nat → Option Str) (rows : List Nat) (position : Nat)
    (candidate : Nat × Str)
    : Prop :=
  rows[position]? = some candidate.1 ∧ keyOf candidate.1 = some candidate.2

theorem IsCandidate.unique {keyOf : Nat → Option Str} {rows : List Nat} {position : Nat}
    {a b : Nat × Str} (ha : IsCandidate keyOf rows position a)
    (hb : IsCandidate keyOf rows position b)
    : a = b := by
  obtain ⟨row, key⟩ := a
  obtain ⟨row', key'⟩ := b
  obtain ⟨hrow, hkey⟩ := ha
  obtain ⟨hrow', hkey'⟩ := hb
  rw [hrow, Option.some.injEq] at hrow'
  dsimp only at hrow' hkey hkey'
  subst hrow'
  rw [hkey, Option.some.injEq] at hkey'
  rw [hkey']

theorem map_filter_candidates {keyOf : Nat → Option Str} {rows : List Nat}
    {candidates : List (Nat × Str)} (hlen : candidates.length = rows.length)
    (h : ∀ position candidate, candidates[position]? = some candidate →
      IsCandidate keyOf rows position candidate)
    (p : Str → Bool)
    : (candidates.filter fun candidate => p candidate.2).map (·.1)
        = rows.filter fun row => (keyOf row).any p := by
  induction rows generalizing candidates with
  | nil =>
    rw [List.length_nil, List.length_eq_zero_iff] at hlen
    rw [hlen]
    rfl
  | cons row rows ih =>
    cases candidates with
    | nil => simp at hlen
    | cons candidate candidates =>
      obtain ⟨hrow, hkey⟩ := h 0 candidate rfl
      rw [List.getElem?_cons_zero, Option.some.injEq] at hrow
      have ih := @ih candidates (by simpa using hlen)
        (fun position candidate hc => h (position + 1) candidate hc)
      subst hrow
      rw [List.filter_cons, List.filter_cons, hkey, Option.any_some]
      split
      . rw [List.map_cons, ih]
      . exact ih

theorem exactOf_eq {query : Str} {candidates : List (Nat × Str)}
    (hlen : candidates.length = (file.textOrdinals p keys (file.keyText p query)).length)
    (h : ∀ position candidate, candidates[position]? = some candidate →
      IsCandidate (keys[·]?) (file.textOrdinals p keys (file.keyText p query)) position candidate)
    : CaseVariants.exactOf query candidates = exactOrdinals keys query := by
  rw [CaseVariants.exactOf, map_filter_candidates hlen h (· == query)]
  exact filter_textOrdinals keys query

theorem variantsOf_eq {query : Str} {candidates : List (Nat × Str)}
    (hlen : candidates.length = (file.textOrdinals p keys (file.keyText p query)).length)
    (h : ∀ position candidate, candidates[position]? = some candidate →
      IsCandidate (keys[·]?) (file.textOrdinals p keys (file.keyText p query)) position candidate)
    : CaseVariants.variantsOf p query candidates = file.variantOrdinals p keys query := by
  rw [CaseVariants.variantsOf,
    map_filter_candidates hlen h (fun key => key != query && equalIgnoringCase p key query)]
  exact filter_ordinalsWhere keys _ _

theorem locateCaseVariants_ensures (hI : file.Invariant w.platform I) (query : Str)
    (offset limit : Nat)
    : Ensures w I (file.locateCaseVariants query offset limit)
        (fun page => ∃ blocks, file.DecodesTo w.platform blocks
          ∧ page = CaseVariants.pageOf offset limit (exactOrdinals (keysOf blocks) query)
              (file.variantOrdinals w.platform (keysOf blocks) query))
        (file.LookupFails w query) := by
  have hbound : u32Max + 1 = u32Bound ∧ u32Bound * 16 ≤ u64Bound ∧ u64Max + 1 = u64Bound := by
    decide
  unfold locateCaseVariants
  apply ensures_lookup hI
  . exact fun e he => he
  intro blocks hblocks hfits
  have hentries := hfits.entries
  have hbytes := hfits.bytes
  cases hrange : (file.locatorOf w.platform (keysOf blocks)).equalRange
      (file.keyText w.platform query) with
  | none =>
    have htext := equalRange_eq_none hrange
    apply Ensures.pure
    refine ⟨blocks, hblocks, ?_⟩
    have hexact : exactOrdinals (keysOf blocks) query = [] := by
      rw [← @filter_textOrdinals file w.platform, htext]
      rfl
    have hvariant : file.variantOrdinals w.platform (keysOf blocks) query = [] := by
      rw [variantOrdinals, ← filter_ordinalsWhere, ← textOrdinals, htext]
      rfl
    rw [hexact, hvariant]
    rfl
  | some range =>
    obtain ⟨start, stop⟩ := range
    obtain ⟨hlt, hle, hslice⟩ := slice_equalRange hrange
    have horder : (file.locatorOf w.platform (keysOf blocks)).order.length
        = (keysOf blocks).length := (sorted_locatorOf (keysOf blocks)).length_eq
    have hcount : (file.textOrdinals w.platform (keysOf blocks)
        (file.keyText w.platform query)).length = stop - start := by
      rw [← hslice, Search.length_slice (by rw [horder]; exact hle)]
    dsimp only
    apply (CaseVariants.selectPage_ensures (C := IsCandidate ((keysOf blocks)[·]?)
      (file.textOrdinals w.platform (keysOf blocks) (file.keyText w.platform query)))
      hI.events rfl ?unique ?source ?interrupted ?overflow ?limit).mono _ (fun _ h => h)
    case unique => exact fun _ _ _ => IsCandidate.unique
    case source =>
      intro position hposition
      have hrow := List.getElem?_eq_getElem
        (l := (file.locatorOf w.platform (keysOf blocks)).order) (i := start + position) (by omega)
      generalize (file.locatorOf w.platform (keysOf blocks)).order[start + position] = row at hrow
      have hlt : row < (keysOf blocks).length :=
        (sorted_locatorOf (keysOf blocks)).lt_of_mem (List.mem_of_getElem? hrow)
      have hkey := List.getElem?_eq_getElem hlt
      rw [hrow, okOr_some]
      have hanswer := keyAtOrdinal_answers hI hblocks row
      rw [hkey, Option.map_some] at hanswer
      apply Answers.ensures _ _ (fun e he => .inl he)
      rotate_left
      . exact Answers.liftM.bind_ok (hanswer.bind_ok (Answers.liftM.bind_ok .pure))
      . refine ⟨?_, hkey⟩
        rw [← hslice, Search.slice, List.getElem?_take_of_lt hposition, List.getElem?_drop]
        exact hrow
    case interrupted => exact fun e he => .inl he
    case overflow =>
      intro h
      omega
    case limit =>
      intro h
      omega
    rintro page ⟨candidates, hlen, hcandidates, rfl⟩
    rw [← hcount] at hlen
    exact ⟨blocks, hblocks, by rw [exactOf_eq hlen hcandidates, variantsOf_eq hlen hcandidates]⟩

end MdictFile

end Mdict
