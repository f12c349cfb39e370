import Mdict.Lemmas.Locate

/-!
This module contains what the paged, prefix and scan queries of the in-memory locator answer.
-/

namespace Mdict

open Effect

namespace LocatedKeyPage

/-- What a caller sees of a page. -/
def view (page : LocatedKeyPage) : LocatorBasis × Nat × List Nat :=
  (page.basis, page.total, page.ordinals)

/-- The page that shows a window of a complete result. -/
def of (offset limit : Nat) (found : LocatorBasis × List Nat) : LocatorBasis × Nat × List Nat :=
  (found.1, found.2.length, Search.window found.2 offset limit)

end LocatedKeyPage

namespace MdictFile

variable {file : MdictFile} {w : World} {I : Session → Prop} {p : Platform}
variable {blocks : List (List DecodedKeyRow)} {keys : List Str}

/-! ## Pages -/

/-- Pushing one match after another keeps the window of the matches so far. -/
theorem foldlM_push {offset limit : Nat} (isMatch : Nat → Bool) (rows seen : List Nat)
    (hlen : seen.length + rows.length < u64Bound)
    : rows.foldlM (fun (page : PageRows) row =>
          if isMatch row then page.push offset limit row else .ok page)
        ⟨Search.window (seen.filter isMatch) offset limit, (seen.filter isMatch).length⟩
      = (.ok ⟨Search.window ((seen ++ rows).filter isMatch) offset limit,
          ((seen ++ rows).filter isMatch).length⟩ : Except Error PageRows) := by
  induction rows generalizing seen with
  | nil =>
    rw [List.append_nil]
    rfl
  | cons row rows ih =>
    rw [List.length_cons] at hlen
    have ih := ih (seen ++ [row]) (by rw [List.length_append, List.length_singleton]; omega)
    rw [List.append_assoc, List.singleton_append] at ih
    rw [List.foldlM_cons, ← ih, List.filter_append]
    cases hmatch : isMatch row with
    | true =>
      have hle := List.length_filter_le isMatch seen
      have hadd : checkedAdd (seen.filter isMatch).length 1
          = some ((seen.filter isMatch).length + 1) := by
        rw [checkedAdd_eq_some]
        omega
      rw [if_pos rfl, PageRows.push, hadd, okOr_some, List.filter_cons_of_pos hmatch,
        List.filter_nil, Search.window_concat, List.length_append, List.length_singleton]
      rfl
    | false =>
      rw [if_neg (by simp), List.filter_cons_of_neg (by simp [hmatch]), List.filter_nil,
        List.append_nil]
      rfl

/-- Reading the order at the positions of a range gives its rows. -/
theorem mapM_positions {order : List Nat} {start stop : Nat} {error : Error}
    (hstop : stop ≤ order.length)
    : Answers w I
        ((positions start stop).mapM fun position => (liftM (okOr order[position]? error) : Exec Nat))
        (.ok (Search.slice order start stop)) := by
  rw [positions, Search.slice]
  induction hn : stop - start generalizing start with
  | zero => exact .pure
  | succ n ih =>
    have hlt : start < order.length := by omega
    rw [List.range'_succ, List.drop_eq_getElem_cons hlt, List.take_succ_cons, List.mapM_cons,
      List.getElem?_eq_getElem hlt, okOr_some]
    exact Answers.liftM.bind_ok ((ih (by omega)).bind_ok .pure)

theorem locateKeyPage_ensures (hI : file.Invariant w.platform I) (query : Str)
    (offset limit : Nat)
    : Ensures w I (file.locateKeyPage query offset limit)
        (fun page => ∃ blocks, file.DecodesTo w.platform blocks
          ∧ page.map LocatedKeyPage.view
            = (file.found w.platform (keysOf blocks) query).map (LocatedKeyPage.of offset limit))
        (file.LookupFails w query) := by
  have hbound : u32Max + 1 = u32Bound ∧ u32Bound * 16 ≤ u64Bound ∧ u64Max + 1 = u64Bound := by
    decide
  unfold locateKeyPage
  apply ensures_lookup hI
  . exact fun e he => he
  intro blocks hblocks hfits
  have hentries := hfits.entries
  have hbytes := hfits.bytes
  cases hrange : (file.locatorOf w.platform (keysOf blocks)).equalRange
      (file.keyText w.platform query) with
  | none =>
    apply Ensures.pure
    exact ⟨blocks, hblocks, by rw [found_of_equalRange_eq_none hrange]; rfl⟩
  | some range =>
    obtain ⟨start, stop⟩ := range
    obtain ⟨hlt, hle, hslice⟩ := slice_equalRange hrange
    have hfound := found_of_equalRange hrange
    have horder : (file.locatorOf w.platform (keysOf blocks)).order.length
        = (keysOf blocks).length := (sorted_locatorOf (keysOf blocks)).length_eq
    dsimp only
    have hmul : checkedMul (min limit (stop - start - offset)) 4
        = some (min limit (stop - start - offset) * 4) := by
      rw [checkedMul_eq_some]
      omega
    rw [hmul, okOr_some]
    apply Ensures.liftM_bind
    . intro e he
      contradiction
    rintro _ ⟨⟩
    -- A page holds fewer slots than the locator, so the limit never bites here.
    apply ensures_failIf_bind
    . intro h
      omega
    intro _
    apply ensures_reserve_bind hI.events
    . exact fun e he => .inl he
    have hfold := @foldlM_positions w I PageRows
      (file.locatorOf w.platform (keysOf blocks)).order start stop
      (fun (rows : PageRows) position => do
        let found ← file.rawExactAt (file.locatorOf w.platform (keysOf blocks))
          (rawDigest query) query position
        if found.2 then rows.push offset limit found.1 else pure rows)
      (fun (rows : PageRows) row =>
        if (keysOf blocks)[row]?.any (· == query) then rows.push offset limit row else .ok rows)
      (fun rows position row hrow _ _ => by
        apply (rawExactAt_answers hI hblocks query hrow).bind_ok
        dsimp only
        split
        . exact .liftM
        . exact .pure)
      (by rw [horder]; exact hle) ⟨[], 0⟩
    have hpush := @foldlM_push offset limit
      (fun row => (keysOf blocks)[row]?.any (· == query))
      (Search.slice (file.locatorOf w.platform (keysOf blocks)).order start stop) [] (by
        rw [Search.length_slice (by rw [horder]; exact hle), List.length_nil]
        omega)
    rw [List.filter_nil, List.nil_append, hslice, filter_textOrdinals] at hpush
    have hempty : Search.window ([] : List Nat) offset limit = [] := by simp [Search.window]
    rw [hempty, List.length_nil] at hpush
    rw [hslice, hpush] at hfold
    apply Ensures.bind (Answers.ensures hfold
      (Q := fun rows => rows = ⟨Search.window (exactOrdinals (keysOf blocks) query) offset limit,
        (exactOrdinals (keysOf blocks) query).length⟩) rfl fun e he => .inl he)
    rintro _ rfl
    dsimp only
    by_cases hexact : exactOrdinals (keysOf blocks) query = []
    . rw [if_pos hexact] at hfound
      rw [hexact, List.length_nil, if_neg (by simp)]
      have hstart : saturatingAdd start (min offset (stop - start))
          = start + min offset (stop - start) := by
        rw [saturatingAdd, Nat.min_eq_left (by omega)]
      have hend : min (saturatingAdd (start + min offset (stop - start)) limit) stop
          = min (start + min offset (stop - start) + limit) stop := by
        rw [saturatingAdd]
        omega
      rw [hstart, hend]
      apply Ensures.bind (Answers.ensures (mapM_positions (by rw [horder]; omega))
        (Q := fun ordinals => ordinals = Search.window (file.textOrdinals w.platform
          (keysOf blocks) (file.keyText w.platform query)) offset limit) ?_ fun e he => .inl he)
      rotate_left
      . rw [← hslice, Search.window_slice _ (Nat.le_of_lt hlt)]
      rintro _ rfl
      apply Ensures.pure
      refine ⟨blocks, hblocks, ?_⟩
      rw [hfound, Option.map_some, Option.map_some, LocatedKeyPage.view, LocatedKeyPage.of, ← hslice,
        Search.length_slice (by rw [horder]; exact hle)]
    . rw [if_neg hexact] at hfound
      rw [if_pos (by rw [ne_eq, List.length_eq_zero_iff]; exact hexact)]
      apply Ensures.pure
      refine ⟨blocks, hblocks, ?_⟩
      rw [hfound]
      rfl

/-! ## Prefixes -/

/-- The keys whose normalized text starts with `text`. -/
def prefixOrdinals (file : MdictFile) (p : Platform) (keys : List Str) (text : Bytes) : List Nat :=
  ordinalsWhere keys fun key => text.isPrefixOf (file.keyText p key)

/-- The physical rows ordered by normalized text and ordinal. -/
def Listed (file : MdictFile) (p : Platform) (keys : List Str) (rows : List Nat) : Prop :=
  rows.Pairwise (SortedIndex.Before (file.locatorOf p keys).row)

theorem prefix_perm (keys : List Str) (text : Bytes)
    : ((file.locatorOf p keys).order.filter fun row =>
          text.isPrefixOf ((file.locatorOf p keys).row row)).Perm
        (file.prefixOrdinals p keys text) := by
  have hsorted := @sorted_locatorOf file p keys
  apply (hsorted.perm.filter _).trans
  apply List.Perm.of_eq
  apply List.filter_congr
  intro row hrow
  have hkey := List.getElem?_eq_getElem (List.mem_range.mp hrow)
  rw [hkey, row_locatorOf hkey]
  rfl

theorem locatePrefix_ensures (hI : file.Invariant w.platform I) (keyPrefix : Str) {limit : Nat}
    (hlimit : limit ≠ 0)
    : Ensures w I (file.locatePrefix keyPrefix limit)
        (fun ordinals => ∃ blocks, file.DecodesTo w.platform blocks ∧ ∃ rows,
          rows.Perm (file.prefixOrdinals w.platform (keysOf blocks)
            (file.keyText w.platform keyPrefix))
          ∧ file.Listed w.platform (keysOf blocks) rows
          ∧ ordinals = rows.take limit)
        (file.LookupFails w keyPrefix) := by
  unfold locatePrefix
  rw [if_neg hlimit]
  apply ensures_lookup hI
  . exact fun e he => he
  intro blocks hblocks _
  have hsorted := @sorted_locatorOf file w.platform (keysOf blocks)
  apply Ensures.pure
  refine ⟨blocks, hblocks, (file.locatorOf w.platform (keysOf blocks)).order.filter fun row =>
    (file.keyText w.platform keyPrefix).isPrefixOf
      ((file.locatorOf w.platform (keysOf blocks)).row row), prefix_perm _ _, ?_, ?_⟩
  . exact List.Pairwise.filter _ hsorted.sorted
  . congr 1
    exact hsorted.takeWhile_prefix (fun _ => decide_eq_true_iff) (fun _ => List.isPrefixOf_iff_prefix)

/-! ## Scans -/

/-- Visit texts in order until the visitor says to stop. -/
def visitTexts {β : Type} (visit : β → Nat → Bytes → β × Bool)
    : (ordinal : Nat) → (texts : List Bytes) → β → β
  | _, [], acc => acc
  | ordinal, text :: texts, acc =>
    match visit acc ordinal text with
    | (acc, true) => acc
    | (acc, false) => visitTexts visit (ordinal + 1) texts acc

/-- The rows that such a visitor gets to see. -/
def visitedTexts {β : Type} (visit : β → Nat → Bytes → β × Bool)
    : (ordinal : Nat) → (texts : List Bytes) → β → List (Nat × Bytes)
  | _, [], _ => []
  | ordinal, text :: texts, acc =>
    (ordinal, text) ::
      match visit acc ordinal text with
      | (_, true) => []
      | (acc, false) => visitedTexts visit (ordinal + 1) texts acc

theorem scanNormalizedKeys_go_eq {β : Type} {visit : β → Nat → Bytes → β × Bool}
    {locator : KeyLocator} {texts : List Bytes} {first : Nat}
    (h : ∀ i text, texts[i]? = some text → locator.row (first + i) = text) (acc : β)
    : scanNormalizedKeys.go visit locator (List.range' first texts.length) acc
        = visitTexts visit first texts acc := by
  induction texts generalizing first acc with
  | nil => rfl
  | cons text texts ih =>
    have hfirst := h 0 text rfl
    rw [Nat.add_zero] at hfirst
    rw [List.length_cons, List.range'_succ, scanNormalizedKeys.go, visitTexts, hfirst]
    cases visit acc first text with
    | mk acc stop =>
      cases stop with
      | true => rfl
      | false =>
        apply ih
        intro i text hi
        rw [Nat.add_assoc, Nat.add_comm 1]
        exact h (i + 1) text hi

theorem scanNormalizedKeys_ensures {β : Type} (hI : file.Invariant w.platform I)
    (visit : β → Nat → Bytes → β × Bool) (acc : β)
    : Ensures w I (file.scanNormalizedKeys visit acc)
        (fun result => ∃ blocks, file.DecodesTo w.platform blocks
          ∧ result = visitTexts visit 0 ((keysOf blocks).map (file.keyText w.platform)) acc)
        (file.BuildFails w) := by
  apply Ensures.bind (keyLocator_ensures hI)
  rintro _ ⟨blocks, hblocks, -, rfl⟩
  apply Ensures.pure
  refine ⟨blocks, hblocks, ?_⟩
  rw [← @scanNormalizedKeys_go_eq _ _ (file.locatorOf w.platform (keysOf blocks))]
  . rw [KeyLocator.rowCount, (sorted_locatorOf (keysOf blocks)).length_eq, List.range_eq_range',
      List.length_map]
  . intro i text hi
    rw [List.getElem?_map, Option.map_eq_some_iff] at hi
    obtain ⟨key, hkey, rfl⟩ := hi
    rw [Nat.zero_add]
    exact row_locatorOf hkey

end MdictFile

end Mdict
