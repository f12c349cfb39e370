import Mdict.Lemmas.Locator
import Mdict.Lemmas.Batch

/-!
This module contains what the queries of the in-memory locator answer, as a function of the list of
all physical keys.
-/

namespace Mdict

open Effect

/-- The ordinals of the keys that satisfy `p`, in ascending order. -/
def ordinalsWhere (keys : List Str) (p : Str → Bool) : List Nat :=
  (List.range keys.length).filter fun ordinal => keys[ordinal]?.any p

theorem mem_ordinalsWhere {keys : List Str} {p : Str → Bool} {ordinal : Nat}
    : ordinal ∈ ordinalsWhere keys p ↔ ∃ key, keys[ordinal]? = some key ∧ p key := by
  rw [ordinalsWhere, List.mem_filter, List.mem_range, Option.any_eq_true]
  constructor
  . exact fun h => h.2
  . rintro ⟨key, hkey, hp⟩
    exact ⟨(List.getElem?_eq_some_iff.mp hkey).1, key, hkey, hp⟩

theorem pairwise_ordinalsWhere (keys : List Str) (p : Str → Bool)
    : (ordinalsWhere keys p).Pairwise (· < ·) :=
  List.Pairwise.filter _ List.pairwise_lt_range

theorem filter_ordinalsWhere (keys : List Str) (p q : Str → Bool)
    : (ordinalsWhere keys p).filter (fun ordinal => keys[ordinal]?.any q)
        = ordinalsWhere keys (fun key => p key && q key) := by
  rw [ordinalsWhere, List.filter_filter, ordinalsWhere]
  apply List.filter_congr
  intro ordinal _
  cases keys[ordinal]? with
  | none => rfl
  | some key => simp [Bool.and_comm]

/-- A list in ascending order is not changed by sorting. -/
theorem mergeSort_of_pairwise_lt {ordinals : List Nat} (h : ordinals.Pairwise (· < ·))
    : ordinals.mergeSort (· ≤ ·) = ordinals := by
  apply List.mergeSort_of_pairwise
  apply h.imp
  intro a b hab
  simpa using Nat.le_of_lt hab

/-! ## Ranges of the locator -/

namespace LocatedKeys

theorem filterMap_range (xs : List Nat) (start n : Nat)
    : (List.range n).filterMap (fun index => xs[start + index]?) = (xs.drop start).take n := by
  induction n with
  | zero => simp
  | succ n ih =>
    rw [List.range_succ, List.filterMap_append, ih, List.take_add_one, List.getElem?_drop]
    cases h : xs[start + n]? with
    | none => simp [h]
    | some x => simp [h]

/-- The ordinals of a result that is a range of the locator. -/
theorem iter_locator {basis : LocatorBasis} {locator : KeyLocator} {start stop : Nat}
    (hstop : stop ≤ locator.order.length) (hlen : locator.order.length < u64Bound)
    : (LocatedKeys.mk basis (.locator locator start stop)).iter
        = Search.slice locator.order start stop := by
  rw [Search.slice, ← filterMap_range]
  apply List.filterMap_congr
  intro index hindex
  have hindex : index < stop - start := List.mem_range.mp hindex
  have hadd : checkedAdd start index = some (start + index) := by
    rw [checkedAdd_eq_some]
    omega
  simp only [ordinalAt, hadd, Option.bind_eq_bind, Option.bind_some]
  rw [if_neg (by omega)]

theorem iter_owned {basis : LocatorBasis} {ordinals : List Nat}
    : (LocatedKeys.mk basis (.owned ordinals)).iter = ordinals := by
  have h := filterMap_range ordinals 0 ordinals.length
  simp only [Nat.zero_add, List.drop_zero, List.take_length] at h
  exact h

/-- What a caller sees of a result: its basis and its ordinals. -/
def view (keys : LocatedKeys) : LocatorBasis × List Nat := (keys.basis, keys.iter)

end LocatedKeys

namespace MdictFile

variable {file : MdictFile} {w : World} {I : Session → Prop} {p : Platform}
variable {blocks : List (List DecodedKeyRow)} {keys : List Str}

/-- A loop over the positions of a range is a loop over the rows there. -/
theorem foldlM_positions {β : Type} {order : List Nat} {start stop : Nat} {f : β → Nat → Exec β}
    {g : β → Nat → Except Error β}
    (hf : ∀ b position row, order[position]? = some row → start ≤ position → position < stop →
      Answers w I (f b position) (g b row))
    (hstop : stop ≤ order.length) (b : β)
    : Answers w I ((positions start stop).foldlM f b)
        ((Search.slice order start stop).foldlM g b) := by
  rw [positions, Search.slice]
  induction hn : stop - start generalizing start b with
  | zero =>
    rw [List.take_zero]
    exact .pure
  | succ n ih =>
    have hlt : start < order.length := by omega
    rw [List.range'_succ, List.drop_eq_getElem_cons hlt, List.take_succ_cons, List.foldlM_cons,
      List.foldlM_cons]
    apply (hf b start _ (List.getElem?_eq_getElem hlt) (Nat.le_refl _) (by omega)).bind
    intro b _
    apply ih _ _ (by omega)
    exact fun b position row hrow hle => hf b position row hrow (by omega)

theorem sorted_locatorOf (keys : List Str)
    : SortedIndex.Sorted (file.locatorOf p keys).row keys.length (file.locatorOf p keys).order := by
  have h := KeyLocator.sorted_ofTexts (keys.map (file.keyText p)) (keys.map rawDigest)
  rw [List.length_map] at h
  exact h

theorem row_locatorOf {row : Nat} {key : Str} (h : keys[row]? = some key)
    : (file.locatorOf p keys).row row = file.keyText p key := by
  have hmap : keys.map (file.keyText p)
      = (keys.map (file.normalizer.normalizeText p)).map Unicode.utf8 := by
    rw [List.map_map]
    rfl
  rw [locatorOf, hmap, @KeyLocator.row_ofTexts _ _ _ (file.normalizer.normalizeText p key)]
  . rfl
  . rw [List.getElem?_map, h]
    rfl

/-- The keys whose normalized text is `text`. -/
def textOrdinals (file : MdictFile) (p : Platform) (keys : List Str) (text : Bytes) : List Nat :=
  ordinalsWhere keys fun key => file.keyText p key = text

theorem filter_row_eq (keys : List Str) (text : Bytes)
    : (List.range keys.length).filter (fun row => (file.locatorOf p keys).row row = text)
        = file.textOrdinals p keys text := by
  apply List.filter_congr
  intro row hrow
  have hkey := List.getElem?_eq_getElem (List.mem_range.mp hrow)
  rw [hkey, row_locatorOf hkey]
  rfl

theorem slice_equalRange {text : Bytes} {start stop : Nat}
    (h : (file.locatorOf p keys).equalRange text = some (start, stop))
    : start < stop ∧ stop ≤ keys.length
        ∧ Search.slice (file.locatorOf p keys).order start stop = file.textOrdinals p keys text := by
  obtain ⟨hlt, hle, hslice⟩ := KeyLocator.equalRange_eq_some (sorted_locatorOf keys) h
  exact ⟨hlt, hle, hslice.trans (filter_row_eq keys text)⟩

theorem equalRange_eq_none {text : Bytes} (h : (file.locatorOf p keys).equalRange text = none)
    : file.textOrdinals p keys text = [] :=
  (filter_row_eq keys text).symm.trans (KeyLocator.equalRange_eq_none (sorted_locatorOf keys) h)

/-! ## Queries -/

/-- The normalized query is within the limits that a lookup enforces. -/
def QueryFits (file : MdictFile) (p : Platform) (query : Str) : Prop :=
  (file.keyText p query).length ≤ min file.limits.locatorBytes u64Max

theorem normalizedQuery_ensures (hI : LogInvariant I) (query : Str) (context : String)
    : Ensures w I (file.normalizedQuery query context)
        (fun text => text = file.keyText w.platform query)
        (fun e => Interrupted w e ∨ ¬file.QueryFits w.platform query) := by
  have hbound : u64Max + 1 = u64Bound := by decide
  unfold normalizedQuery
  apply ensures_platform_bind
  apply Ensures.liftM_bind
  . intro e he
    right
    intro hfits
    rw [KeyNormalizer.normalizedLen_of_lt] at he
    . contradiction
    . have : (file.keyText w.platform query).length < u64Bound := by
        rw [QueryFits] at hfits
        omega
      exact this
  intro length hlength
  obtain ⟨rfl, hlt⟩ := (KeyNormalizer.normalizedLen_eq_ok _ _).mp hlength
  apply ensures_failIf_bind
  . intro h
    right
    intro hfits
    have : (file.keyText w.platform query).length ≤ file.limits.locatorBytes := by
      rw [QueryFits] at hfits
      omega
    exact absurd this (by rw [keyText]; omega)
  intro _
  apply ensures_reserve_bind hI
  . exact fun e he => .inl he
  rw [KeyNormalizer.normalize_of_lt _ _ hlt]
  apply Ensures.liftM_bind
  . intro e he
    contradiction
  rintro _ ⟨⟩
  exact .pure rfl

/-- The digest of a row is only a filter: the answer is whether the key is the query. -/
theorem rawExactAt_answers (hI : file.Invariant w.platform I)
    (h : file.DecodesTo w.platform blocks) (query : Str) {position row : Nat}
    (hrow : (file.locatorOf w.platform (keysOf blocks)).order[position]? = some row)
    : Answers w I (file.rawExactAt (file.locatorOf w.platform (keysOf blocks)) (rawDigest query)
          query position)
        (.ok (row, (keysOf blocks)[row]?.any (· == query))) := by
  have hlt : row < (keysOf blocks).length :=
    (sorted_locatorOf (keysOf blocks)).lt_of_mem (List.mem_of_getElem? hrow)
  have hkey := List.getElem?_eq_getElem hlt
  generalize (keysOf blocks)[row] = key at hkey
  have hdigest : (file.locatorOf w.platform (keysOf blocks)).rawDigest[row]?
      = some (rawDigest key) := by
    rw [locatorOf, KeyLocator.ofTexts, List.getElem?_map, hkey]
    rfl
  rw [rawExactAt, hrow, hkey]
  apply Answers.bind_ok Answers.liftM
  rw [hdigest]
  apply Answers.bind_ok Answers.liftM
  by_cases hne : rawDigest key ≠ rawDigest query
  . have hne' : (key == query) = false := by
      rw [beq_eq_false_iff_ne]
      rintro rfl
      exact hne rfl
    rw [if_pos hne, Option.any_some, hne']
    exact .pure
  . rw [if_neg hne]
    have hlen : row < file.len := by
      rw [← h.length_keysOf]
      exact hlt
    obtain ⟨hit, hhit, hentry⟩ := keyEntryAtOrdinal_answers hI h hlen
    obtain ⟨entry, hentry', hentryKey⟩ : ∃ entry, blocks.flatten[row]? = some entry
        ∧ entry.key = key := by
      rw [keysOf, List.getElem?_map, Option.map_eq_some_iff] at hkey
      exact hkey
    apply Answers.bind_ok hentry
    apply Answers.bind_ok Answers.liftM
    rw [hhit.row_eq h, hentry', okOr_some]
    apply Answers.bind_ok Answers.liftM
    rw [Option.any_some, ← hentryKey]
    exact .pure

theorem foldlM_ok {α β ε : Type} (g : β → α → β) (xs : List α) (b : β)
    : xs.foldlM (fun b a => (.ok (g b a) : Except ε β)) b = .ok (xs.foldl g b) := by
  induction xs generalizing b with
  | nil => rfl
  | cons x xs ih =>
    rw [List.foldlM_cons, List.foldl_cons]
    exact ih _

theorem foldl_filter {α : Type} (p : α → Bool) (xs ys : List α)
    : xs.foldl (fun found x => if p x then found ++ [x] else found) ys = ys ++ xs.filter p := by
  induction xs generalizing ys with
  | nil => simp
  | cons x xs ih =>
    rw [List.foldl_cons, ih]
    cases hp : p x with
    | true => simp [hp]
    | false => simp [hp]

/-- The keys equal to `query`. -/
def exactOrdinals (keys : List Str) (query : Str) : List Nat := ordinalsWhere keys (· == query)

/-- Raw equality implies normalized equality. -/
theorem filter_textOrdinals (keys : List Str) (query : Str)
    : (file.textOrdinals p keys (file.keyText p query)).filter
          (fun row => keys[row]?.any (· == query))
        = exactOrdinals keys query := by
  rw [textOrdinals, filter_ordinalsWhere, exactOrdinals]
  congr 1
  funext key
  by_cases hkey : key = query
  . simp [hkey]
  . simp [hkey]

theorem rawExactWithin_answers (hI : file.Invariant w.platform I)
    (h : file.DecodesTo w.platform blocks) {query : Str} {start stop : Nat}
    (hrange : (file.locatorOf w.platform (keysOf blocks)).equalRange
      (file.keyText w.platform query) = some (start, stop))
    : Answers w I
        (file.rawExactWithin (file.locatorOf w.platform (keysOf blocks)) start stop query)
        (.ok (if exactOrdinals (keysOf blocks) query = [] then none
          else some (exactOrdinals (keysOf blocks) query))) := by
  obtain ⟨hlt, hle, hslice⟩ := slice_equalRange hrange
  have hfold := @foldlM_positions w I (List Nat)
    (file.locatorOf w.platform (keysOf blocks)).order start stop
    (fun (found : List Nat) position => do
      let exact ← file.rawExactAt (file.locatorOf w.platform (keysOf blocks))
        (rawDigest query) query position
      return if exact.2 then found ++ [exact.1] else found)
    (fun (found : List Nat) row =>
      .ok (if (keysOf blocks)[row]?.any (· == query) then found ++ [row] else found))
    (fun found position row hrow _ _ =>
      (rawExactAt_answers hI h query hrow).bind_ok .pure)
    (by rw [(sorted_locatorOf (keysOf blocks)).length_eq]; exact hle) []
  rw [foldlM_ok, foldl_filter, hslice, List.nil_append, filter_textOrdinals] at hfold
  apply hfold.bind_ok
  by_cases hempty : exactOrdinals (keysOf blocks) query = []
  . rw [if_pos hempty, if_pos hempty]
    exact .pure
  . rw [if_neg hempty, if_neg hempty, exactOrdinals,
      mergeSort_of_pairwise_lt (pairwise_ordinalsWhere _ _)]
    exact .pure

/-- What a lookup finds among `keys`: the exact matches, or else the normalized ones. -/
def found (file : MdictFile) (p : Platform) (keys : List Str) (query : Str)
    : Option (LocatorBasis × List Nat) :=
  if exactOrdinals keys query ≠ [] then
    some (.rawExact, exactOrdinals keys query)
  else if file.textOrdinals p keys (file.keyText p query) ≠ [] then
    some (.headerNormalized, file.textOrdinals p keys (file.keyText p query))
  else
    none

theorem found_of_equalRange_eq_none {query : Str}
    (h : (file.locatorOf p keys).equalRange (file.keyText p query) = none)
    : file.found p keys query = none := by
  have htext := equalRange_eq_none h
  have hexact : exactOrdinals keys query = [] := by
    rw [← @filter_textOrdinals file p, htext]
    rfl
  simp [found, htext, hexact]

theorem found_of_equalRange {query : Str} {start stop : Nat}
    (h : (file.locatorOf p keys).equalRange (file.keyText p query) = some (start, stop))
    : file.found p keys query =
        if exactOrdinals keys query = [] then
          some (.headerNormalized, file.textOrdinals p keys (file.keyText p query))
        else
          some (.rawExact, exactOrdinals keys query) := by
  obtain ⟨hlt, hle, hslice⟩ := slice_equalRange h
  have hne : file.textOrdinals p keys (file.keyText p query) ≠ [] := by
    rw [← hslice, ← List.length_pos_iff, Search.length_slice]
    . omega
    . rw [(sorted_locatorOf keys).length_eq]
      exact hle
  by_cases hexact : exactOrdinals keys query = []
  . simp [found, hexact, hne]
  . simp [found, hexact]

/-- A failure of a lookup: from outside, or because something does not fit. -/
def LookupFails (file : MdictFile) (w : World) (query : Str) (e : Error) : Prop :=
  Interrupted w e ∨ ∀ blocks, file.DecodesTo w.platform blocks →
    ¬(file.LocatorFits w.platform (keysOf blocks) ∧ file.QueryFits w.platform query)

/-- Both searches start from the locator and the normalized query. -/
theorem ensures_lookup {β : Type} (hI : file.Invariant w.platform I) {query : Str}
    {context : String} {f : KeyLocator → Bytes → Exec β} {Q : β → Prop} {E : Error → Prop}
    (hE : ∀ e, file.LookupFails w query e → E e)
    (hf : ∀ blocks, file.DecodesTo w.platform blocks →
      file.LocatorFits w.platform (keysOf blocks) →
      Ensures w I (f (file.locatorOf w.platform (keysOf blocks)) (file.keyText w.platform query))
        Q E)
    : Ensures w I
        (do
          let locator ← file.keyLocator
          let normalized ← file.normalizedQuery query context
          f locator normalized)
        Q E := by
  apply Ensures.bind
  . apply (keyLocator_ensures hI).mono (fun _ h => h)
    rintro e (he | he)
    . exact hE e (.inl he)
    . exact hE e (.inr fun blocks hblocks hfits => he blocks hblocks hfits.1)
  rintro _ ⟨blocks, hblocks, hfits, rfl⟩
  apply Ensures.bind
  . apply (normalizedQuery_ensures hI.events query context).mono (fun _ h => h)
    rintro e (he | he)
    . exact hE e (.inl he)
    . exact hE e (.inr fun _ _ hfits => he hfits.2)
  rintro _ rfl
  exact hf blocks hblocks hfits

/-- An answer that does not fail is a value that is ensured. -/
theorem Answers.ensures {α : Type} {x : Exec α} {a : α} (h : Answers w I x (.ok a))
    {Q : α → Prop} {E : Error → Prop} (hQ : Q a) (hE : ∀ e, Interrupted w e → E e)
    : Ensures w I x Q E := by
  apply Ensures.mono h
  . rintro b ⟨⟩
    exact hQ
  . rintro e (he | he)
    . exact hE e he
    . contradiction

theorem locateKeys_ensures (hI : file.Invariant w.platform I) (query : Str)
    : Ensures w I (file.locateKeys query)
        (fun keys => ∃ blocks, file.DecodesTo w.platform blocks
          ∧ keys.map LocatedKeys.view = file.found w.platform (keysOf blocks) query)
        (file.LookupFails w query) := by
  unfold locateKeys
  apply ensures_lookup hI
  . exact fun e he => he
  intro blocks hblocks hfits
  cases hrange : (file.locatorOf w.platform (keysOf blocks)).equalRange
      (file.keyText w.platform query) with
  | none =>
    apply Ensures.pure
    exact ⟨blocks, hblocks, (found_of_equalRange_eq_none hrange).symm⟩
  | some range =>
    obtain ⟨start, stop⟩ := range
    obtain ⟨hlt, hle, hslice⟩ := slice_equalRange hrange
    have hfound := found_of_equalRange hrange
    dsimp only
    apply Ensures.bind (Answers.ensures (rawExactWithin_answers hI hblocks hrange)
      (Q := fun exact => exact = if exactOrdinals (keysOf blocks) query = [] then none
          else some (exactOrdinals (keysOf blocks) query)) rfl fun e he => .inl he)
    rintro _ rfl
    by_cases hexact : exactOrdinals (keysOf blocks) query = []
    . rw [if_pos hexact]
      apply Ensures.pure
      refine ⟨blocks, hblocks, ?_⟩
      rw [hfound, if_pos hexact, Option.map_some, LocatedKeys.view, LocatedKeys.iter_locator, hslice]
      . rw [(sorted_locatorOf (keysOf blocks)).length_eq]
        exact hle
      . rw [(sorted_locatorOf (keysOf blocks)).length_eq, hblocks.length_keysOf]
        exact file.layoutVerified.totalEntries_lt
    . rw [if_neg hexact]
      apply Ensures.pure
      refine ⟨blocks, hblocks, ?_⟩
      rw [hfound, if_neg hexact, Option.map_some, LocatedKeys.view, LocatedKeys.iter_owned]

end MdictFile

end Mdict
