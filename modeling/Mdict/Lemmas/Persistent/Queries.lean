import Mdict.Lemmas.CaseVariants
import Mdict.Lemmas.Persistent.Represents

/-!
This module contains what the queries of a key index answer, as a function of the bytes of the
index and of the source keys. Whatever the bytes are, the rows of an answer are verified against
the source; on an index of the dictionary the queries do not fail.
-/

namespace Mdict

open Effect Persistent

namespace MdictFile

/-! ## Answers -/

section Answers

variable (file : MdictFile) (p : Platform) (index : PersistentKeyIndex)

/-- A row is an exact match when its digest and its source key agree with the query. -/
def isExactRow (query : Str) (row : Nat) : Bool :=
  index.digestOf row == rawDigest query && file.freshKey p row == some query

/-- What a lookup finds in the index: the exact matches in the range, or else all of it. -/
def indexFound (query : Str) : Option (LocatorBasis × List Nat) :=
  match index.rangeOf (file.keyText p query) with
  | none => none
  | some (start, stop) =>
    let exact := (index.rowsIn start stop).filter (file.isExactRow p index query)
    if exact ≠ [] then
      some (.rawExact, exact)
    else
      some (.headerNormalized, index.rowsIn start stop)

/-- All rows that were found are verified. -/
def FoundVerified (query : Str) (found : Option (LocatorBasis × List Nat)) : Prop :=
  ∀ basis ordinals, found = some (basis, ordinals) → ∀ row ∈ ordinals,
    ∃ key, file.Verified p index row (file.keyText p query) key

/-- The rows in the range of a query. -/
def indexRows (query : Str) : List Nat :=
  match index.rangeOf (file.keyText p query) with
  | none => []
  | some (start, stop) => index.rowsIn start stop

/-- The rows in the range of a query whose source key satisfies `isMatch`. -/
def indexRowsWhere (query : Str) (isMatch : Str → Bool) : List Nat :=
  (file.indexRows p index query).filter fun row => (file.freshKey p row).any isMatch

/-- The page of exact matches and case variants in the range of a query. -/
def indexVariantsPage (query : Str) (offset limit : Nat) : Option LocatedKeyPage :=
  CaseVariants.pageOf offset limit (file.indexRowsWhere p index query (· == query))
    (file.indexRowsWhere p index query fun key => key != query && equalIgnoringCase p key query)

/-- The rows from a position of the order on whose texts start with `text`. -/
def rowsWithPrefix (text : Bytes) (position : Nat) : List Nat :=
  (index.rows.drop position).takeWhile fun row => text.isPrefixOf (index.textOf row)

/-- The entries are those of the rows, which are verified with their own texts. -/
def EntriesVerified (rows : List Nat) (entries : List KeyEntry) : Prop :=
  entries.map (·.ordinal) = rows
    ∧ ∀ entry ∈ entries,
        file.Verified p index entry.ordinal (index.textOf entry.ordinal) entry.key

/--
A failure of a query: from outside, by a limit, or because the index is not the one of the
dictionary or `c` does not hold.
-/
inductive IndexFails (w : World) (c : Prop) (e : Error) : Prop where
  | stopped (h : index.Stopped w e)
  | matchLimit (h : e.isLimitExceeded = true) (hrow : e.isRowLimit = false)
  | changed (h : e.isTransient = true) (hchanged : ¬file.Unchanged w index.sourceIdentity)
  | unfit (h : ¬((∃ blocks, index.Represents file w.platform blocks) ∧ c))

end Answers

variable {file : MdictFile} {index : PersistentKeyIndex} {w : World} {I : Session → Prop}
variable {p : Platform} {query : Str}

theorem IndexFails.of_readFails {c c' : Prop} {e : Error} (h : index.ReadFails w c e)
    (hc : ∀ blocks, index.Represents file w.platform blocks → c)
    : file.IndexFails index w c' e := by
  rcases h with h | h
  . exact .stopped h
  . apply IndexFails.unfit
    rintro ⟨⟨blocks, hblocks⟩, -⟩
    exact h ⟨hblocks.intact, hc blocks hblocks⟩

theorem IndexFails.mono {c c' : Prop} {e : Error} (h : file.IndexFails index w c e)
    (hc : c' → c)
    : file.IndexFails index w c' e := by
  cases h with
  | stopped h => exact .stopped h
  | matchLimit h hrow => exact .matchLimit h hrow
  | changed h hchanged => exact .changed h hchanged
  | unfit h => exact .unfit fun h' => h ⟨h'.1, hc h'.2⟩

/-- On an unchanged dictionary a query of its index fails from outside or by a limit only. -/
theorem IndexFails.hindered {c : Prop} {e : Error} (h : file.IndexFails index w c e)
    (hblocks : ∃ blocks, index.Represents file w.platform blocks)
    (hunchanged : file.Unchanged w index.sourceIdentity) (hc : c)
    : Hindered w e := by
  cases h with
  | stopped h => exact h.hindered
  | matchLimit h _ => exact .inr h
  | changed _ hchanged => contradiction
  | unfit h => exact absurd ⟨hblocks, hc⟩ h

/-! ## The dictionary and the query -/

theorem validateDictionaryIdentity_indexFails {c : Prop} (hI : file.Invariant w.platform I)
    : Ensures w I (file.validateDictionaryIdentity index.sourceIdentity) (fun _ => True)
        (file.IndexFails index w c) := by
  apply (validateDictionaryIdentity_ensures hI.events index.sourceIdentity).mono
    (fun _ _ => trivial)
  rintro e (he | ⟨he, hchanged⟩)
  . exact .stopped (.inl he)
  . exact .changed he hchanged

theorem normalizedQuery_indexFails (hI : file.Invariant w.platform I) (query : Str)
    (context : String)
    : Ensures w I (file.normalizedQuery query context)
        (fun text => text = file.keyText w.platform query)
        (file.IndexFails index w (file.QueryFits w.platform query)) := by
  apply (normalizedQuery_ensures hI.events query context).mono (fun _ h => h)
  rintro e (he | he)
  . exact .stopped (.inl he)
  . exact .unfit fun h => he h.2

/-! ## Exact matches -/

theorem rawExactRow_ensures (hI : file.Invariant w.platform I) (hI' : index.Invariant I)
    (hpos : 0 < index.header.chunkBytes) (text : Bytes) (row : Nat)
    : Ensures w I (file.rawExactRow index (rawDigest query) query text row)
        (fun isExact => isExact = file.isExactRow w.platform index query row
          ∧ (isExact → ∃ key, file.Verified w.platform index row text key))
        (index.ReadFails w (file.Verifies w.platform index row text)) := by
  unfold rawExactRow
  apply Ensures.bind
  . apply (PersistentKeyIndex.rawDigestAt_ensures hI' hpos row).mono (fun _ h => h)
    exact fun e he => he.mono fun h => ⟨h.readable.complete, h.lt⟩
  rintro _ ⟨rfl, -⟩
  split
  . next hne =>
    apply Ensures.pure
    have hdigest : (index.digestOf row == rawDigest query) = false := beq_eq_false_iff_ne.mpr hne
    rw [isExactRow, hdigest, Bool.false_and]
    exact ⟨rfl, by simp⟩
  . next heq =>
    apply Ensures.bind (verifiedSourceKey_ensures hI hI' hpos row text)
    rintro entry ⟨-, hverified⟩
    apply Ensures.pure
    have hdigest : (index.digestOf row == rawDigest query) = true := by simpa using heq
    rw [isExactRow, hdigest, Bool.true_and, hverified.hasKey.freshKey_eq]
    exact ⟨by simp, fun _ => ⟨_, hverified⟩⟩

/-- Taking the first `count` rows after putting another behind them. -/
theorem take_set_succ {rows : List Nat} {count row : Nat} (h : count < rows.length)
    : (rows.set count row).take (count + 1) = rows.take count ++ [row] := by
  rw [List.take_add_one, List.getElem?_set_self h, List.take_set_of_le (Nat.le_refl _)]
  rfl

/--
The exact rows move to the front in their order. Behind the position of the loop nothing has
changed yet.
-/
theorem moveExactRows_ensures (hI : file.Invariant w.platform I) (hI' : index.Invariant I)
    (hpos : 0 < index.header.chunkBytes) (text : Bytes) (rows : List Nat)
    : Ensures w I (file.moveExactRows index (rawDigest query) query text rows)
        (fun result =>
          result.2 = (rows.filter (file.isExactRow w.platform index query)).length
          ∧ result.1.take result.2 = rows.filter (file.isExactRow w.platform index query)
          ∧ (result.2 = 0 → result.1 = rows)
          ∧ ∀ row ∈ rows.filter (file.isExactRow w.platform index query),
              ∃ key, file.Verified w.platform index row text key)
        (index.ReadFails w (∀ row ∈ rows, file.Verifies w.platform index row text)) := by
  unfold moveExactRows
  apply (Ensures.foldlM_range (J := fun i (state : List Nat × Nat) =>
    state.1.length = rows.length ∧ state.1.drop i = rows.drop i
      ∧ state.2 = ((rows.take i).filter (file.isExactRow w.platform index query)).length
      ∧ state.1.take state.2 = (rows.take i).filter (file.isExactRow w.platform index query)
      ∧ (state.2 = 0 → state.1 = rows)
      ∧ ∀ row ∈ (rows.take i).filter (file.isExactRow w.platform index query),
          ∃ key, file.Verified w.platform index row text key) ?step ?init).mono
  . rintro ⟨ordinals, count⟩ ⟨-, -, hcount, htake, hzero, hverified⟩
    rw [List.take_length] at hcount htake hverified
    exact ⟨hcount, htake, hzero, hverified⟩
  . exact fun e he => he
  case init => exact ⟨rfl, rfl, by simp, by simp, fun _ => rfl, by simp⟩
  case step =>
    rintro i ⟨ordinals, count⟩ hi ⟨hlen, hdrop, hcount, htake, hzero, hverified⟩
    dsimp only at hlen hdrop hcount htake hzero hverified ⊢
    have hrow := List.getElem?_eq_getElem hi
    have hmem : rows[i] ∈ rows := List.getElem_mem hi
    have hget : ordinals[i]? = some rows[i] := by
      have := congrArg (·[0]?) hdrop
      simpa only [List.getElem?_drop, Nat.add_zero, hrow] using this
    have hcount_le : count ≤ i := by
      have := List.length_filter_le (file.isExactRow w.platform index query) (rows.take i)
      rw [List.length_take] at this
      omega
    generalize rows[i] = row at hrow hmem hget
    have hsplit : rows.take (i + 1) = rows.take i ++ [row] := by
      rw [List.take_add_one, hrow]
      rfl
    have htail (xs : List Nat) : (xs.drop i).drop 1 = xs.drop (i + 1) := List.drop_drop
    rw [hget, okOr_some]
    apply Ensures.liftM_bind
    . intro e he
      contradiction
    rintro _ ⟨⟩
    apply Ensures.bind
    . apply (rawExactRow_ensures hI hI' hpos text row).mono (fun _ h => h)
      exact fun e he => he.mono fun h => h row hmem
    rintro _ ⟨rfl, hexact⟩
    apply Ensures.pure
    rw [hsplit, List.filter_append]
    cases hisExact : file.isExactRow w.platform index query row with
    | true =>
      rw [if_pos rfl, List.filter_cons_of_pos hisExact, List.filter_nil]
      refine ⟨by rw [List.length_set]; exact hlen, ?_, ?_, ?_, ?_, ?_⟩
      . rw [List.drop_set_of_lt (by omega), ← htail, hdrop, htail]
      . rw [List.length_append, List.length_singleton, ← hcount]
      . rw [take_set_succ (by omega), htake]
      . intro h
        contradiction
      . intro row' hrow'
        rw [List.mem_append, List.mem_singleton] at hrow'
        rcases hrow' with hrow' | rfl
        . exact hverified row' hrow'
        . exact hexact hisExact
    | false =>
      rw [if_neg (by simp), List.filter_cons_of_neg (by simp [hisExact]), List.filter_nil,
        List.append_nil]
      refine ⟨hlen, ?_, hcount, htake, hzero, hverified⟩
      rw [← htail, hdrop, htail]

/-! ## Lookups -/

theorem indexedRange_ensures (hI : file.Invariant w.platform I) (hI' : index.Invariant I)
    (hpos : 0 < index.header.chunkBytes) (query : Str) (context : String)
    : Ensures w I (file.indexedRange index query context)
        (fun result => result
          = (file.keyText w.platform query, index.rangeOf (file.keyText w.platform query)))
        (file.IndexFails index w (file.QueryFits w.platform query)) := by
  unfold indexedRange
  apply Ensures.bind (validateDictionaryIdentity_indexFails hI)
  rintro _ -
  apply Ensures.bind (normalizedQuery_indexFails hI query context)
  rintro _ rfl
  apply Ensures.bind
  . apply (PersistentKeyIndex.equalRange_ensures hI' hpos _).mono (fun _ h => h)
    exact fun e he => .of_readFails he fun _ h => h.readable
  rintro _ rfl
  exact .pure rfl

/-- Verifying one row after another. -/
theorem verifyRows_ensures (hI : file.Invariant w.platform I) (hI' : index.Invariant I)
    (hpos : 0 < index.header.chunkBytes) (text : Bytes) (rows : List Nat)
    : Ensures w I (rows.mapM fun ordinal => file.verifiedSourceKey index ordinal text)
        (fun _ => ∀ row ∈ rows, ∃ key, file.Verified w.platform index row text key)
        (index.ReadFails w (∀ row ∈ rows, file.Verifies w.platform index row text)) := by
  induction rows with
  | nil => exact .pure (by simp)
  | cons row rows ih =>
    rw [List.mapM_cons]
    apply Ensures.bind
    . apply (verifiedSourceKey_ensures hI hI' hpos row text).mono (fun _ h => h)
      exact fun e he => he.mono fun h => h row List.mem_cons_self
    rintro entry ⟨-, hverified⟩
    apply Ensures.bind
    . apply ih.mono (fun _ h => h)
      exact fun e he => he.mono fun h row hrow => h row (List.mem_cons_of_mem _ hrow)
    intro _ hrest
    apply Ensures.pure
    intro row' hrow'
    rw [List.mem_cons] at hrow'
    rcases hrow' with rfl | hrow'
    . exact ⟨_, hverified⟩
    . exact hrest row' hrow'

theorem locateWithIndex_ensures (hI : file.Invariant w.platform I) (hI' : index.Invariant I)
    (hpos : 0 < index.header.chunkBytes) (query : Str)
    : Ensures w I (file.locateWithIndex index query)
        (fun keys => keys.map LocatedKeys.view = file.indexFound w.platform index query
          ∧ file.FoundVerified w.platform index query (file.indexFound w.platform index query))
        (file.IndexFails index w (file.QueryFits w.platform query)) := by
  have hbound : u64Max + 1 = u64Bound := by decide
  unfold locateWithIndex
  apply Ensures.bind (indexedRange_ensures hI hI' hpos query _)
  rintro _ rfl
  dsimp only
  cases hrange : index.rangeOf (file.keyText w.platform query) with
  | none =>
    apply Ensures.pure
    have hfound : file.indexFound w.platform index query = none := by
      rw [indexFound, hrange]
    rw [hfound]
    exact ⟨rfl, fun _ _ h => by contradiction⟩
  | some range =>
    obtain ⟨start, stop⟩ := range
    obtain ⟨hlt, hle⟩ := PersistentKeyIndex.rangeOf_eq_some hrange
    have hlen (blocks : List (List DecodedKeyRow))
        (h : index.Represents file w.platform blocks) : index.len * 4 < u64Bound := by
      have := h.complete.order
      have := h.intact.sections .order
      have := h.intact.len_lt
      omega
    have hverifies (blocks : List (List DecodedKeyRow))
        (h : index.Represents file w.platform blocks)
        : ∀ row ∈ index.rowsIn start stop,
          file.Verifies w.platform index row (file.keyText w.platform query) :=
      fun row hrow => h.verifies_of_mem hrange hrow
    dsimp only
    apply ensures_checkedSub_bind
    . intro h
      omega
    intro _
    apply ensures_checkedUsize_bind
    . intro h e
      apply IndexFails.unfit
      rintro ⟨⟨blocks, hblocks⟩, -⟩
      have := hlen blocks hblocks
      omega
    intro _
    apply ensures_checkedMul_bind
    . intro h
      apply IndexFails.unfit
      rintro ⟨⟨blocks, hblocks⟩, -⟩
      have := hlen blocks hblocks
      omega
    intro _
    apply ensures_failIf_bind
    . exact fun _ => .matchLimit rfl rfl
    intro _
    apply ensures_reserve_bind hI.events
    . exact fun e he => .stopped (.inl he)
    apply Ensures.bind
    . apply (PersistentKeyIndex.ordinalsIn_ensures hI' hpos (Nat.le_of_lt hlt)).mono (fun _ h => h)
      intro e he
      apply IndexFails.of_readFails he
      intro blocks hblocks
      have := hlen blocks hblocks
      exact ⟨hblocks.readable, by omega⟩
    rintro _ rfl
    apply Ensures.bind
    . apply (moveExactRows_ensures hI hI' hpos _ _).mono (fun _ h => h)
      exact fun e he => .of_readFails he hverifies
    rintro ⟨ordinals, exactCount⟩ ⟨hcount, htake, hzero, hverified⟩
    dsimp only at hcount htake hzero ⊢
    split
    . next hne =>
      have hne' : (index.rowsIn start stop).filter (file.isExactRow w.platform index query) ≠ [] := by
        rwa [hcount, ne_eq, List.length_eq_zero_iff] at hne
      have hfound : file.indexFound w.platform index query = some (.rawExact,
          (index.rowsIn start stop).filter (file.isExactRow w.platform index query)) := by
        rw [indexFound, hrange]
        simp only [if_pos hne']
      apply Ensures.pure
      rw [htake, LocatedKeys.fromOwned, if_neg hne', hfound]
      refine ⟨by rw [Option.map_some, LocatedKeys.view, LocatedKeys.iter_owned], ?_⟩
      rintro basis ordinals ⟨⟩
      exact hverified
    . next heq =>
      have heq : exactCount = 0 := by simpa using heq
      have hnil : (index.rowsIn start stop).filter (file.isExactRow w.platform index query) = [] := by
        rwa [hcount, List.length_eq_zero_iff] at heq
      have hfound : file.indexFound w.platform index query = some (.headerNormalized,
          index.rowsIn start stop) := by
        rw [indexFound, hrange]
        simp only [hnil, ne_eq, not_true_eq_false, if_false]
      have hne : index.rowsIn start stop ≠ [] := by
        rw [← List.length_pos_iff, PersistentKeyIndex.length_rowsIn]
        omega
      rw [hzero heq]
      apply Ensures.bind
      . apply (verifyRows_ensures hI hI' hpos _ _).mono (fun _ h => h)
        exact fun e he => .of_readFails he hverifies
      intro _ hall
      apply Ensures.pure
      rw [LocatedKeys.fromOwned, if_neg hne, hfound]
      refine ⟨by rw [Option.map_some, LocatedKeys.view, LocatedKeys.iter_owned], ?_⟩
      rintro basis ordinals ⟨⟩
      exact hall

/-- A lookup whose range starts at a row that is too long does not come to an answer. -/
theorem locateWithIndex_stops (hI : file.Invariant w.platform I) (hI' : index.Invariant I)
    (hpos : 0 < index.header.chunkBytes)
    (hlt : index.lowerBoundOf (file.keyText w.platform query) false < index.len)
    (hlong : ¬index.Short (index.orderOf
      (index.lowerBoundOf (file.keyText w.platform query) false)))
    : Ensures w I (file.locateWithIndex index query) (fun _ => False)
        (fun e => index.Stopped w e ∨ ¬((∃ blocks, index.Represents file w.platform blocks)
          ∧ file.Unchanged w index.sourceIdentity ∧ file.QueryFits w.platform query)) := by
  unfold locateWithIndex
  apply Ensures.bind (R := fun _ => False) _ fun _ h => h.elim
  unfold indexedRange
  apply Ensures.bind
  . apply (validateDictionaryIdentity_ensures hI.events index.sourceIdentity).mono (fun _ h => h)
    rintro e (he | ⟨-, hchanged⟩)
    . exact .inl (.inl he)
    . exact .inr fun h => hchanged h.2.1
  rintro _ -
  apply Ensures.bind
  . apply (normalizedQuery_ensures hI.events query _).mono (fun _ h => h)
    rintro e (he | he)
    . exact .inl (.inl he)
    . exact .inr fun h => he h.2.2
  rintro _ rfl
  apply Ensures.bind (R := fun _ => False) _ fun _ h => h.elim
  apply Ensures.bind (R := fun _ => False) _ fun _ h => h.elim
  apply (PersistentKeyIndex.lowerBound_stops hI' hpos hlt hlong).mono (fun _ h => h)
  rintro e (he | he)
  . exact .inl he
  . exact .inr fun ⟨⟨_, hblocks⟩, _⟩ => he ⟨hblocks.intact, hblocks.readable⟩

/-! ## Pages -/

theorem countExactRows_ensures (hI : file.Invariant w.platform I) (hI' : index.Invariant I)
    (hpos : 0 < index.header.chunkBytes) (text : Bytes) {start stop offset limit : Nat}
    (hle : start ≤ stop) (hstop : stop ≤ index.len) (hcount : stop - start < u64Bound)
    : Ensures w I
        ((positions start stop).foldlM (fun (rows : PageRows) position => do
          let ordinal ← index.orderAt position
          let isExact ← file.rawExactRow index (rawDigest query) query text ordinal
          if isExact then rows.push offset limit ordinal else pure rows) ⟨[], 0⟩)
        (fun rows => rows
            = ⟨Search.window ((index.rowsIn start stop).filter
                (file.isExactRow w.platform index query)) offset limit,
              ((index.rowsIn start stop).filter
                (file.isExactRow w.platform index query)).length⟩
          ∧ ∀ row ∈ (index.rowsIn start stop).filter (file.isExactRow w.platform index query),
              ∃ key, file.Verified w.platform index row text key)
        (index.ReadFails w (index.Complete
          ∧ ∀ row ∈ index.rowsIn start stop, file.Verifies w.platform index row text)) := by
  apply Ensures.foldlM (J := fun seen (rows : PageRows) =>
    rows = ⟨Search.window ((seen.map index.orderOf).filter
          (file.isExactRow w.platform index query)) offset limit,
        ((seen.map index.orderOf).filter (file.isExactRow w.platform index query)).length⟩
      ∧ ∀ row ∈ (seen.map index.orderOf).filter (file.isExactRow w.platform index query),
          ∃ key, file.Verified w.platform index row text key)
  case hb => exact ⟨by simp [Search.window], by simp⟩
  rintro seen position rest _ hsplit ⟨rfl, hverified⟩
  have hmem : position ∈ positions start stop := by
    rw [hsplit]
    exact List.mem_append_right _ List.mem_cons_self
  have hposition : position < index.len := by
    simp only [positions, List.mem_range'_1] at hmem
    omega
  have hseen : seen.length < stop - start := by
    have := congrArg List.length hsplit
    rw [positions, List.length_range', List.length_append, List.length_cons] at this
    omega
  apply Ensures.bind
  . apply (PersistentKeyIndex.orderAt_ensures hI' hpos position).mono (fun _ h => h)
    exact fun e he => he.mono fun h => ⟨h.1, hposition⟩
  rintro _ ⟨rfl, -⟩
  apply Ensures.bind
  . apply (rawExactRow_ensures hI hI' hpos text _).mono (fun _ h => h)
    exact fun e he => he.mono fun h => h.2 _ (List.mem_map_of_mem hmem)
  rintro _ ⟨rfl, hexact⟩
  rw [List.map_append, List.map_singleton, List.filter_append]
  cases hisExact : file.isExactRow w.platform index query (index.orderOf position) with
  | true =>
    have hle := List.length_filter_le (file.isExactRow w.platform index query)
      (seen.map index.orderOf)
    rw [List.length_map] at hle
    have hadd : checkedAdd ((seen.map index.orderOf).filter
        (file.isExactRow w.platform index query)).length 1
          = some (((seen.map index.orderOf).filter
            (file.isExactRow w.platform index query)).length + 1) := by
      rw [checkedAdd_eq_some]
      omega
    rw [if_pos rfl, PageRows.push, hadd, okOr_some, except_ok_bind,
      List.filter_cons_of_pos hisExact, List.filter_nil]
    apply Ensures.liftM
    . rintro _ ⟨⟩
      refine ⟨by rw [Search.window_concat, List.length_append, List.length_singleton], ?_⟩
      intro row hrow
      rw [List.mem_append, List.mem_singleton] at hrow
      rcases hrow with hrow | rfl
      . exact hverified row hrow
      . exact hexact hisExact
    . intro e he
      contradiction
  | false =>
    rw [if_neg (by simp), List.filter_cons_of_neg (by simp [hisExact]), List.filter_nil,
      List.append_nil]
    exact .pure ⟨rfl, hverified⟩

theorem collectPage_ensures (hI : file.Invariant w.platform I) (hI' : index.Invariant I)
    (hpos : 0 < index.header.chunkBytes) (text : Bytes) {start stop offset limit : Nat}
    (hstop : stop ≤ index.len)
    : Ensures w I
        ((List.range (stop - start)).foldlM (fun (ordinals : List Nat) matchIndex => do
          let ordinal ← index.orderAt (start + matchIndex)
          let _ ← file.verifiedSourceKey index ordinal text
          return if matchIndex ≥ offset ∧ ordinals.length < limit then ordinals ++ [ordinal]
            else ordinals) [])
        (fun ordinals => ordinals = Search.window (index.rowsIn start stop) offset limit
          ∧ ∀ row ∈ index.rowsIn start stop, ∃ key, file.Verified w.platform index row text key)
        (index.ReadFails w (index.Complete
          ∧ ∀ row ∈ index.rowsIn start stop, file.Verifies w.platform index row text)) := by
  have hlen := @PersistentKeyIndex.length_rowsIn index start stop
  have hget (i : Nat) (hi : i < stop - start)
      : (index.rowsIn start stop)[i]? = some (index.orderOf (start + i)) := by
    simp [PersistentKeyIndex.rowsIn, positions, hi]
  apply (Ensures.foldlM_range (J := fun i ordinals =>
    ordinals = Search.window ((index.rowsIn start stop).take i) offset limit
      ∧ ∀ row ∈ (index.rowsIn start stop).take i,
          ∃ key, file.Verified w.platform index row text key) ?step ?init).mono
  . rintro _ ⟨rfl, hverified⟩
    rw [List.take_of_length_le (by omega)] at hverified ⊢
    exact ⟨rfl, hverified⟩
  . exact fun e he => he
  case init => exact ⟨by simp [Search.window], by simp⟩
  case step =>
    rintro i _ hi ⟨rfl, hverified⟩
    have hrow := hget i hi
    apply Ensures.bind
    . apply (PersistentKeyIndex.orderAt_ensures hI' hpos _).mono (fun _ h => h)
      exact fun e he => he.mono fun h => ⟨h.1, by omega⟩
    rintro _ ⟨rfl, -⟩
    apply Ensures.bind
    . apply (verifiedSourceKey_ensures hI hI' hpos _ text).mono (fun _ h => h)
      exact fun e he => he.mono fun h => h.2 _ (List.mem_of_getElem? hrow)
    rintro entry ⟨-, hentry⟩
    apply Ensures.pure
    have htake : ((index.rowsIn start stop).take i).length = i := by
      rw [List.length_take]
      omega
    rw [List.take_add_one, hrow, Option.toList_some, Search.window_concat, htake]
    refine ⟨rfl, ?_⟩
    intro row hrow
    rw [List.mem_append, List.mem_singleton] at hrow
    rcases hrow with hrow | rfl
    . exact hverified row hrow
    . exact ⟨_, hentry⟩

theorem locatePageWithIndex_ensures (hI : file.Invariant w.platform I) (hI' : index.Invariant I)
    (hpos : 0 < index.header.chunkBytes) (query : Str) (offset limit : Nat)
    : Ensures w I (file.locatePageWithIndex index query offset limit)
        (fun page => page.map LocatedKeyPage.view
            = (file.indexFound w.platform index query).map (LocatedKeyPage.of offset limit)
          ∧ file.FoundVerified w.platform index query (file.indexFound w.platform index query))
        (file.IndexFails index w (file.QueryFits w.platform query)) := by
  have hbound : u64Max + 1 = u64Bound := by decide
  unfold locatePageWithIndex
  apply Ensures.bind (indexedRange_ensures hI hI' hpos query _)
  rintro _ rfl
  dsimp only
  cases hrange : index.rangeOf (file.keyText w.platform query) with
  | none =>
    apply Ensures.pure
    have hfound : file.indexFound w.platform index query = none := by
      rw [indexFound, hrange]
    rw [hfound]
    exact ⟨rfl, fun _ _ h => by contradiction⟩
  | some range =>
    obtain ⟨start, stop⟩ := range
    obtain ⟨hlt, hle⟩ := PersistentKeyIndex.rangeOf_eq_some hrange
    have hlen (blocks : List (List DecodedKeyRow))
        (h : index.Represents file w.platform blocks) : index.len * 4 < u64Bound := by
      have := h.complete.order
      have := h.intact.sections .order
      have := h.intact.len_lt
      omega
    have hverifies (blocks : List (List DecodedKeyRow))
        (h : index.Represents file w.platform blocks)
        : index.Complete ∧ ∀ row ∈ index.rowsIn start stop,
          file.Verifies w.platform index row (file.keyText w.platform query) :=
      ⟨h.complete, fun row hrow => h.verifies_of_mem hrange hrow⟩
    dsimp only
    apply ensures_checkedSub_bind
    . intro h
      omega
    intro _
    apply ensures_checkedUsize_bind
    . intro h e
      apply IndexFails.unfit
      rintro ⟨⟨blocks, hblocks⟩, -⟩
      have := hlen blocks hblocks
      omega
    intro hcount
    apply ensures_checkedMul_bind
    . intro h
      apply IndexFails.unfit
      rintro ⟨⟨blocks, hblocks⟩, -⟩
      have := hlen blocks hblocks
      omega
    intro _
    apply ensures_failIf_bind
    . exact fun _ => .matchLimit rfl rfl
    intro _
    apply ensures_reserve_bind hI.events
    . exact fun e he => .stopped (.inl he)
    apply Ensures.bind
    . apply (countExactRows_ensures hI hI' hpos _ (Nat.le_of_lt hlt) hle hcount).mono
        (fun _ h => h)
      exact fun e he => .of_readFails he hverifies
    rintro _ ⟨rfl, hverified⟩
    dsimp only
    split
    . next hne =>
      have hne' : (index.rowsIn start stop).filter (file.isExactRow w.platform index query) ≠ [] := by
        rwa [ne_eq, List.length_eq_zero_iff] at hne
      have hfound : file.indexFound w.platform index query = some (.rawExact,
          (index.rowsIn start stop).filter (file.isExactRow w.platform index query)) := by
        rw [indexFound, hrange]
        simp only [if_pos hne']
      apply Ensures.pure
      rw [hfound]
      refine ⟨rfl, ?_⟩
      rintro basis ordinals ⟨⟩
      exact hverified
    . next heq =>
      have hnil : (index.rowsIn start stop).filter (file.isExactRow w.platform index query) = [] := by
        simpa using heq
      have hfound : file.indexFound w.platform index query = some (.headerNormalized,
          index.rowsIn start stop) := by
        rw [indexFound, hrange]
        simp only [hnil, ne_eq, not_true_eq_false, if_false]
      apply Ensures.bind
      . apply (collectPage_ensures hI hI' hpos _ hle).mono (fun _ h => h)
        exact fun e he => .of_readFails he hverifies
      rintro _ ⟨rfl, hall⟩
      apply Ensures.pure
      rw [hfound, Option.map_some, Option.map_some, LocatedKeyPage.view, LocatedKeyPage.of,
        PersistentKeyIndex.length_rowsIn]
      refine ⟨rfl, ?_⟩
      rintro basis ordinals ⟨⟩
      exact hall

/-! ## Case variants -/

theorem locateCaseVariantsWithIndex_ensures (hI : file.Invariant w.platform I)
    (hI' : index.Invariant I) (hpos : 0 < index.header.chunkBytes) (query : Str)
    (offset limit : Nat)
    : Ensures w I (file.locateCaseVariantsWithIndex index query offset limit)
        (fun page => page = file.indexVariantsPage w.platform index query offset limit
          ∧ ∀ row ∈ file.indexRows w.platform index query,
              ∃ key, file.Verified w.platform index row (file.keyText w.platform query) key)
        (file.IndexFails index w (file.QueryFits w.platform query)) := by
  unfold locateCaseVariantsWithIndex
  apply Ensures.bind (indexedRange_ensures hI hI' hpos query _)
  rintro _ rfl
  dsimp only
  cases hrange : index.rangeOf (file.keyText w.platform query) with
  | none =>
    have hrows : file.indexRows w.platform index query = [] := by
      rw [indexRows, hrange]
    apply Ensures.pure
    rw [indexVariantsPage, indexRowsWhere, indexRowsWhere, hrows]
    exact ⟨rfl, by simp⟩
  | some range =>
    obtain ⟨start, stop⟩ := range
    obtain ⟨hlt, hle⟩ := PersistentKeyIndex.rangeOf_eq_some hrange
    have hrows : file.indexRows w.platform index query = index.rowsIn start stop := by
      rw [indexRows, hrange]
    have hlen (blocks : List (List DecodedKeyRow))
        (h : index.Represents file w.platform blocks) : index.len * 4 < u64Bound := by
      have := h.complete.order
      have := h.intact.sections .order
      have := h.intact.len_lt
      omega
    dsimp only
    apply ensures_checkedSub_bind
    . intro h
      omega
    intro _
    apply ensures_checkedUsize_bind
    . intro h e
      apply IndexFails.unfit
      rintro ⟨⟨blocks, hblocks⟩, -⟩
      have := hlen blocks hblocks
      omega
    intro _
    apply (CaseVariants.selectPage_ensures (C := fun position candidate =>
      IsCandidate (file.freshKey w.platform) (index.rowsIn start stop) position candidate
        ∧ file.Verified w.platform index candidate.1 (file.keyText w.platform query) candidate.2)
      hI.events rfl ?unique ?source ?interrupted ?overflow ?bytes).mono _ (fun _ h => h)
    case unique => exact fun _ _ _ ha hb => ha.1.unique hb.1
    case source =>
      intro position hposition
      have hrow : (index.rowsIn start stop)[position]? = some (index.orderOf (start + position)) := by
        simp [PersistentKeyIndex.rowsIn, positions, hposition]
      apply Ensures.bind
      . apply (PersistentKeyIndex.orderAt_ensures hI' hpos _).mono (fun _ h => h)
        exact fun e he => .of_readFails he fun _ h => ⟨h.complete, by omega⟩
      rintro _ ⟨rfl, -⟩
      apply Ensures.bind
      . apply (verifiedSourceKey_ensures hI hI' hpos _ _).mono (fun _ h => h)
        exact fun e he => .of_readFails he fun _ h =>
          h.verifies_of_mem hrange (List.mem_of_getElem? hrow)
      rintro entry ⟨-, hverified⟩
      exact .pure ⟨⟨hrow, hverified.hasKey.freshKey_eq⟩, hverified⟩
    case interrupted => exact fun e he => .stopped (.inl he)
    case overflow =>
      intro h e
      apply IndexFails.unfit
      rintro ⟨⟨blocks, hblocks⟩, -⟩
      have := hlen blocks hblocks
      omega
    case bytes => exact fun _ e he hrow => .matchLimit he hrow
    rintro page ⟨candidates, hcount, hcandidates, rfl⟩
    rw [← @PersistentKeyIndex.length_rowsIn index start stop] at hcount
    have hkeys := fun position candidate h => (hcandidates position candidate h).1
    rw [indexVariantsPage, indexRowsWhere, indexRowsWhere, hrows, CaseVariants.exactOf,
      CaseVariants.variantsOf, map_filter_candidates hcount hkeys (· == query),
      map_filter_candidates hcount hkeys fun key =>
        key != query && equalIgnoringCase w.platform key query]
    refine ⟨rfl, ?_⟩
    intro row hrow
    obtain ⟨position, hposition⟩ := List.mem_iff_getElem?.mp hrow
    have hlt' : position < candidates.length := by
      rw [hcount]
      exact (List.getElem?_eq_some_iff.mp hposition).1
    obtain ⟨⟨hrow', -⟩, hverified⟩ := hcandidates position _ (List.getElem?_eq_getElem hlt')
    rw [hposition, Option.some.injEq] at hrow'
    exact ⟨_, hrow' ▸ hverified⟩

/-! ## Prefixes -/

theorem EntriesVerified.concat {rows : List Nat} {entries : List KeyEntry} {entry : KeyEntry}
    (h : file.EntriesVerified p index rows entries)
    (hverified : file.Verified p index entry.ordinal (index.textOf entry.ordinal) entry.key)
    : file.EntriesVerified p index (rows ++ [entry.ordinal]) (entries ++ [entry]) := by
  refine ⟨by rw [List.map_append, h.1, List.map_singleton], ?_⟩
  intro entry' hmem
  rw [List.mem_append, List.mem_singleton] at hmem
  rcases hmem with hmem | rfl
  . exact h.2 entry' hmem
  . exact hverified

theorem prefixRowsFrom_ensures (hI : file.Invariant w.platform I) (hI' : index.Invariant I)
    (hpos : 0 < index.header.chunkBytes) (text : Bytes) (limit position : Nat)
    (found : List KeyEntry) {seen : List Nat}
    (hfound : file.EntriesVerified w.platform index seen found) (hlimit : found.length ≤ limit)
    : Ensures w I (file.prefixRowsFrom index text limit position found)
        (file.EntriesVerified w.platform index
          (seen ++ (rowsWithPrefix index text position).take (limit - found.length)))
        (index.ReadFails w (index.Complete ∧ ∀ position < index.len,
          file.Verifies w.platform index (index.orderOf position)
            (index.textOf (index.orderOf position)))) := by
  induction hn : index.len - position generalizing position found seen with
  | zero =>
    have hdone : rowsWithPrefix index text position = [] := by
      rw [rowsWithPrefix, List.drop_eq_nil_of_le
        (by rw [PersistentKeyIndex.length_rows]; omega), List.takeWhile_nil]
    unfold prefixRowsFrom
    rw [dif_neg (by omega), hdone, List.take_nil, List.append_nil]
    exact .pure hfound
  | succ n ih =>
    have hposition : position < index.len := by omega
    unfold prefixRowsFrom
    split
    . next hgo =>
      have hrows : rowsWithPrefix index text position
          = if text.isPrefixOf (index.textOf (index.orderOf position)) then
              index.orderOf position :: rowsWithPrefix index text (position + 1)
            else [] := by
        have hlt : position < index.rows.length := by
          rw [PersistentKeyIndex.length_rows]
          exact hposition
        have hget := PersistentKeyIndex.getElem?_rows hposition
        rw [List.getElem?_eq_getElem hlt, Option.some.injEq] at hget
        rw [rowsWithPrefix, List.drop_eq_getElem_cons hlt, hget, List.takeWhile_cons]
        rfl
      apply Ensures.bind
      . apply (PersistentKeyIndex.orderAt_ensures hI' hpos position).mono (fun _ h => h)
        exact fun e he => he.mono fun h => ⟨h.1, hposition⟩
      rintro _ ⟨rfl, -⟩
      apply Ensures.bind
      . apply (PersistentKeyIndex.rowText_ensures hI' hpos _).mono (fun _ h => h)
        exact fun e he => he.mono fun h =>
          ⟨h.1, (h.2 position hposition).readable.rows _ (h.2 position hposition).lt⟩
      rintro _ ⟨rfl, -⟩
      rw [hrows]
      cases hbegins : text.isPrefixOf (index.textOf (index.orderOf position)) with
      | false =>
        rw [if_neg (by simp), if_neg (by simp), List.take_nil, List.append_nil]
        exact .pure hfound
      | true =>
        rw [if_pos rfl, if_pos rfl]
        apply Ensures.bind
        . apply (verifiedSourceKey_ensures hI hI' hpos _ _).mono (fun _ h => h)
          exact fun e he => he.mono fun h => h.2 position hposition
        rintro entry ⟨hordinal, hverified⟩
        rw [← hordinal] at hverified ⊢
        have hnext := ih (position + 1) (found ++ [entry]) (hfound.concat hverified)
          (by rw [List.length_append, List.length_singleton]; omega) (by omega)
        have hstep : limit - found.length = limit - (found ++ [entry]).length + 1 := by
          rw [List.length_append, List.length_singleton]
          omega
        rw [hstep, List.take_succ_cons]
        rw [List.append_assoc, List.singleton_append] at hnext
        exact hnext
    . have hfull : limit - found.length = 0 := by omega
      rw [hfull, List.take_zero, List.append_nil]
      exact .pure hfound

theorem prefixWithIndex_ensures (hI : file.Invariant w.platform I) (hI' : index.Invariant I)
    (hpos : 0 < index.header.chunkBytes) (keyPrefix : Str) (limit : Nat)
    : Ensures w I (file.prefixWithIndex index keyPrefix limit)
        (file.EntriesVerified w.platform index ((rowsWithPrefix index
          (file.keyText w.platform keyPrefix)
          (index.lowerBoundOf (file.keyText w.platform keyPrefix) false)).take limit))
        (file.IndexFails index w (file.QueryFits w.platform keyPrefix)) := by
  unfold prefixWithIndex
  split
  . next hzero =>
    rw [hzero, List.take_zero]
    exact .pure ⟨rfl, by simp⟩
  . apply Ensures.bind (validateDictionaryIdentity_indexFails hI)
    rintro _ -
    apply Ensures.bind (normalizedQuery_indexFails hI keyPrefix _)
    rintro _ rfl
    apply Ensures.bind
    . apply (PersistentKeyIndex.lowerBound_ensures hI' hpos _ false).mono (fun _ h => h)
      exact fun e he => .of_readFails he fun _ h => h.readable
    rintro _ rfl
    apply (@prefixRowsFrom_ensures _ _ _ _ hI hI' hpos _ limit _ [] [] ⟨rfl, by simp⟩
      (Nat.zero_le _)).mono
    . intro entries hentries
      rwa [List.nil_append, List.length_nil, Nat.sub_zero] at hentries
    . exact fun e he => .of_readFails he fun _ h =>
        ⟨h.complete, fun _ hposition => h.verifies (h.orderOf_lt hposition)⟩

/-! ## Scans -/

theorem scanRows_ensures {β : Type} (hI : file.Invariant w.platform I) (hI' : index.Invariant I)
    (hpos : 0 < index.header.chunkBytes) (visit : β → Nat → Bytes → β × Bool) {first n : Nat}
    (hn : first + n = index.len) (acc : β)
    : Ensures w I (file.scanRows index visit (List.range' first n) acc)
        (fun result =>
          result = visitTexts visit first ((List.range' first n).map index.textOf) acc
          ∧ ∀ row ∈ visitedTexts visit first ((List.range' first n).map index.textOf) acc,
              ∃ key, file.Verified w.platform index row.1 row.2 key)
        (index.ReadFails w (index.len ≤ u32Bound
          ∧ ∀ row < index.len, file.Verifies w.platform index row (index.textOf row))) := by
  induction n generalizing first acc with
  | zero => exact .pure ⟨rfl, by simp [visitedTexts]⟩
  | succ n ih =>
    rw [List.range'_succ, List.map_cons, scanRows]
    apply ensures_okOr_bind
    . intro h
      right
      rintro ⟨-, hlen, -⟩
      simp only [toU32?, ite_eq_right_iff, reduceCtorEq, imp_false] at h
      omega
    intro ordinal hordinal
    rw [toU32?_eq_some] at hordinal
    obtain ⟨rfl, -⟩ := hordinal
    apply Ensures.bind
    . apply (PersistentKeyIndex.rowText_ensures hI' hpos _).mono (fun _ h => h)
      intro e he
      apply he.mono
      rintro ⟨-, h⟩
      have h := (h first (by omega)).readable
      exact ⟨h.complete, h.rows _ (by omega)⟩
    rintro _ ⟨rfl, -⟩
    apply Ensures.bind
    . apply (verifiedSourceKey_ensures hI hI' hpos _ _).mono (fun _ h => h)
      exact fun e he => he.mono fun h => h.2 _ (by omega)
    rintro entry ⟨-, hverified⟩
    rw [visitTexts, visitedTexts]
    cases visit acc first (index.textOf first) with
    | mk acc' stop =>
      cases stop with
      | true =>
        apply Ensures.pure
        refine ⟨rfl, ?_⟩
        intro row hrow
        rw [List.mem_singleton] at hrow
        subst hrow
        exact ⟨_, hverified⟩
      | false =>
        apply (@ih (first + 1) (by omega) acc').mono _ (fun _ h => h)
        rintro result ⟨hresult, hrest⟩
        refine ⟨hresult, ?_⟩
        intro row hrow
        rw [List.mem_cons] at hrow
        rcases hrow with rfl | hrow
        . exact ⟨_, hverified⟩
        . exact hrest row hrow

theorem scanWithIndex_ensures {β : Type} (hI : file.Invariant w.platform I)
    (hI' : index.Invariant I) (hpos : 0 < index.header.chunkBytes)
    (visit : β → Nat → Bytes → β × Bool) (acc : β)
    : Ensures w I (file.scanWithIndex index visit acc)
        (fun result =>
          result = visitTexts visit 0 ((List.range index.len).map index.textOf) acc
          ∧ ∀ row ∈ visitedTexts visit 0 ((List.range index.len).map index.textOf) acc,
              ∃ key, file.Verified w.platform index row.1 row.2 key)
        (file.IndexFails index w True) := by
  unfold scanWithIndex
  apply Ensures.bind (validateDictionaryIdentity_indexFails hI)
  rintro _ -
  rw [List.range_eq_range']
  apply (scanRows_ensures hI hI' hpos visit (Nat.zero_add _) acc).mono (fun _ h => h)
  exact fun e he => .of_readFails he fun _ h => ⟨h.len_le, fun _ hrow => h.verifies hrow⟩

end MdictFile

end Mdict
