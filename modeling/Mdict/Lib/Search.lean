import Mathlib.Algebra.GroupWithZero.Nat
import Mathlib.Data.List.Basic
import Mathlib.Order.Basic

/-!
This module contains the two binary searches the development relies on: bisection of a partitioned
sequence and the search for the interval of a tiling that covers a point.
-/

namespace Search

/-! ## Bisection -/

/--
The first index from `left` on at which `p` fails, or `right` when there is none, provided that `p`
fails from its first failure on.
-/
def bisect (p : Nat → Bool) (left right : Nat) : Nat :=
  if left < right then
    let middle := left + (right - left) / 2
    if p middle then
      bisect p (middle + 1) right
    else
      bisect p left middle
  else
    left
termination_by right - left

/-- The number of leading elements that satisfy `p` in a sequence partitioned by `p`. -/
def partitionPoint {α : Type} (p : α → Bool) (xs : List α) : Nat :=
  bisect (fun i => xs[i]?.any p) 0 xs.length

theorem bisect_spec (p : Nat → Bool) (left right : Nat) (hle : left ≤ right)
    (hp : ∀ i j, i ≤ j → j < right → p j → p i)
    : left ≤ bisect p left right ∧ bisect p left right ≤ right
        ∧ (∀ i, left ≤ i → i < bisect p left right → p i)
        ∧ (∀ i, bisect p left right ≤ i → i < right → ¬p i) := by
  unfold bisect
  split
  . next hlt =>
    dsimp only
    split
    . next hmid =>
      obtain ⟨h1, h2, h3, h4⟩ :=
        bisect_spec p (left + (right - left) / 2 + 1) right (by omega) hp
      refine ⟨by omega, h2, ?_, h4⟩
      intro i hi hib
      by_cases hm : i ≤ left + (right - left) / 2
      . exact hp i _ hm (by omega) hmid
      . exact h3 i (by omega) hib
    . next hmid =>
      obtain ⟨h1, h2, h3, h4⟩ :=
        bisect_spec p left (left + (right - left) / 2) (by omega)
          (fun i j hij hj => hp i j hij (by omega))
      refine ⟨h1, by omega, h3, ?_⟩
      intro i hi hir hpi
      by_cases hm : i < left + (right - left) / 2
      . exact h4 i hi hm hpi
      . exact hmid (hp _ i (by omega) hir hpi)
  . refine ⟨Nat.le_refl _, hle, ?_, ?_⟩
    . intros
      omega
    . intros
      omega
termination_by right - left

/-- The search stays in its interval, whatever `p` is. -/
theorem bisect_le (p : Nat → Bool) (left right : Nat) (hle : left ≤ right)
    : bisect p left right ≤ right := by
  unfold bisect
  split
  . dsimp only
    split
    . exact bisect_le p _ right (by omega)
    . have := bisect_le p left (left + (right - left) / 2) (by omega)
      omega
  . exact hle
termination_by right - left

/-- The search looks at its interval only. -/
theorem bisect_congr {p q : Nat → Bool} (left right : Nat)
    (h : ∀ i, left ≤ i → i < right → p i = q i)
    : bisect p left right = bisect q left right := by
  unfold bisect
  split
  . next hlt =>
    dsimp only
    rw [h (left + (right - left) / 2) (by omega) (by omega),
      bisect_congr (left + (right - left) / 2 + 1) right fun i hi => h i (by omega),
      bisect_congr left (left + (right - left) / 2) fun i hi hi' => h i hi (by omega)]
  . rfl
termination_by right - left

variable {α : Type} {p : α → Bool} {xs : List α}

/-- A partitioned sequence is what satisfies `p` followed by what does not. -/
theorem filter_append_filter (h : xs.Pairwise (fun x y => p y → p x))
    : xs.filter p ++ xs.filter (fun x => !p x) = xs := by
  induction xs with
  | nil => rfl
  | cons x xs ih =>
    rw [List.pairwise_cons] at h
    by_cases hx : p x
    . simp [hx, ih h.2]
    . have hnone : xs.filter p = [] := by
        rw [List.filter_eq_nil_iff]
        exact fun y hy hpy => hx (h.1 y hy hpy)
      have hall : xs.filter (fun x => !p x) = xs := by
        rw [List.filter_eq_self]
        intro y hy
        simpa using fun hpy => hx (h.1 y hy hpy)
      simp [hx, hnone, hall]

theorem partitionPoint_eq (h : xs.Pairwise (fun x y => p y → p x))
    : partitionPoint p xs = (xs.filter p).length := by
  have happ := filter_append_filter h
  have hlen : (xs.filter p).length ≤ xs.length := List.length_filter_le p xs
  -- `p` holds at an index exactly when the index is below the number of satisfying elements
  have hiff : ∀ i, i < xs.length → (xs[i]?.any p ↔ i < (xs.filter p).length) := by
    intro i hi
    constructor
    . intro hpi
      by_contra hge
      have hmem : xs[i]? = (xs.filter (fun x => !p x))[i - (xs.filter p).length]? := by
        conv_lhs => rw [← happ]
        rw [List.getElem?_append_right (by omega)]
      rw [List.getElem?_eq_getElem hi] at hmem hpi
      have hmem := (List.mem_filter.mp (List.mem_of_getElem? hmem.symm)).2
      rw [Option.any_some] at hpi
      rw [hpi] at hmem
      contradiction
    . intro hlt
      have hmem : xs[i]? = (xs.filter p)[i]? := by
        conv_lhs => rw [← happ]
        rw [List.getElem?_append_left hlt]
      rw [hmem, List.getElem?_eq_getElem hlt]
      have hmem := List.getElem_mem hlt
      rw [List.mem_filter] at hmem
      simpa using hmem.2
  obtain ⟨-, h2, h3, h4⟩ := bisect_spec (fun i => xs[i]?.any p) 0 xs.length (Nat.zero_le _) (by
    intro i j hij hj hpj
    rw [hiff i (by omega)]
    rw [hiff j hj] at hpj
    omega)
  unfold partitionPoint
  generalize bisect (fun i => xs[i]?.any p) 0 xs.length = r at *
  rcases Nat.lt_trichotomy r (xs.filter p).length with hr | hr | hr
  . exact absurd ((hiff r (by omega)).mpr hr) (h4 r (Nat.le_refl _) (by omega))
  . exact hr
  . have := (hiff (r - 1) (by omega)).mp (h3 (r - 1) (Nat.zero_le _) (by omega))
    omega

theorem take_partitionPoint (h : xs.Pairwise (fun x y => p y → p x))
    : xs.take (partitionPoint p xs) = xs.filter p := by
  rw [partitionPoint_eq h]
  conv_lhs => rw [← filter_append_filter h]
  simp

theorem drop_partitionPoint (h : xs.Pairwise (fun x y => p y → p x))
    : xs.drop (partitionPoint p xs) = xs.filter (fun x => !p x) := by
  rw [partitionPoint_eq h]
  conv_lhs => rw [← filter_append_filter h]
  simp

/-! ## Tilings -/

/--
The start of the `i`-th of a row of adjacent intervals of the given sizes.
-/
def start (sizes : List Nat) (i : Nat) : Nat := (sizes.take i).sum

@[simp]
theorem start_zero (sizes : List Nat) : start sizes 0 = 0 := by
  simp [start]

theorem start_succ {sizes : List Nat} {i : Nat} (h : i < sizes.length)
    : start sizes (i + 1) = start sizes i + sizes[i] := by
  rw [start, start, List.take_succ_eq_append_getElem h, List.sum_append]
  simp

theorem start_length (sizes : List Nat) : start sizes sizes.length = sizes.sum := by
  simp [start]

theorem start_mono (sizes : List Nat) {i j : Nat} (h : i ≤ j) : start sizes i ≤ start sizes j := by
  obtain ⟨k, rfl⟩ := Nat.exists_eq_add_of_le h
  have hsum : start sizes (i + k) = start sizes i + ((sizes.drop i).take k).sum := by
    rw [start, start, List.take_add, List.sum_append]
  omega

theorem start_le_sum (sizes : List Nat) (i : Nat) : start sizes i ≤ sizes.sum := by
  by_cases h : i ≤ sizes.length
  . rw [← start_length]
    exact start_mono sizes h
  . apply Nat.le_of_eq
    rw [start, List.take_of_length_le (by omega)]

/-- At most one interval of a tiling covers a point. -/
theorem covering_unique {sizes : List Nat} {i j x : Nat} (hi : i < sizes.length)
    (hj : j < sizes.length) (hxi : start sizes i ≤ x ∧ x < start sizes i + sizes[i])
    (hxj : start sizes j ≤ x ∧ x < start sizes j + sizes[j])
    : i = j := by
  rw [← start_succ hi] at hxi
  rw [← start_succ hj] at hxj
  rcases Nat.lt_trichotomy i j with h | h | h
  . have := start_mono sizes (show i + 1 ≤ j by omega)
    omega
  . exact h
  . have := start_mono sizes (show j + 1 ≤ i by omega)
    omega

/--
Binary search for the interval `lo i ≤ x < hi i`.
-/
def findCovering (lo hi : Nat → Nat) (x left right : Nat) : Option Nat :=
  if left < right then
    let mid := (left + right) / 2
    if x < lo mid then
      findCovering lo hi x left mid
    else if hi mid ≤ x then
      findCovering lo hi x (mid + 1) right
    else
      some mid
  else
    none
termination_by right - left

theorem findCovering_some {lo hi : Nat → Nat} {x left right i : Nat}
    (h : findCovering lo hi x left right = some i)
    : left ≤ i ∧ i < right ∧ lo i ≤ x ∧ x < hi i := by
  unfold findCovering at h
  split at h
  . dsimp only at h
    split at h
    . have := findCovering_some h
      omega
    . split at h
      . have := findCovering_some h
        omega
      . injection h with h
        subst h
        omega
  . contradiction
termination_by right - left

theorem findCovering_isSome {lo hi : Nat → Nat} {x left right : Nat}
    (hadj : ∀ i, i < right → hi i = lo (i + 1)) (hlo : lo left ≤ x) (hhi : x < lo right)
    (hle : left ≤ right)
    : (findCovering lo hi x left right).isSome := by
  unfold findCovering
  split
  . next hlt =>
    dsimp only
    split
    . next h1 =>
      exact findCovering_isSome (fun i hi => hadj i (by omega)) hlo h1 (by omega)
    . split
      . next h2 =>
        rw [hadj _ (by omega)] at h2
        exact findCovering_isSome hadj h2 hhi (by omega)
      . rfl
  . have : left = right := by omega
    subst this
    omega
termination_by right - left

/-- The search finds the one interval of a tiling that covers a point. -/
theorem findCovering_start {sizes : List Nat} {x : Nat} (hx : x < sizes.sum)
    : ∃ i, ∃ h : i < sizes.length,
        findCovering (start sizes) (fun i => start sizes (i + 1)) x 0 sizes.length = some i
          ∧ start sizes i ≤ x ∧ x < start sizes i + sizes[i] := by
  have hsome := @findCovering_isSome (start sizes) (fun i => start sizes (i + 1))
    x 0 sizes.length (fun _ _ => rfl) (by simp)
    (by rw [start_length]; exact hx) (Nat.zero_le _)
  obtain ⟨i, hi⟩ := Option.isSome_iff_exists.mp hsome
  obtain ⟨-, h2, h3, h4⟩ := findCovering_some hi
  rw [start_succ h2] at h4
  exact ⟨i, h2, hi, h3, h4⟩

/-! ## Concatenations -/

section Concatenation

variable {α : Type} {xss : List (List α)} {xs : List α} {i a b c : Nat}

/-- The part of a list from position `a` up to position `b`. -/
def slice (xs : List α) (a b : Nat) : List α := (xs.drop a).take (b - a)

theorem length_slice (h : b ≤ xs.length) : (slice xs a b).length = b - a := by
  rw [slice, List.length_take, List.length_drop]
  omega

theorem slice_of_le (h : b ≤ a) : slice xs a b = [] := by
  rw [slice, Nat.sub_eq_zero_of_le h, List.take_zero]

theorem slice_self : slice xs a a = [] := slice_of_le (Nat.le_refl a)

theorem slice_zero_length : slice xs 0 xs.length = xs := by
  simp [slice]

theorem slice_append_slice (hab : a ≤ b) (hbc : b ≤ c)
    : slice xs a b ++ slice xs b c = slice xs a c := by
  have hsplit : c - a = (b - a) + (c - b) := by omega
  have hdrop : xs.drop b = (xs.drop a).drop (b - a) := by
    rw [List.drop_drop]
    congr 1
    omega
  rw [slice, slice, slice, hsplit, List.take_add, hdrop]

/-- A slice of a slice is a slice. -/
theorem slice_slice (h : a + c ≤ b) (xs : List α) (i : Nat)
    : slice (slice xs a b) i c = slice xs (a + i) (a + c) := by
  rw [slice, slice, slice, List.drop_take, List.take_take, List.drop_drop]
  congr 1
  omega

/-- A slice of the middle part. -/
theorem slice_append_append {ys zs : List α} (h : b ≤ ys.length)
    : slice (xs ++ ys ++ zs) (xs.length + a) (xs.length + b) = slice ys a b := by
  have hmiddle : slice (xs ++ ys ++ zs) xs.length (xs.length + ys.length) = ys := by
    rw [slice, Nat.add_sub_cancel_left, List.append_assoc, List.drop_left, List.take_left]
  conv_rhs => rw [← hmiddle]
  rw [slice_slice (by omega)]

/-- A slice of pieces of one width. -/
theorem slice_flatMap {β : Type} {f : α → List β} {width i : Nat} {x : α}
    (hwidth : ∀ x, (f x).length = width) (h : xs[i]? = some x)
    : slice (xs.flatMap f) (i * width) (i * width + width) = f x := by
  induction xs generalizing i with
  | nil => contradiction
  | cons y xs ih =>
    rw [List.flatMap_cons]
    cases i with
    | zero =>
      cases h
      rw [Nat.zero_mul, Nat.zero_add, slice, List.drop_zero, Nat.sub_zero, ← hwidth x,
        List.take_left]
    | succ i =>
      rw [List.getElem?_cons_succ] at h
      have hstep : (i + 1) * width = (f y).length + i * width := by
        rw [hwidth, Nat.succ_mul, Nat.add_comm]
      rw [← ih h, hstep, slice, slice, Nat.add_assoc, ← List.drop_drop, List.drop_left,
        Nat.add_sub_add_left]

/-- The lists before the `i`-th have a total length of its start. -/
theorem length_flatten_take (xss : List (List α)) (i : Nat)
    : (xss.take i).flatten.length = start (xss.map List.length) i := by
  rw [List.length_flatten, start, List.map_take]

theorem flatten_eq (h : xss[i]? = some xs)
    : xss.flatten = (xss.take i).flatten ++ xs ++ (xss.drop (i + 1)).flatten := by
  obtain ⟨hlt, rfl⟩ := List.getElem?_eq_some_iff.mp h
  conv_lhs => rw [← List.take_append_drop i xss, List.drop_eq_getElem_cons hlt,
    List.flatten_append, List.flatten_cons, ← List.append_assoc]

/-- A part of the `i`-th list is a part of the concatenation. -/
theorem slice_flatten (h : xss[i]? = some xs) (hb : b ≤ xs.length)
    : slice xss.flatten (start (xss.map List.length) i + a) (start (xss.map List.length) i + b)
        = slice xs a b := by
  rw [flatten_eq h, ← length_flatten_take, List.append_assoc, slice, ← List.drop_drop,
    List.drop_left, slice]
  by_cases hab : a ≤ b
  . rw [List.drop_append_of_le_length (by omega),
      List.take_append_of_le_length (by rw [List.length_drop]; omega)]
    congr 1
    omega
  . have h1 : b - a = 0 := by omega
    have h2 : (xss.take i).flatten.length + b - ((xss.take i).flatten.length + a) = 0 := by omega
    rw [h1, h2]
    simp

theorem getElem?_flatten (h : xss[i]? = some xs) (ha : a < xs.length)
    : xss.flatten[start (xss.map List.length) i + a]? = xs[a]? := by
  rw [flatten_eq h, ← length_flatten_take, List.append_assoc,
    List.getElem?_append_right (by omega), List.getElem?_append_left (by omega)]
  congr 1
  omega

/-- Adjacent parts make up one part. -/
theorem flatten_slices (xs : List α) {spans : List (Nat × Nat)}
    (hle : ∀ span ∈ spans, span.1 ≤ span.2)
    (hadjacent : ∀ i s t, spans[i]? = some s → spans[i + 1]? = some t → s.2 = t.1)
    {first last : Nat × Nat} (hfirst : spans.head? = some first)
    (hlast : spans.getLast? = some last)
    : first.1 ≤ last.2
        ∧ (spans.map fun span => slice xs span.1 span.2).flatten = slice xs first.1 last.2 := by
  induction spans generalizing first with
  | nil => contradiction
  | cons span spans ih =>
    rw [List.head?_cons, Option.some.injEq] at hfirst
    subst hfirst
    have hspan := hle span List.mem_cons_self
    cases spans with
    | nil =>
      rw [List.getLast?_singleton, Option.some.injEq] at hlast
      subst hlast
      exact ⟨hspan, by simp⟩
    | cons next rest =>
      have hnext : span.2 = next.1 := hadjacent 0 span next rfl rfl
      rw [List.getLast?_cons_cons] at hlast
      obtain ⟨hrest, hflatten⟩ := ih (fun s hs => hle s (List.mem_cons_of_mem _ hs))
        (fun i s t hs ht => hadjacent (i + 1) s t hs ht) rfl hlast
      refine ⟨by omega, ?_⟩
      rw [List.map_cons, List.flatten_cons, hflatten, ← hnext, slice_append_slice hspan (by omega)]

end Concatenation

/-! ## Windows -/

section Window

variable {α : Type}

/-- The window of at most `limit` elements from position `offset` on. -/
def window (xs : List α) (offset limit : Nat) : List α := (xs.drop offset).take limit

theorem length_window (xs : List α) (offset limit : Nat)
    : (window xs offset limit).length = min limit (xs.length - offset) := by
  rw [window, List.length_take, List.length_drop]

/-- Adjacent windows make up one window. -/
theorem window_append_window (xs : List α) (offset limit limit' : Nat)
    : window xs offset limit ++ window xs (offset + limit) limit'
        = window xs offset (limit + limit') := by
  rw [window, window, window, List.take_add, List.drop_drop]

/-- A new element at the end shows in a window that reaches it and is not full. -/
theorem window_concat (xs : List α) (x : α) (offset limit : Nat)
    : window (xs ++ [x]) offset limit =
        if xs.length ≥ offset ∧ (window xs offset limit).length < limit then
          window xs offset limit ++ [x]
        else
          window xs offset limit := by
  rw [length_window]
  unfold window
  by_cases hoffset : offset ≤ xs.length
  . rw [List.drop_append_of_le_length hoffset]
    split
    . rw [List.take_of_length_le (by simp; omega), List.take_of_length_le (by simp; omega)]
    . rw [List.take_append_of_le_length (by simp; omega)]
  . rw [if_neg (by omega), List.drop_eq_nil_of_le (by simp; omega),
      List.drop_eq_nil_of_le (by omega)]

/-- A window of a concatenation first shows the first part and then fills up with the second. -/
theorem window_append (xs ys : List α) (offset limit : Nat)
    : window (xs ++ ys) offset limit = window xs offset limit
        ++ (ys.drop (offset - xs.length)).take
          (min limit (xs.length + ys.length - offset) - (window xs offset limit).length) := by
  rw [length_window]
  unfold window
  rw [List.drop_append, List.take_append, List.length_drop]
  congr 1
  rw [List.take_eq_take_iff, List.length_drop]
  omega

/-- A window of a part of a list is a part of the list. -/
theorem window_slice (xs : List α) {a b : Nat} (hab : a ≤ b) (offset limit : Nat)
    : window (slice xs a b) offset limit
        = slice xs (a + min offset (b - a)) (min (a + min offset (b - a) + limit) b) := by
  unfold window slice
  rw [List.drop_take, List.take_take, List.drop_drop]
  by_cases h : offset ≤ b - a
  . rw [Nat.min_eq_left h]
    congr 1
    omega
  . have h1 : min limit (b - a - offset) = 0 := by omega
    have h2 : min (a + min offset (b - a) + limit) b - (a + min offset (b - a)) = 0 := by omega
    rw [h1, h2, List.take_zero, List.take_zero]

end Window

end Search
