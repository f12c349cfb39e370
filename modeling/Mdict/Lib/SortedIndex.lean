import Mdict.Lib.Bytes
import Mdict.Lib.Search
import Mathlib.Data.List.Perm.Basic
import Mathlib.Data.List.Range

/-!
This module contains the theory of a sorted index: the row numbers of a table, ordered by the key
of a row and among equal keys by the row number. Equal keys, and for string keys common prefixes,
are then contiguous runs of the index which list their rows in ascending order.
-/

namespace SortedIndex

/-! ## Comparisons -/

theorem isLE_then {κ : Type} [LinearOrder κ] [DecidableEq κ] {a b : κ} [Decidable (a < b)]
    {next : Ordering}
    : ((compareOfLessAndEq a b).then next).isLE ↔ a < b ∨ a = b ∧ next.isLE := by
  unfold compareOfLessAndEq
  by_cases hlt : a < b
  . simp [hlt]
  . by_cases heq : a = b
    . subst heq
      simp
    . simp [hlt, heq]

theorem isLE_compare_nat {a b : Nat} : (compareOfLessAndEq a b).isLE ↔ a ≤ b := by
  unfold compareOfLessAndEq
  by_cases hlt : a < b
  . simp [hlt, Nat.le_of_lt hlt]
  . by_cases heq : a = b
    . simp [heq]
    . simp only [hlt, heq, if_false]
      constructor
      . intro h
        contradiction
      . omega

/-! ## Sorted indexes -/

variable {κ : Type} [LinearOrder κ]

/-- Row `a` comes before row `b` in an index by `key`. -/
def Before (key : Nat → κ) (a b : Nat) : Prop :=
  key a < key b ∨ key a = key b ∧ a < b

/-- Rows have only one order by key and row number. -/
theorem eq_of_perm_of_pairwise {key : Nat → κ} {order order' : List Nat} (h : order.Perm order')
    (hsorted : order.Pairwise (Before key)) (hsorted' : order'.Pairwise (Before key))
    : order = order' := by
  apply @List.Perm.eq_of_pairwise _ (Before key)
  . intro a b _ _ hab hba
    rcases hab with hab | hab
    . rcases hba with hba | hba
      . exact absurd hba (lt_asymm hab)
      . exact absurd hba.1 (ne_of_gt hab)
    . rcases hba with hba | hba
      . exact absurd hab.1 (ne_of_gt hba)
      . omega
  . exact hsorted
  . exact hsorted'
  . exact h

/--
`order` lists the rows below `n` by `key` and row number.
-/
structure Sorted (key : Nat → κ) (n : Nat) (order : List Nat) : Prop where
  perm : order.Perm (List.range n)
  sorted : order.Pairwise (Before key)

variable {key : Nat → κ} {n : Nat} {order : List Nat}

namespace Sorted

theorem length_eq (h : Sorted key n order) : order.length = n := by
  rw [h.perm.length_eq, List.length_range]

theorem lt_of_mem (h : Sorted key n order) {row : Nat} (hr : row ∈ order) : row < n := by
  rw [h.perm.mem_iff] at hr
  exact List.mem_range.mp hr

theorem congr {key' : Nat → κ} (h : Sorted key n order) (hkey : ∀ row < n, key row = key' row)
    : Sorted key' n order where
  perm := h.perm
  sorted := by
    apply h.sorted.imp_of_mem
    intro a b ha hb hab
    rwa [Before, ← hkey a (h.lt_of_mem ha), ← hkey b (h.lt_of_mem hb)]

/-- An index by the same keys is unique. -/
theorem unique {order' : List Nat} (h : Sorted key n order) (h' : Sorted key n order')
    : order = order' :=
  eq_of_perm_of_pairwise (h.perm.trans h'.perm.symm) h.sorted h'.sorted

/-- Sorting the row numbers by key and row number gives the index. -/
theorem of_mergeSort {le : Nat → Nat → Bool}
    (hle : ∀ a b, le a b ↔ key a < key b ∨ key a = key b ∧ a ≤ b) (n : Nat)
    : Sorted key n ((List.range n).mergeSort le) where
  perm := List.mergeSort_perm _ _
  sorted := by
    have hsorted : ((List.range n).mergeSort le).Pairwise (fun a b => le a b) := by
      apply List.pairwise_mergeSort
      . intro a b c hab hbc
        rw [hle] at *
        rcases hab with hab | hab <;> rcases hbc with hbc | hbc
        . exact .inl (lt_trans hab hbc)
        . exact .inl (hbc.1 ▸ hab)
        . exact .inl (hab.1 ▸ hbc)
        . exact .inr ⟨hab.1.trans hbc.1, by omega⟩
      . intro a b
        rw [Bool.or_eq_true, hle, hle]
        rcases lt_trichotomy (key a) (key b) with h | h | h
        . exact .inl (.inl h)
        . rcases Nat.le_total a b with hab | hab
          . exact .inl (.inr ⟨h, hab⟩)
          . exact .inr (.inr ⟨h.symm, hab⟩)
        . exact .inr (.inl h)
    have hnodup : ((List.range n).mergeSort le).Nodup :=
      (List.mergeSort_perm _ _).nodup_iff.mpr List.nodup_range
    apply (hsorted.and hnodup).imp
    intro a b hab
    rcases (hle a b).mp hab.1 with h | h
    . exact .inl h
    . exact .inr ⟨h.1, by have := hab.2; omega⟩

/-- Going through the index, keys grow. -/
theorem pairwise_not_lt (h : Sorted key n order)
    : order.Pairwise (fun a b => ¬ key b < key a) := by
  apply h.sorted.imp
  intro a b hab
  rcases hab with hab | hab
  . exact lt_asymm hab
  . rw [hab.1]
    exact lt_irrefl _

/-- The rows of one key stand in the index in ascending order. -/
theorem filter_key_eq (h : Sorted key n order) {q : κ} {equal : Nat → Bool}
    (hequal : ∀ row, equal row ↔ key row = q)
    : order.filter equal = (List.range n).filter equal := by
  apply @List.Perm.eq_of_pairwise _ (· < ·)
  . intro a b _ _ hab hba
    omega
  . rw [List.pairwise_filter]
    apply h.sorted.imp
    intro a b hab ha hb
    rw [hequal] at ha hb
    rcases hab with hab | hab
    . rw [ha, hb] at hab
      exact absurd hab (lt_irrefl q)
    . exact hab.2
  . exact List.Pairwise.filter _ List.pairwise_lt_range
  . exact h.perm.filter _

/-! ### Partition points -/

section Bounds

variable {q : κ} {below upto equal : Nat → Bool}

theorem pairwise_below (h : Sorted key n order) (hbelow : ∀ row, below row ↔ key row < q)
    : order.Pairwise (fun a b => below b → below a) := by
  apply h.pairwise_not_lt.imp
  intro a b hab hb
  rw [hbelow] at *
  exact lt_of_le_of_lt (not_lt.mp hab) hb

theorem pairwise_upto (h : Sorted key n order) (hupto : ∀ row, upto row ↔ ¬q < key row)
    : order.Pairwise (fun a b => upto b → upto a) := by
  apply h.pairwise_not_lt.imp
  intro a b hab hb
  rw [hupto] at *
  exact fun hq => hb (lt_of_lt_of_le hq (not_lt.mp hab))

/-- The run between the two partition points of `q` holds exactly the rows with key `q`. -/
theorem equalRange (h : Sorted key n order) (hbelow : ∀ row, below row ↔ key row < q)
    (hupto : ∀ row, upto row ↔ ¬q < key row) (hequal : ∀ row, equal row ↔ key row = q)
    : (order.drop (Search.partitionPoint below order)).take
        (Search.partitionPoint upto order - Search.partitionPoint below order)
        =
      (List.range n).filter equal := by
  rw [← h.filter_key_eq hequal, ← List.drop_take, Search.take_partitionPoint (h.pairwise_upto hupto)]
  have hpart : (order.filter upto).Pairwise (fun a b => below b → below a) :=
    (h.pairwise_below hbelow).filter _
  have hcount : Search.partitionPoint below order
      = Search.partitionPoint below (order.filter upto) := by
    rw [Search.partitionPoint_eq (h.pairwise_below hbelow), Search.partitionPoint_eq hpart]
    rw [List.filter_filter]
    congr 1
    apply List.filter_congr
    intro row _
    by_cases hr : below row
    . have : upto row := by
        rw [hupto]
        exact lt_asymm ((hbelow row).mp hr)
      simp [hr, this]
    . simp [hr]
  rw [hcount, Search.drop_partitionPoint hpart, List.filter_filter]
  apply List.filter_congr
  intro row _
  have h1 := hbelow row
  have h2 := hupto row
  have h3 := hequal row
  rcases lt_trichotomy (key row) q with hr | hr | hr
  . have : equal row = false := by
      rw [← Bool.not_eq_true, h3]
      exact ne_of_lt hr
    simp [h1.mpr hr, this]
  . have hbelow' : below row = false := by
      rw [← Bool.not_eq_true, h1, hr]
      exact lt_irrefl q
    have hupto' : upto row = true := by
      rw [h2, hr]
      exact lt_irrefl q
    simp [hbelow', hupto', h3.mpr hr]
  . have hupto' : upto row = false := by
      rw [← Bool.not_eq_true, h2]
      exact fun hq => hq hr
    have hequal' : equal row = false := by
      rw [← Bool.not_eq_true, h3]
      exact ne_of_gt hr
    simp [hupto', hequal']

/-- The partition points of `q` enclose a non-empty run exactly when some row has the key `q`. -/
theorem partitionPoint_lt_iff (h : Sorted key n order) (hbelow : ∀ row, below row ↔ key row < q)
    (hupto : ∀ row, upto row ↔ ¬q < key row) (hequal : ∀ row, equal row ↔ key row = q)
    : Search.partitionPoint below order < Search.partitionPoint upto order
        ↔
      (List.range n).filter equal ≠ [] := by
  have hle : Search.partitionPoint upto order ≤ order.length := by
    rw [Search.partitionPoint_eq (h.pairwise_upto hupto)]
    exact List.length_filter_le _ _
  have hrun := congrArg List.length (h.equalRange hbelow hupto hequal)
  rw [List.length_take, List.length_drop] at hrun
  rw [ne_eq, ← List.length_eq_zero_iff]
  omega

end Bounds

end Sorted

/-! ## Prefixes -/

section Prefix

variable {α : Type} [LinearOrder α] {text : Nat → List α} {n : Nat} {order : List Nat}
variable {p : List α} {below extending : Nat → Bool}

/--
From the lower bound of a prefix on, the rows that extend it come first.
-/
theorem Sorted.takeWhile_prefix (h : Sorted text n order)
    (hbelow : ∀ row, below row ↔ text row < p) (hext : ∀ row, extending row ↔ p <+: text row)
    : (order.drop (Search.partitionPoint below order)).takeWhile extending
        =
      order.filter extending := by
  rw [Search.drop_partitionPoint (h.pairwise_below hbelow)]
  have hpart : (order.filter (fun row => !below row)).Pairwise
      (fun a b => extending b → extending a) := by
    rw [List.pairwise_filter]
    apply h.pairwise_not_lt.imp
    intro a b hab ha _ hb
    have ha : ¬text a < p := by
      rw [← hbelow]
      simpa using ha
    rw [hext] at *
    exact List.isPrefix_of_not_lt hb ha hab
  have hfilter : order.filter extending
      = (order.filter (fun row => !below row)).filter extending := by
    rw [List.filter_filter]
    apply List.filter_congr
    intro row _
    by_cases hr : extending row
    . have : below row = false := by
        rw [← Bool.not_eq_true, hbelow]
        exact List.not_lt_of_isPrefix ((hext row).mp hr)
      simp [hr, this]
    . simp [hr]
  rw [hfilter]
  generalize order.filter (fun row => !below row) = rows at hpart
  induction rows with
  | nil => rfl
  | cons row rows ih =>
    rw [List.pairwise_cons] at hpart
    by_cases hr : extending row
    . rw [List.takeWhile_cons_of_pos hr, List.filter_cons_of_pos hr, ih hpart.2]
    . rw [List.takeWhile_cons_of_neg hr, List.filter_cons_of_neg hr, eq_comm,
        List.filter_eq_nil_iff]
      exact fun other hmem hother => hr (hpart.1 other hmem hother)

end Prefix

end SortedIndex
