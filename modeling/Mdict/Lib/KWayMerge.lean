import Mathlib.Data.List.Sort

/-!
This module contains the theory of merging sorted runs with a heap that holds one record of each
run. The heap is a list of records with the numbers of their runs, from which some least one is
taken; which one among equals does not matter.
-/

namespace KWayMerge

variable {α : Type} [LinearOrder α]

/-- The records in ascending order. -/
def sorted (records : List α) : List α := records.mergeSort fun a b => decide (a ≤ b)

theorem sorted_perm (records : List α) : (sorted records).Perm records := List.mergeSort_perm _ _

theorem pairwise_sorted (records : List α) : (sorted records).Pairwise (· ≤ ·) :=
  List.pairwise_mergeSort' (· ≤ ·) records

/-- There is only one way to sort. -/
theorem eq_sorted {records output : List α} (hperm : output.Perm records)
    (hsorted : output.Pairwise (· ≤ ·))
    : output = sorted records :=
  (hperm.trans (sorted_perm records).symm).eq_of_pairwise' hsorted (pairwise_sorted records)

theorem sorted_eq_of_perm {records records' : List α} (h : records.Perm records')
    : sorted records = sorted records' :=
  eq_sorted ((sorted_perm records).trans h) (pairwise_sorted records)

/--
A merge under way: some records are in the output, some in the heap, and the others are left in
their runs. Of the runs below `filled`, the heap has a record as long as they have any left.
-/
structure Merging (all : List α) (filled : Nat) (output : List α) (heap : List (α × Nat))
    (rests : List (List α))
    : Prop where
  perm : (output ++ heap.map (·.1) ++ rests.flatten).Perm all
  sorted : output.Pairwise (· ≤ ·)
  bound : ∀ a ∈ output, ∀ item ∈ heap, a ≤ item.1
  waiting : ∀ item ∈ heap, ∃ rest, rests[item.2]? = some rest ∧ (item.1 :: rest).Pairwise (· ≤ ·)
  runs : ∀ rest ∈ rests, rest.Pairwise (· ≤ ·)
  covered : ∀ run < filled, ∀ rest, rests[run]? = some rest → rest ≠ [] →
    ∃ item ∈ heap, item.2 = run

omit [LinearOrder α] in
/-- Taking the first record out of a run. -/
theorem perm_flatten_set {rests : List (List α)} {run : Nat} {first : α} {rest : List α}
    (h : rests[run]? = some (first :: rest))
    : (first :: (rests.set run rest).flatten).Perm rests.flatten := by
  induction rests generalizing run with
  | nil => simp at h
  | cons other rests ih =>
    cases run with
    | zero =>
      rw [List.getElem?_cons_zero, Option.some.injEq] at h
      subst h
      rfl
    | succ run =>
      rw [List.getElem?_cons_succ] at h
      rw [List.set_cons_succ, List.flatten_cons, List.flatten_cons]
      exact List.perm_middle.symm.trans ((ih h).append_left other)

namespace Merging

variable {all output : List α} {filled : Nat} {heap : List (α × Nat)} {rests : List (List α)}

theorem start (h : ∀ run ∈ rests, run.Pairwise (· ≤ ·)) : Merging rests.flatten 0 [] [] rests where
  perm := List.Perm.refl _
  sorted := List.Pairwise.nil
  bound := fun _ h => by contradiction
  waiting := fun _ h => by contradiction
  runs := h
  covered := fun _ h => by contradiction

/-- A run without records does not take part. -/
theorem skip (h : Merging all filled output heap rests) (hrun : rests[filled]? = some [])
    : Merging all (filled + 1) output heap rests where
  perm := h.perm
  sorted := h.sorted
  bound := h.bound
  waiting := h.waiting
  runs := h.runs
  covered := by
    intro run hlt rest hrest hne
    by_cases heq : run = filled
    . subst heq
      rw [hrun, Option.some.injEq] at hrest
      exact absurd hrest.symm hne
    . exact h.covered run (by omega) rest hrest hne

/-- What is left of a run stays sorted when its first record moves to the heap. -/
theorem waiting_set (h : Merging all filled output heap rests) {run : Nat} {first : α}
    {rest : List α} (hrun : rests[run]? = some (first :: rest))
    : ∀ item ∈ (first, run) :: heap,
        ∃ left, (rests.set run rest)[item.2]? = some left ∧ (item.1 :: left).Pairwise (· ≤ ·) := by
  have hlt : run < rests.length := (List.getElem?_eq_some_iff.mp hrun).1
  intro item hitem
  by_cases heq : item.2 = run
  . refine ⟨rest, by rw [heq, List.getElem?_set_self hlt], ?_⟩
    rcases List.mem_cons.mp hitem with rfl | hitem
    . exact h.runs _ (List.mem_of_getElem? hrun)
    . obtain ⟨left, hleft, hsorted⟩ := h.waiting item hitem
      rw [heq, hrun, Option.some.injEq] at hleft
      subst hleft
      exact hsorted.sublist ((List.sublist_cons_self first rest).cons_cons item.1)
  . rw [List.getElem?_set_ne (Ne.symm heq)]
    rcases List.mem_cons.mp hitem with rfl | hitem
    . exact absurd rfl heq
    . exact h.waiting item hitem

theorem runs_set (h : Merging all filled output heap rests) {run : Nat} {first : α}
    {rest : List α} (hrun : rests[run]? = some (first :: rest))
    : ∀ left ∈ rests.set run rest, left.Pairwise (· ≤ ·) := by
  intro left hleft
  rcases List.mem_or_eq_of_mem_set hleft with hleft | rfl
  . exact h.runs left hleft
  . exact (h.runs _ (List.mem_of_getElem? hrun)).of_cons

/-- Before anything is written, the first record of the next run enters the heap. -/
theorem fill (h : Merging all filled [] heap rests) {first : α} {rest : List α}
    (hrun : rests[filled]? = some (first :: rest))
    : Merging all (filled + 1) [] ((first, filled) :: heap) (rests.set filled rest) where
  perm := by
    have hperm := h.perm
    rw [List.nil_append] at hperm
    rw [List.nil_append, List.map_cons, List.cons_append]
    exact (List.perm_middle.symm.trans ((perm_flatten_set hrun).append_left _)).trans hperm
  sorted := List.Pairwise.nil
  bound := fun _ h => by contradiction
  waiting := h.waiting_set hrun
  runs := h.runs_set hrun
  covered := by
    intro run hlt left hleft hne
    by_cases heq : run = filled
    . exact ⟨(first, filled), List.mem_cons_self, heq.symm⟩
    . rw [List.getElem?_set_ne (Ne.symm heq)] at hleft
      obtain ⟨item, hitem, hrun⟩ := h.covered run (by omega) left hleft hne
      exact ⟨item, List.mem_cons_of_mem _ hitem, hrun⟩

section Take

variable {least : α × Nat} {others : List (α × Nat)}

/-- A least record of the heap is least among all that are not written yet. -/
theorem sorted_concat (h : Merging all filled output heap rests)
    (hheap : heap.Perm (least :: others))
    : (output ++ [least.1]).Pairwise (· ≤ ·) := by
  rw [List.pairwise_append]
  refine ⟨h.sorted, List.pairwise_singleton _ _, ?_⟩
  intro a ha b hb
  rw [List.mem_singleton] at hb
  subst hb
  exact h.bound a ha least (hheap.mem_iff.mpr List.mem_cons_self)

theorem bound_concat (h : Merging all filled output heap rests)
    (hheap : heap.Perm (least :: others)) {b : α} (hb : least.1 ≤ b)
    : ∀ a ∈ output ++ [least.1], a ≤ b := by
  intro a ha
  rcases List.mem_append.mp ha with ha | ha
  . exact (h.bound a ha least (hheap.mem_iff.mpr List.mem_cons_self)).trans hb
  . rw [List.mem_singleton] at ha
    exact ha ▸ hb

/-- The least record of the heap is written and the next one of its run takes its place. -/
theorem replace (h : Merging all filled output heap rests) (hheap : heap.Perm (least :: others))
    (hleast : ∀ item ∈ others, least.1 ≤ item.1) {first : α} {rest : List α}
    (hrun : rests[least.2]? = some (first :: rest))
    : Merging all filled (output ++ [least.1]) ((first, least.2) :: others)
        (rests.set least.2 rest) where
  perm := by
    apply List.Perm.trans _ h.perm
    rw [List.append_assoc, List.append_assoc, List.append_assoc, List.singleton_append,
      List.map_cons, List.cons_append]
    apply List.Perm.append_left
    apply List.Perm.trans _ (((hheap.map (·.1)).symm).append_right _)
    rw [List.map_cons, List.cons_append]
    apply List.Perm.cons
    exact List.perm_middle.symm.trans ((perm_flatten_set hrun).append_left _)
  sorted := h.sorted_concat hheap
  bound := by
    intro a ha item hitem
    apply h.bound_concat hheap _ a ha
    rcases List.mem_cons.mp hitem with rfl | hitem
    . obtain ⟨left, hleft, hsorted⟩ := h.waiting least (hheap.mem_iff.mpr List.mem_cons_self)
      rw [hrun, Option.some.injEq] at hleft
      subst hleft
      exact List.rel_of_pairwise_cons hsorted List.mem_cons_self
    . exact hleast item hitem
  waiting := by
    intro item hitem
    apply h.waiting_set hrun item
    rcases List.mem_cons.mp hitem with rfl | hitem
    . exact List.mem_cons_self
    . exact List.mem_cons_of_mem _ (hheap.mem_iff.mpr (List.mem_cons_of_mem _ hitem))
  runs := h.runs_set hrun
  covered := by
    intro run hlt left hleft hne
    by_cases heq : run = least.2
    . exact ⟨(first, least.2), List.mem_cons_self, heq.symm⟩
    . rw [List.getElem?_set_ne (Ne.symm heq)] at hleft
      obtain ⟨item, hitem, hitemRun⟩ := h.covered run hlt left hleft hne
      rcases List.mem_cons.mp (hheap.mem_iff.mp hitem) with rfl | hitem
      . exact absurd hitemRun.symm heq
      . exact ⟨item, List.mem_cons_of_mem _ hitem, hitemRun⟩

/-- The least record of the heap is written, and it was the last one of its run. -/
theorem drop (h : Merging all filled output heap rests) (hheap : heap.Perm (least :: others))
    (hleast : ∀ item ∈ others, least.1 ≤ item.1) (hrun : rests[least.2]? = some [])
    : Merging all filled (output ++ [least.1]) others rests where
  perm := by
    apply List.Perm.trans _ h.perm
    rw [List.append_assoc, List.append_assoc, List.append_assoc, List.singleton_append]
    apply List.Perm.append_left
    exact ((hheap.map (·.1)).symm).append_right _
  sorted := h.sorted_concat hheap
  bound := fun a ha item hitem => h.bound_concat hheap (hleast item hitem) a ha
  waiting := fun item hitem => h.waiting item (hheap.mem_iff.mpr (List.mem_cons_of_mem _ hitem))
  runs := h.runs
  covered := by
    intro run hlt left hleft hne
    obtain ⟨item, hitem, hitemRun⟩ := h.covered run hlt left hleft hne
    rcases List.mem_cons.mp (hheap.mem_iff.mp hitem) with rfl | hitem
    . rw [hitemRun, hleft, Option.some.injEq] at hrun
      exact absurd hrun hne
    . exact ⟨item, hitem, hitemRun⟩

end Take

/-- What is left of the runs is part of all records. -/
theorem mem_of_rest (h : Merging all filled output heap rests) {run : Nat} {rest : List α}
    (hrun : rests[run]? = some rest) {a : α} (ha : a ∈ rest)
    : a ∈ all := by
  apply h.perm.mem_iff.mp
  apply List.mem_append_right
  exact List.mem_flatten.mpr ⟨rest, List.mem_of_getElem? hrun, ha⟩

theorem length_eq (h : Merging all filled output heap rests)
    : output.length + heap.length + rests.flatten.length = all.length := by
  have hperm := h.perm.length_eq
  rwa [List.length_append, List.length_append, List.length_map] at hperm

/-- When the heap is empty, the output is everything in order. -/
theorem finish (h : Merging all rests.length output [] rests) : output = KWayMerge.sorted all := by
  have hrests : rests.flatten = [] := by
    rw [List.flatten_eq_nil_iff]
    intro rest hmem
    by_contra hne
    obtain ⟨run, hlt, hrest⟩ := List.getElem_of_mem hmem
    obtain ⟨item, hitem, -⟩ := h.covered run hlt rest
      (by rw [List.getElem?_eq_getElem hlt, hrest]) hne
    contradiction
  have hperm := h.perm
  rw [hrests, List.map_nil, List.append_nil, List.append_nil] at hperm
  exact eq_sorted hperm h.sorted

end Merging

end KWayMerge
