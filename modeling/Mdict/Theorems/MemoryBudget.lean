import Mdict.Lemmas.MemoryBudget

/-!
This module contains the main result on the memory budget: its ledger is exact in every interleaving.
-/

namespace Mdict

open MemoryBudget

/--
Whatever any number of holders do with one budget and in whatever order their atomic steps come, what
is used is the bytes of the live reservations and of the claims that have been exchanged but not yet
recorded. It is within the maximum, and no drop takes more from it than it is. A call that fails has
changed neither the budget nor the reservation by any of its steps. When nobody has anything left,
nothing is used, and no report has a peak below its current bytes.
-/
theorem used_exact (max holders : Nat) {x : MemoryBudget.State} (h : Run (initial max holders) x)
    : x.shared.used = (x.states.map Holder.live).sum + (x.states.map Holder.pending).sum
      ∧ x.shared.used ≤ max
      ∧ (∀ holder ∈ x.states, holder.live ≤ x.shared.used)
      ∧ (∀ party ∈ x.parties, (∃ move ∈ party.call, move.state'.hasFailed = true) →
        ∀ move ∈ party.call, move.shared' = move.shared ∧ move.state.live = party.state.live
          ∧ move.state'.live = party.state.live)
      ∧ ((∀ holder ∈ x.states, holder.live = 0 ∧ holder.pending = 0) → x.shared.used = 0)
      ∧ ∀ currentBytes peakBytes, Holder.reported currentBytes peakBytes ∈ x.states →
        currentBytes ≤ peakBytes := by
  obtain ⟨htotal, hmax⟩ := run_exact h
  have hused : x.shared.used
      = (x.states.map Holder.live).sum + (x.states.map Holder.pending).sum := by
    rw [htotal, ← List.sum_map_add]
    rfl
  refine ⟨hused, run_max h ▸ hmax, ?_, ?_, ?_, ?_⟩
  . intro holder hholder
    obtain ⟨before, after, hstates⟩ := List.append_of_mem hholder
    rw [hused, hstates, List.map_append, List.map_cons, List.sum_append, List.sum_cons]
    omega
  . intro party hparty ⟨failing, hmem, hfailed⟩ move hmove
    have hunaffected := (run_callSound h party hparty).failed failing hmem hfailed move hmove
    exact ⟨hunaffected.budget, hunaffected.before, hunaffected.after⟩
  . intro hnothing
    rw [htotal]
    apply List.sum_eq_zero
    intro taken htaken
    obtain ⟨holder, hholder, rfl⟩ := List.mem_map.mp htaken
    obtain ⟨hlive, hpending⟩ := hnothing holder hholder
    rw [Holder.taken, hlive, hpending, Nat.add_zero]
  . intro currentBytes peakBytes hreported
    obtain ⟨party, hparty, hstate⟩ := List.mem_map.mp hreported
    have hsound := run_reportSound h party hparty
    rw [hstate] at hsound
    exact hsound

/-- Two holders claim six bytes at once, and the second one loses the exchange. -/
def MemoryBudget.contention : List (Nat × Holder.Act) :=
  [(0, .reserve 6), (1, .reserve 6), (0, .proceed false), (1, .proceed false), (0, .proceed false),
    (1, .proceed false), (1, .proceed false)]

theorem used_exact_sample
    : ∃ x, schedule (initial 10 2) contention = some x
        ∧ x.states = [.reserving 6 (.exchanged 6),
          .reserving 6 (.failed (.limitExceeded "working_memory_bytes" 12 10))]
        ∧ x.shared.used = (x.states.map Holder.live).sum + (x.states.map Holder.pending).sum := by
  have hexact {x : MemoryBudget.State} (h : schedule (initial 10 2) contention = some x) :=
    (used_exact 10 2 (run_of_schedule h)).1
  exact ⟨_, rfl, rfl, hexact rfl⟩

end Mdict
