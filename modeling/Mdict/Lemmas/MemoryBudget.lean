import Mdict.MemoryBudget

/-!
This module contains the ledger of the memory budget: what holders have taken of it, how one atomic
step changes that, and what a call that fails leaves behind.
-/

namespace Mdict

open Interleaving

variable {budget budget' : MemoryBudget} {bytes : Nat} {spurious : Bool}

/-! ## Claims -/

/-- Whether the exchange has succeeded. -/
def Claim.hasExchanged : Claim → Bool
  | exchanged _ => true
  | claimed => true
  | _ => false

/-- What a claim on so many bytes has taken of the budget and nobody has recorded yet. -/
def Claim.pending (bytes : Nat) (claim : Claim) : Nat := if claim.hasExchanged then bytes else 0

/-- Either nothing happens to the budget, or the exchange succeeds, or the peak is raised. -/
theorem MemoryBudget.claim_cases (claim : Claim)
    : (∃ claim', budget.claim bytes spurious claim = (budget, claim')
        ∧ claim'.hasExchanged = claim.hasExchanged)
      ∨ (∃ next, budget.claim bytes spurious claim = ({ budget with used := next }, .exchanged next)
        ∧ claim.hasExchanged = false ∧ next = budget.used + bytes ∧ next ≤ budget.max)
      ∨ ∃ peak, budget.claim bytes spurious claim = ({ budget with peak }, .claimed)
        ∧ claim.hasExchanged = true := by
  cases claim with
  | load => exact .inl ⟨_, rfl, rfl⟩
  | compare current =>
    unfold MemoryBudget.claim
    dsimp only
    cases hnext : checkedAdd current bytes with
    | none => exact .inl ⟨_, rfl, rfl⟩
    | some next =>
      obtain ⟨rfl, -⟩ := checkedAdd_eq_some.mp hnext
      dsimp only
      split
      . exact .inl ⟨_, rfl, rfl⟩
      . next hle =>
        split
        . next hexchange =>
          refine .inr (.inl ⟨_, rfl, rfl, ?_, by omega⟩)
          rw [hexchange.1]
        . exact .inl ⟨_, rfl, rfl⟩
  | exchanged next => exact .inr (.inr ⟨_, rfl, rfl⟩)
  | claimed => exact .inl ⟨_, rfl, rfl⟩
  | failed error => exact .inl ⟨_, rfl, rfl⟩

/-! ## Holders -/

namespace Holder

/-- The bytes of the live reservation. -/
def live : Holder → Nat
  | holding bytes => bytes
  | growing bytes _ _ => bytes
  | _ => 0

/-- The bytes of a claim that has been exchanged but not yet recorded. -/
def pending : Holder → Nat
  | reserving bytes claim => claim.pending bytes
  | growing _ additional claim => claim.pending additional
  | _ => 0

/-- Whether a call that claims is going on and has not taken anything of the budget yet. -/
def unclaimed : Holder → Bool
  | reserving _ claim => !claim.hasExchanged
  | growing _ _ claim => !claim.hasExchanged
  | _ => false

/-- Whether the call that is going on returns an error next. -/
def hasFailed : Holder → Bool
  | reserving _ (.failed _) => true
  | growing _ _ (.failed _) => true
  | _ => false

variable {holder holder' : Holder}

theorem unclaimed_of_hasFailed (h : holder.hasFailed = true) : holder.unclaimed = true := by
  cases holder with
  | reserving bytes claim => cases claim <;> first | rfl | contradiction
  | growing bytes additional claim => cases claim <;> first | rfl | contradiction
  | _ => contradiction

/-- What one atomic step can do. -/
inductive Moved (budget : MemoryBudget) (holder : Holder) : MemoryBudget → Holder → Prop where
  /-- Nothing happens to the budget and to what the holder has of it. -/
  | quiet {holder' : Holder} (hlive : holder'.live = holder.live)
      (hpending : holder'.pending = holder.pending)
      (hunclaimed : holder'.unclaimed = true → holder.atRest = true ∨ holder.unclaimed = true)
      (hfailed : holder.hasFailed = true → holder'.atRest = true)
      : Moved budget holder budget holder'
  /-- The exchange succeeds. -/
  | claimed {holder' : Holder} (bytes : Nat) (hmax : budget.used + bytes ≤ budget.max)
      (hlive : holder'.live = holder.live) (hpending : holder'.pending = holder.pending + bytes)
      (hfailed : holder.hasFailed = false) (hunclaimed : holder'.unclaimed = false)
      : Moved budget holder { budget with used := budget.used + bytes } holder'
  /-- The peak is raised, or what was claimed becomes part of the reservation. -/
  | recorded {holder' : Holder} (peak : Nat)
      (htaken : holder'.live + holder'.pending = holder.live + holder.pending)
      (hfailed : holder.hasFailed = false) (hunclaimed : holder'.unclaimed = false)
      : Moved budget holder { budget with peak } holder'
  /-- The reservation is dropped. -/
  | dropped (bytes : Nat) (h : holder = holding bytes)
      : Moved budget holder (budget.release bytes) idle

/-- A step of the claim that a call is in. -/
theorem moved_of_claim {call : Claim → Holder} {claim : Claim}
    (hlive : ∀ claim', (call claim').live = (call claim).live)
    (hpending : ∀ claim, (call claim).pending = claim.pending bytes)
    (hunclaimed : ∀ claim, (call claim).unclaimed = !claim.hasExchanged)
    (hfailed : (call claim).hasFailed = false)
    : Moved budget (call claim) (budget.claim bytes spurious claim).1
        (call (budget.claim bytes spurious claim).2) := by
  rcases budget.claim_cases claim with ⟨claim', hclaim, hsame⟩ | ⟨next, hclaim, hbefore, rfl, hmax⟩
    | ⟨peak, hclaim, hbefore⟩
  . rw [hclaim]
    refine .quiet (hlive _) ?_ ?_ ?_
    . rw [hpending, hpending, Claim.pending, hsame]
      rfl
    . intro h
      rw [hunclaimed, hsame, ← hunclaimed] at h
      exact .inr h
    . intro h
      rw [hfailed] at h
      contradiction
  . rw [hclaim]
    refine .claimed bytes hmax (hlive _) ?_ hfailed (hunclaimed _)
    rw [hpending, hpending, Claim.pending, Claim.pending, hbefore]
    exact (Nat.zero_add bytes).symm
  . rw [hclaim]
    refine .recorded peak ?_ hfailed (hunclaimed _)
    rw [hlive, hpending, hpending, Claim.pending, Claim.pending, hbefore]
    rfl

theorem moved_of_step {act : Act} (h : holder.step budget act = some (budget', holder'))
    : Moved budget holder budget' holder' := by
  cases holder with
  | idle =>
    cases act with
    | reserve bytes =>
      cases h
      exact .quiet rfl rfl (fun _ => .inl rfl) (fun h => h)
    | memoryUsage =>
      cases h
      exact .quiet rfl rfl (fun _ => .inl rfl) (fun h => h)
    | _ => contradiction
  | reserving bytes claim =>
    cases act with
    | proceed spurious =>
      have hclaim (hfailed : (reserving bytes claim).hasFailed = false) :=
        @moved_of_claim budget bytes spurious (reserving bytes) claim (fun _ => rfl) (fun _ => rfl)
          (fun _ => rfl) hfailed
      cases claim with
      | claimed =>
        cases h
        exact .recorded budget.peak (Nat.add_comm bytes 0) rfl rfl
      | failed error =>
        cases h
        exact .quiet rfl rfl (fun h => absurd h Bool.false_ne_true) (fun _ => rfl)
      | _ =>
        cases h
        exact hclaim rfl
    | _ => contradiction
  | holding bytes =>
    cases act with
    | grow additional =>
      dsimp only [step] at h
      cases hnext : checkedAdd bytes additional with
      | none =>
        rw [hnext] at h
        cases h
        exact .quiet rfl rfl (fun _ => .inl rfl) (fun h => h)
      | some next =>
        rw [hnext] at h
        cases h
        exact .quiet rfl rfl (fun _ => .inl rfl) (fun h => h)
    | drop =>
      cases h
      exact .dropped bytes rfl
    | _ => contradiction
  | growing bytes additional claim =>
    cases act with
    | proceed spurious =>
      have hclaim (hfailed : (growing bytes additional claim).hasFailed = false) :=
        @moved_of_claim budget additional spurious (growing bytes additional) claim (fun _ => rfl)
          (fun _ => rfl) (fun _ => rfl) hfailed
      cases claim with
      | claimed =>
        cases h
        exact .recorded budget.peak rfl rfl rfl
      | failed error =>
        cases h
        exact .quiet rfl rfl (fun h => absurd h Bool.false_ne_true) (fun _ => rfl)
      | _ =>
        cases h
        exact hclaim rfl
    | _ => contradiction
  | measuring currentBytes =>
    cases act with
    | proceed spurious =>
      cases h
      exact .quiet rfl rfl (fun h => absurd h Bool.false_ne_true) (fun _ => rfl)
    | _ => contradiction
  | reported currentBytes peakBytes =>
    cases act with
    | proceed spurious =>
      cases h
      exact .quiet rfl rfl (fun h => absurd h Bool.false_ne_true) (fun _ => rfl)
    | _ => contradiction

/-! ## One step -/

/-- What a holder has of the budget. -/
def taken (holder : Holder) : Nat := holder.live + holder.pending

theorem Moved.max_eq (h : Moved budget holder budget' holder') : budget'.max = budget.max := by
  cases h <;> rfl

/-- The counter is the total of what all holders have, and within the maximum. -/
def Exact (budget : MemoryBudget) (total : Nat) : Prop :=
  budget.used = total ∧ budget.used ≤ budget.max

/-- One step keeps the ledger exact, whatever the other holders have. -/
theorem Moved.exact (h : Moved budget holder budget' holder') {rest : Nat}
    (hexact : Exact budget (holder.taken + rest))
    : Exact budget' (holder'.taken + rest) := by
  obtain ⟨hused, hmax⟩ := hexact
  unfold taken at *
  cases h with
  | quiet hlive hpending =>
    rw [hlive, hpending]
    exact ⟨hused, hmax⟩
  | claimed bytes hmax' hlive hpending =>
    rw [hlive, hpending]
    exact ⟨by dsimp only; omega, hmax'⟩
  | recorded peak htaken =>
    rw [htaken]
    exact ⟨hused, hmax⟩
  | dropped bytes h =>
    subst h
    have hle : bytes ≤ budget.used := by
      simp only [live, pending] at hused
      omega
    simp only [Exact, MemoryBudget.release, if_pos hle, live, pending] at *
    omega

/-- A move that leaves the budget and the reservation, which has so many bytes, as they are. -/
structure Unaffected (live : Nat) (move : Move MemoryBudget Holder) : Prop where
  budget : move.shared' = move.shared
  before : move.state.live = live
  after : move.state'.live = live

/-- What is known of a holder and its call. -/
structure CallSound (party : Party MemoryBudget Holder) : Prop where
  unclaimed : party.state.unclaimed = true → ∀ move ∈ party.call, Unaffected party.state.live move
  running : party.state.atRest = false → party.state.hasFailed = false →
    ∀ move ∈ party.call, move.state'.hasFailed = false
  failed : ∀ move ∈ party.call, move.state'.hasFailed = true →
    ∀ move ∈ party.call, Unaffected party.state.live move

variable {party : Party MemoryBudget Holder}

theorem mem_moved {move : Move MemoryBudget Holder}
    (h : move ∈ (party.moved atRest budget budget' holder').call)
    : (party.state.atRest = false ∧ move ∈ party.call)
        ∨ move = { shared := budget, state := party.state, shared' := budget', state' := holder' } := by
  rw [Party.moved, List.mem_append, List.mem_singleton] at h
  refine h.imp_left fun h => ?_
  split at h
  . contradiction
  . next hrest => exact ⟨Bool.eq_false_iff.mpr hrest, h⟩

/-- A call that has taken something has not failed and does not fail with this step. -/
theorem CallSound.of_claimed (hsound : CallSound party) (hfailed : party.state.hasFailed = false)
    (hunclaimed : holder'.unclaimed = false)
    : CallSound (party.moved atRest budget budget' holder') := by
  have hnone : ∀ move ∈ (party.moved atRest budget budget' holder').call,
      move.state'.hasFailed = false := by
    intro move hmove
    rcases mem_moved hmove with ⟨hrest, hmove⟩ | rfl
    . exact hsound.running hrest hfailed move hmove
    . rw [Bool.eq_false_iff]
      intro h
      rw [unclaimed_of_hasFailed h] at hunclaimed
      contradiction
  constructor
  . intro h
    exact absurd (hunclaimed.symm.trans h) Bool.false_ne_true
  . exact fun _ _ => hnone
  . intro move hmove h
    exact absurd ((hnone move hmove).symm.trans h) Bool.false_ne_true

/-- Nothing has happened before the exchange, and nothing happens when the call returns its error. -/
theorem CallSound.of_quiet (hsound : CallSound party) (hlive : holder'.live = party.state.live)
    (hunclaimed : holder'.unclaimed = true →
      party.state.atRest = true ∨ party.state.unclaimed = true)
    (hfailed : party.state.hasFailed = true → holder'.atRest = true)
    : CallSound (party.moved atRest budget budget holder') := by
  have hcall (hunclaimed : party.state.atRest = true ∨ party.state.unclaimed = true)
      : ∀ move ∈ (party.moved atRest budget budget holder').call, Unaffected holder'.live move := by
    intro move hmove
    rcases mem_moved hmove with ⟨hrest, hmove⟩ | rfl
    . rw [hlive]
      refine hsound.unclaimed (hunclaimed.resolve_left ?_) move hmove
      rw [hrest]
      exact Bool.false_ne_true
    . exact ⟨rfl, hlive.symm, rfl⟩
  constructor
  . exact fun h => hcall (hunclaimed h)
  . intro hrest' hfailed' move hmove
    rcases mem_moved hmove with ⟨hrest, hmove⟩ | rfl
    . refine hsound.running hrest ?_ move hmove
      rw [Bool.eq_false_iff]
      intro h
      exact absurd (hrest'.symm.trans (hfailed h)) Bool.false_ne_true
    . exact hfailed'
  . intro move hmove h
    rcases mem_moved hmove with ⟨hrest, hmove⟩ | rfl
    . cases hstate : party.state.hasFailed with
      | false =>
        have hnot := hsound.running hrest hstate move hmove
        exact absurd (hnot.symm.trans h) Bool.false_ne_true
      | true => exact hcall (.inr (unclaimed_of_hasFailed hstate))
    . exact hcall (hunclaimed (unclaimed_of_hasFailed h))

theorem Moved.callSound (h : Moved budget party.state budget' holder') (hsound : CallSound party)
    : CallSound (party.moved atRest budget budget' holder') := by
  cases h with
  | quiet hlive hpending hunclaimed hfailed => exact hsound.of_quiet hlive hunclaimed hfailed
  | claimed bytes hmax hlive hpending hfailed hunclaimed => exact hsound.of_claimed hfailed hunclaimed
  | recorded peak htaken hfailed hunclaimed => exact hsound.of_claimed hfailed hunclaimed
  | dropped bytes h =>
    refine hsound.of_claimed ?_ rfl
    rw [h]
    rfl

/-- What is reported of the peak is not below what is reported of the current bytes. -/
def ReportSound : Holder → Prop
  | reported currentBytes peakBytes => currentBytes ≤ peakBytes
  | _ => True

theorem reportSound_of_step {act : Act} (h : holder.step budget act = some (budget', holder'))
    : ReportSound holder' := by
  cases holder with
  | idle => cases act <;> cases h <;> trivial
  | reserving bytes claim =>
    cases act with
    | proceed spurious => cases claim <;> cases h <;> trivial
    | _ => contradiction
  | holding bytes =>
    cases act with
    | grow additional =>
      dsimp only [step] at h
      split at h <;> cases h <;> trivial
    | drop =>
      cases h
      trivial
    | _ => contradiction
  | growing bytes additional claim =>
    cases act with
    | proceed spurious => cases claim <;> cases h <;> trivial
    | _ => contradiction
  | measuring currentBytes =>
    cases act with
    | proceed spurious =>
      cases h
      exact Nat.le_max_right _ _
    | _ => contradiction
  | reported currentBytes peakBytes =>
    cases act with
    | proceed spurious =>
      cases h
      trivial
    | _ => contradiction

end Holder

/-! ## Runs -/

namespace MemoryBudget

variable {max holders : Nat} {x : State}

/-- What is scheduled is a run. -/
theorem run_of_schedule {x y : State} {acts : List (Nat × Holder.Act)}
    (h : schedule x acts = some y)
    : Run x y := by
  induction acts generalizing x with
  | nil =>
    cases h
    exact .refl
  | cons first acts ih =>
    obtain ⟨i, act⟩ := first
    simp only [schedule, Option.bind_eq_bind, Option.bind_eq_some_iff] at h
    obtain ⟨party, hparty, ⟨budget, holder⟩, hstep, h⟩ := h
    obtain ⟨hlt, hget⟩ := List.getElem?_eq_some_iff.mp hparty
    refine .head ?_ (ih h)
    have hstep : party.state.Steps x.shared budget holder := ⟨act, hstep⟩
    have hparties : x.parties = x.parties.take i ++ party :: x.parties.drop (i + 1) := by
      rw [← hget, List.getElem_cons_drop, List.take_append_drop]
    rw [List.set_eq_take_append_cons_drop, if_pos hlt]
    obtain ⟨shared, parties⟩ := x
    dsimp only at hparties hstep ⊢
    nth_rewrite 1 [hparties]
    exact .party hstep

theorem run_max (h : Run (initial max holders) x) : x.shared.max = max :=
  h.constant fun _ _ _ _ ⟨_, hstep⟩ => (Holder.moved_of_step hstep).max_eq

theorem states_initial : (initial max holders).states = List.replicate holders .idle := by
  rw [initial, Interleaving.State.states, Interleaving.State.initial, List.map_map]
  exact List.map_id _

/-- In every state of a run the ledger is exact. -/
theorem run_exact (h : Run (initial max holders) x)
    : Holder.Exact x.shared (x.states.map Holder.taken).sum := by
  refine h.total ?_ ?_
  . intro budget holder budget' holder' rest ⟨act, hstep⟩ hexact
    exact (Holder.moved_of_step hstep).exact hexact
  . rw [states_initial, List.map_replicate, List.sum_replicate]
    exact ⟨(Nat.mul_zero _).symm, Nat.zero_le _⟩

theorem mem_parties_initial {party : Interleaving.Party MemoryBudget Holder}
    (h : party ∈ (initial max holders).parties)
    : party.state = .idle ∧ party.call = [] := by
  obtain ⟨hstate, hcall⟩ := Interleaving.State.mem_initial h
  exact ⟨List.eq_of_mem_replicate hstate, hcall⟩

theorem run_callSound (h : Run (initial max holders) x)
    : ∀ party ∈ x.parties, Holder.CallSound party := by
  refine h.parties ?_ ?_
  . intro party budget budget' holder' ⟨act, hstep⟩ hsound
    exact (Holder.moved_of_step hstep).callSound hsound
  . intro party hparty
    obtain ⟨-, hcall⟩ := mem_parties_initial hparty
    constructor <;> simp [hcall]

theorem run_reportSound (h : Run (initial max holders) x)
    : ∀ party ∈ x.parties, Holder.ReportSound party.state := by
  refine h.parties ?_ ?_
  . intro party budget budget' holder' ⟨act, hstep⟩ _
    exact Holder.reportSound_of_step hstep
  . intro party hparty
    rw [(mem_parties_initial hparty).1]
    trivial

end MemoryBudget

end Mdict
