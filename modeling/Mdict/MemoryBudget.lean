import Mdict.Error
import Mdict.Lib.Interleaving

/-!
This module contains the memory budget of one open dictionary: the atomic steps of a claim, of the
reservations that hold what was claimed and of a report, by any number of holders at once.
-/

namespace Mdict

/--
Aggregate accounting for memory retained or transiently used by one open dictionary: a maximum and
two atomic counters.
-/
structure MemoryBudget where
  max : Nat
  used : Nat
  peak : Nat
  deriving DecidableEq, Repr

/-- Where `MemoryBudget::claim` is. -/
inductive Claim where
  /-- before the first load -/
  | load
  /-- before the checks and the exchange, with what was observed last -/
  | compare (current : Nat)
  /-- after the exchange, before the peak is raised -/
  | exchanged (next : Nat)
  | claimed
  | failed (error : Error)
  deriving DecidableEq, Repr

namespace MemoryBudget

def new (max : Nat) : MemoryBudget := { max, used := 0, peak := 0 }

/--
The next atomic step of a claim on so many bytes. `spurious` says whether `compare_exchange_weak`
fails although it need not.
-/
def claim (budget : MemoryBudget) (bytes : Nat) (spurious : Bool) : Claim → MemoryBudget × Claim
  | .load => (budget, .compare budget.used)
  | .compare current =>
    match checkedAdd current bytes with
    | none => (budget, .failed (.limitExceeded "working_memory_bytes" u64Max budget.max))
    | some next =>
      if next > budget.max then
        (budget, .failed (.limitExceeded "working_memory_bytes" next budget.max))
      else if budget.used = current ∧ spurious = false then
        ({ budget with used := next }, .exchanged next)
      else
        (budget, .compare budget.used)
  | .exchanged next => ({ budget with peak := Nat.max budget.peak next }, .claimed)
  | .claimed => (budget, .claimed)
  | .failed error => (budget, .failed error)

/-- `fetch_sub`, which wraps around. -/
def release (budget : MemoryBudget) (bytes : Nat) : MemoryBudget :=
  { budget with
    used := if bytes ≤ budget.used then budget.used - bytes else budget.used + u64Bound - bytes }

end MemoryBudget

/--
A place for one reservation: whether there is a `MemoryReservation`, and what is being done there.
-/
inductive Holder where
  | idle
  /-- `MemoryBudget::reserve` -/
  | reserving (bytes : Nat) (claim : Claim)
  | holding (bytes : Nat)
  /-- `MemoryReservation::grow`, which borrows the reservation -/
  | growing (bytes additional : Nat) (claim : Claim)
  /-- `memory_usage` after its load of what is used, before the load of the peak -/
  | measuring (currentBytes : Nat)
  /-- the bytes that `memory_usage` has reported -/
  | reported (currentBytes peakBytes : Nat)
  deriving DecidableEq, Repr

/-- What a holder may be made to do next. -/
inductive Holder.Act where
  | reserve (bytes : Nat)
  | grow (additional : Nat)
  | drop
  | memoryUsage
  /-- the next atomic step of the call it is in -/
  | proceed (spurious : Bool)
  deriving DecidableEq, Repr

namespace Holder

/-- Whether no call is going on. -/
def atRest : Holder → Bool
  | idle => true
  | holding _ => true
  | reported .. => true
  | _ => false

/-- The next atomic step of a holder. -/
def step (budget : MemoryBudget) : (act : Act) → Holder → Option (MemoryBudget × Holder)
  | .reserve bytes, idle => some (budget, reserving bytes .load)
  | .proceed _, reserving bytes .claimed => some (budget, holding bytes)
  | .proceed _, reserving _ (.failed _) => some (budget, idle)
  | .proceed spurious, reserving bytes claim =>
    let (budget, claim) := budget.claim bytes spurious claim
    some (budget, reserving bytes claim)
  | .grow additional, holding bytes =>
    match checkedAdd bytes additional with
    | none =>
      let error := .invalidFormat "memory reservation size overflow"
      some (budget, growing bytes additional (.failed error))
    | some _ => some (budget, growing bytes additional .load)
  | .proceed _, growing bytes additional .claimed => some (budget, holding (bytes + additional))
  | .proceed _, growing bytes _ (.failed _) => some (budget, holding bytes)
  | .proceed spurious, growing bytes additional claim =>
    let (budget, claim) := budget.claim additional spurious claim
    some (budget, growing bytes additional claim)
  | .drop, holding bytes => some (budget.release bytes, idle)
  | .memoryUsage, idle => some (budget, measuring budget.used)
  | .proceed _, measuring currentBytes =>
    some (budget, reported currentBytes (Nat.max budget.peak currentBytes))
  | .proceed _, reported .. => some (budget, idle)
  | _, _ => none

/-- An atomic step of a holder, whatever it is made to do. -/
def Steps (budget : MemoryBudget) (holder : Holder) (budget' : MemoryBudget) (holder' : Holder)
    : Prop :=
  ∃ act, holder.step budget act = some (budget', holder')

end Holder

namespace MemoryBudget

/-- The holders of reservations on one budget, with the budget. -/
abbrev State := Interleaving.State MemoryBudget Holder

/-- Any number of holders before any of them has reserved anything. -/
def initial (max holders : Nat) : State :=
  .initial (new max) (List.replicate holders .idle)

/-- Any interleaving of atomic steps. -/
abbrev Run : State → State → Prop := Interleaving.Run Holder.atRest Holder.Steps

/-- The run in which the holders at these positions do this, if they can. -/
def schedule (x : State) : (acts : List (Nat × Holder.Act)) → Option State
  | [] => some x
  | (i, act) :: acts => do
    let party ← x.parties[i]?
    let (budget, holder) ← party.state.step x.shared act
    let parties := x.parties.set i (party.moved Holder.atRest x.shared budget holder)
    schedule { shared := budget, parties } acts

end MemoryBudget

end Mdict
