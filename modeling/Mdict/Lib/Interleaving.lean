import Mathlib.Algebra.BigOperators.Group.List.Basic
import Mathlib.Algebra.GroupWithZero.Nat
import Mathlib.Logic.Relation

/-!
This module contains runs of any number of parties that take atomic steps on something shared, in
any order, and rules for what holds in every state of such a run. Next to its state each party has a
record of the moves of the call it is in, or was in last, where a call goes from rest to rest.
-/

namespace Interleaving

/-- One step of a party: what is shared and the state of the party, before and after. -/
structure Move (σ α : Type) where
  shared : σ
  state : α
  shared' : σ
  state' : α

/-- A party with the moves of its call, the first one first. -/
structure Party (σ α : Type) where
  state : α
  call : List (Move σ α)

structure State (σ α : Type) where
  shared : σ
  parties : List (Party σ α)

variable {σ α : Type}

/-- The parties before they have done anything. -/
def State.initial (shared : σ) (states : List α) : State σ α where
  shared
  parties := states.map fun state => { state, call := [] }

theorem State.mem_initial {shared : σ} {states : List α} {party : Party σ α}
    (h : party ∈ (State.initial shared states).parties)
    : party.state ∈ states ∧ party.call = [] := by
  obtain ⟨state, hstate, rfl⟩ := List.mem_map.mp h
  exact ⟨hstate, rfl⟩

/-- The states of the parties. -/
def State.states (x : State σ α) : List α := x.parties.map Party.state

/-- The party after a move. A move from rest begins a new call. -/
def Party.moved (atRest : α → Bool) (party : Party σ α) (shared shared' : σ) (state' : α)
    : Party σ α where
  state := state'
  call := (if atRest party.state then [] else party.call)
    ++ [{ shared, state := party.state, shared', state' }]

/-- One of the parties takes a step, and all others stay as they are. -/
inductive Step (atRest : α → Bool) (step : σ → α → σ → α → Prop)
    : State σ α → State σ α → Prop where
  | party {shared shared' : σ} {before after : List (Party σ α)} {party : Party σ α} {state' : α}
      (h : step shared party.state shared' state')
      : Step atRest step { shared, parties := before ++ party :: after }
        { shared := shared', parties := before ++ party.moved atRest shared shared' state' :: after }

/-- A run. -/
abbrev Run (atRest : α → Bool) (step : σ → α → σ → α → Prop) : State σ α → State σ α → Prop :=
  Relation.ReflTransGen (Step atRest step)

variable {atRest : α → Bool} {step : σ → α → σ → α → Prop} {x y : State σ α}

/--
What is said about the shared part and the total of a quantity of the parties holds in every state
of a run, if it is kept when one party moves and the `rest` of the total is whatever it is.
-/
theorem Run.total {quantity : α → Nat} {P : σ → Nat → Prop} (h : Run atRest step x y)
    (hstep : ∀ shared state shared' state' rest, step shared state shared' state' →
      P shared (quantity state + rest) → P shared' (quantity state' + rest))
    (hx : P x.shared (x.states.map quantity).sum)
    : P y.shared (y.states.map quantity).sum := by
  induction h with
  | refl => exact hx
  | tail _ hlast ih =>
    cases hlast with
    | @party shared shared' before after party state' h =>
      obtain ⟨rest, hsum⟩ : ∃ rest, ∀ p : Party σ α,
          ((before ++ p :: after).map fun p => quantity p.state).sum
            = quantity p.state + rest := by
        refine ⟨((before ++ after).map fun p => quantity p.state).sum, fun p => ?_⟩
        simp only [List.map_append, List.map_cons, List.sum_append, List.sum_cons]
        omega
      simp only [State.states, List.map_map, Function.comp_def, hsum] at ih ⊢
      exact hstep _ _ _ _ rest h ih

/-- What is said about one party holds of all in every state of a run, if a move keeps it. -/
theorem Run.parties {Q : Party σ α → Prop} (h : Run atRest step x y)
    (hstep : ∀ party shared shared' state', step shared party.state shared' state' →
      Q party → Q (party.moved atRest shared shared' state'))
    (hx : ∀ party ∈ x.parties, Q party)
    : ∀ party ∈ y.parties, Q party := by
  induction h with
  | refl => exact hx
  | tail _ hlast ih =>
    cases hlast with
    | @party shared shared' before after moving state' h =>
      intro party hparty
      simp only [List.mem_append, List.mem_cons] at hparty ih
      rcases hparty with hbefore | rfl | hafter
      . exact ih party (.inl hbefore)
      . exact hstep moving _ _ _ h (ih moving (.inr (.inl rfl)))
      . exact ih party (.inr (.inr hafter))

/-- What no step changes stays as it is. -/
theorem Run.constant {γ : Type} {f : σ → γ} (h : Run atRest step x y)
    (hstep : ∀ shared state shared' state', step shared state shared' state' →
      f shared' = f shared)
    : f y.shared = f x.shared := by
  induction h with
  | refl => rfl
  | tail _ hlast ih =>
    cases hlast with
    | party h => exact (hstep _ _ _ _ h).trans ih

end Interleaving
