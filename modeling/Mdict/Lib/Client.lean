import Mdict.Lib.Effect

/-!
This module contains clients of a system with a hidden state: programs that put questions to the
system and decide from the answers what to ask next. A system that refines a model cannot be told
from it.
-/

namespace Effect

/--
A program that puts questions, each of them with a type of answers, and goes on from the answers,
which may be failures.
-/
inductive Client (Q : Type → Type 1) (ε γ : Type) : Type 1 where
  | done (c : γ) : Client Q ε γ
  | ask {α : Type} (question : Q α) (next : Except ε α → Client Q ε γ) : Client Q ε γ

/-- A system answers each question by a program, and a model by a function on its own states. -/
abbrev System (Q : Type → Type 1) (ω σ ε : Type) := (α : Type) → Q α → Prog ω σ ε α

abbrev Model (Q : Type → Type 1) (τ ε : Type) := (α : Type) → Q α → τ → Except ε α × τ

namespace Client

variable {Q : Type → Type 1} {ω σ σ' τ ε γ : Type}

/-- The client with a system to answer it. -/
def run (system : System Q ω σ ε) : (client : Client Q ε γ) → Prog ω σ ε γ
  | done c => pure c
  | ask question next => do
    let answer ← Prog.attempt (system _ question)
    run system (next answer)

/-- The client with a model to answer it. -/
def eval (model : Model Q τ ε) : (client : Client Q ε γ) → (t : τ) → γ × τ
  | done c, t => (c, t)
  | ask question next, t =>
    let (answer, t) := model _ question t
    eval model (next answer) t

/-- The questions that come up when a model answers them satisfy `P`. -/
def Asks (P : (α : Type) → Q α → Prop) (model : Model Q τ ε)
    : (client : Client Q ε γ) → (t : τ) → Prop
  | done _, _ => True
  | ask question next, t =>
    P _ question ∧ Asks P model (next (model _ question t).1) (model _ question t).2

/-- The system answers the questions `P` as the model does, and their states stay related by `R`. -/
def Refines (w : ω) (R : σ → τ → Prop) (P : (α : Type) → Q α → Prop) (system : System Q ω σ ε)
    (model : Model Q τ ε) : Prop :=
  ∀ (α : Type) (question : Q α) (s : σ) (t : τ), P α question → R s t →
    (system α question w s).1 = (model α question t).1
      ∧ R (system α question w s).2 (model α question t).2

variable {w : ω} {R : σ → τ → Prop} {P : (α : Type) → Q α → Prop}
variable {system : System Q ω σ ε} {model : Model Q τ ε}

/-- No client can tell a system from the model that it refines. -/
theorem run_eq (h : Refines w R P system model) {client : Client Q ε γ} {s : σ} {t : τ}
    (hasks : client.Asks P model t) (hR : R s t)
    : ∃ s', client.run system w s = (.ok (client.eval model t).1, s')
        ∧ R s' (client.eval model t).2 := by
  induction client generalizing s t with
  | done c => exact ⟨s, rfl, hR⟩
  | ask question next ih =>
    obtain ⟨hanswer, hR'⟩ := h _ question s t hasks.1 hR
    obtain ⟨s', hrun, hs'⟩ := ih _ hasks.2 hR'
    refine ⟨s', ?_, hs'⟩
    rw [run, Prog.attempt_bind_apply, hanswer]
    exact hrun

end Client

end Effect
