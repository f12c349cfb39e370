import Mdict.Lib.Effect
import Mathlib.Data.List.Infix

/-!
This module contains rules for programs whose state keeps a record of what they did, most recent
first: which entries they add to it, each judged by what was on record before.
-/

namespace Effect

variable {ω σ ε τ α β : Type}

/-- The second record is the first with more entries, each of which was allowed at its time. -/
inductive Extends (ok : List τ → τ → Prop) (base : List τ) : List τ → Prop where
  | refl : Extends ok base base
  | entry {record : List τ} {e : τ} (h : Extends ok base record) (he : ok record e)
      : Extends ok base (e :: record)

/-- Wherever it runs, the program adds allowed entries only. -/
def Traced (trace : σ → List τ) (ok : List τ → τ → Prop) (x : Prog ω σ ε α) : Prop :=
  ∀ w s, Extends ok (trace s) (trace (x w s).2)

variable {ok ok' : List τ → τ → Prop} {base middle record : List τ}

namespace Extends

theorem trans (h : Extends ok base middle) (h' : Extends ok middle record)
    : Extends ok base record := by
  induction h' with
  | refl => exact h
  | entry _ he ih => exact ih.entry he

theorem suffix (h : Extends ok base record) : base <:+ record := by
  induction h with
  | refl => exact List.suffix_refl _
  | entry _ _ ih => exact ih.trans (List.suffix_cons _ _)

/-- Every entry on top of the base was allowed. -/
theorem allowed (h : Extends ok base record) {later earlier : List τ} {e : τ}
    (heq : record = later ++ e :: (earlier ++ base))
    : ok (earlier ++ base) e := by
  induction h generalizing later with
  | refl =>
    have hlen := congrArg List.length heq
    simp only [List.length_append, List.length_cons] at hlen
    omega
  | @entry record e' h he ih =>
    cases later with
    | nil =>
      rw [List.nil_append, List.cons.injEq] at heq
      rw [← heq.1, ← heq.2]
      exact he
    | cons a later =>
      rw [List.cons_append, List.cons.injEq] at heq
      exact ih heq.2

/-- What has been added, when the past does not matter to what is allowed. -/
theorem entries {P : τ → Prop} (h : Extends (fun _ e => P e) base record)
    : ∃ added, record = added ++ base ∧ ∀ e ∈ added, P e := by
  induction h with
  | refl => exact ⟨[], rfl, by simp⟩
  | @entry record e h he ih =>
    obtain ⟨added, rfl, hadded⟩ := ih
    refine ⟨e :: added, rfl, ?_⟩
    intro a ha
    rw [List.mem_cons] at ha
    rcases ha with rfl | ha
    . exact he
    . exact hadded a ha

theorem mono (h : Extends ok base record) (hok : ∀ record e, ok record e → ok' record e)
    : Extends ok' base record := by
  induction h with
  | refl => exact .refl
  | entry _ he ih => exact ih.entry (hok _ _ he)

end Extends

namespace Traced

variable {trace : σ → List τ} {x : Prog ω σ ε α} {f : α → Prog ω σ ε β}

theorem pure {a : α} : Traced trace ok (Pure.pure a : Prog ω σ ε α) :=
  fun _ _ => .refl

theorem fail {e : ε} : Traced trace ok (Prog.fail e : Prog ω σ ε α) :=
  fun _ _ => .refl

theorem ask : Traced trace ok (Prog.ask : Prog ω σ ε ω) :=
  fun _ _ => .refl

theorem get : Traced trace ok (Prog.get : Prog ω σ ε σ) :=
  fun _ _ => .refl

theorem liftM {r : Except ε α} : Traced trace ok (liftM r : Prog ω σ ε α) :=
  fun _ _ => .refl

/-- A change of the state that the record does not show. -/
theorem modify {f : σ → σ} (h : ∀ s, trace (f s) = trace s)
    : Traced trace ok (Prog.modify f : Prog ω σ ε Unit) := by
  intro w s
  rw [Prog.modify_apply, h]
  exact .refl

/-- In a sequence the second part may rely on what the first has returned. -/
theorem bind_of (hx : Traced trace ok x)
    (hf : ∀ a, (∃ w s s', x w s = (.ok a, s')) → Traced trace ok (f a))
    : Traced trace ok (x >>= f) := by
  intro w s
  cases hrun : x w s with
  | mk r s' =>
    have hfirst := hx w s
    rw [hrun] at hfirst
    cases r with
    | error e =>
      rw [Prog.bind_of_error hrun]
      exact hfirst
    | ok a =>
      rw [Prog.bind_of_ok hrun]
      exact hfirst.trans (hf a ⟨w, s, s', hrun⟩ w s')

theorem bind (hx : Traced trace ok x) (hf : ∀ a, Traced trace ok (f a))
    : Traced trace ok (x >>= f) :=
  hx.bind_of fun a _ => hf a

theorem liftM_bind {r : Except ε α} (hf : ∀ a, r = .ok a → Traced trace ok (f a))
    : Traced trace ok ((MonadLiftT.monadLift r : Prog ω σ ε α) >>= f) := by
  apply liftM.bind_of
  rintro a ⟨w, s, s', hrun⟩
  exact hf a (liftM_eq_ok.mp hrun).1

/-- The attempt of a program. -/
theorem attempt (hx : Traced trace ok x) : Traced trace ok (Prog.attempt x) :=
  fun w s => hx w s

theorem ite {c : Prop} [Decidable c] {x y : Prog ω σ ε α} (hx : c → Traced trace ok x)
    (hy : ¬c → Traced trace ok y)
    : Traced trace ok (if c then x else y) := by
  split
  . next h => exact hx h
  . next h => exact hy h

/-- A loop over a list. -/
theorem forM {xs : List β} {f : β → Prog ω σ ε PUnit} (h : ∀ b ∈ xs, Traced trace ok (f b))
    : Traced trace ok (xs.forM f) := by
  induction xs with
  | nil => exact pure
  | cons b xs ih =>
    have hrest := ih fun b hb => h b (List.mem_cons_of_mem _ hb)
    exact bind (h b List.mem_cons_self) fun _ => hrest

theorem mono (hx : Traced trace ok x) (hok : ∀ record e, ok record e → ok' record e)
    : Traced trace ok' x :=
  fun w s => (hx w s).mono hok

end Traced

end Effect
