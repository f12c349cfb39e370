/-!
This module contains a monad for programs that consult an environment `ω`, update a state `σ` and
may fail with an `ε`, together with the rules of a Hoare logic for it. A failure keeps the state
reached so far, as a failing function keeps its effects on shared memory.
-/

namespace Effect

/--
A program that reads an environment, threads a state and yields a value or a failure.
-/
def Prog (ω σ ε α : Type) : Type :=
  ω → σ → Except ε α × σ

variable {ω σ ε α β γ : Type}

namespace Prog

/--
Continue with `k` on a value and stop on a failure.
-/
def andThen (r : Except ε α × σ) (k : α → σ → Except ε β × σ) : Except ε β × σ :=
  match r with
  | (.ok a, s) => k a s
  | (.error e, s) => (.error e, s)

instance : Monad (Prog ω σ ε) where
  pure a := fun _ s => (.ok a, s)
  bind x f := fun w s => andThen (x w s) (fun a s => f a w s)

instance : LawfulMonad (Prog ω σ ε) := by
  refine LawfulMonad.mk' _ ?_ ?_ ?_
  . intro α x
    funext w s
    change andThen (x w s) (fun a s => (.ok a, s)) = x w s
    match x w s with
    | (.ok a, s') => rfl
    | (.error e, s') => rfl
  . intro α β a f
    rfl
  . intro α β γ x f g
    funext w s
    change andThen (andThen (x w s) _) _ = andThen (x w s) _
    match x w s with
    | (.ok a, s') => rfl
    | (.error e, s') => rfl

/-- Fail with `e`. -/
def fail (e : ε) : Prog ω σ ε α := fun _ s => (.error e, s)

/-- Run `x` and return its outcome, be it a value or a failure. -/
def attempt (x : Prog ω σ ε α) : Prog ω σ ε (Except ε α) := fun w s =>
  (.ok (x w s).1, (x w s).2)

/-- The environment. -/
def ask : Prog ω σ ε ω := fun w s => (.ok w, s)

/-- The current state. -/
def get : Prog ω σ ε σ := fun _ s => (.ok s, s)

/-- Update the state. -/
def modify (f : σ → σ) : Prog ω σ ε Unit := fun _ s => (.ok (), f s)

/-- A computation without effects. -/
def lift (x : Except ε α) : Prog ω σ ε α := fun _ s => (x, s)

instance : MonadLift (Except ε) (Prog ω σ ε) where
  monadLift := lift

@[simp]
theorem pure_apply (a : α) (w : ω) (s : σ) : (pure a : Prog ω σ ε α) w s = (.ok a, s) := rfl

@[simp]
theorem fail_apply (e : ε) (w : ω) (s : σ) : (fail e : Prog ω σ ε α) w s = (.error e, s) := rfl

theorem bind_apply (x : Prog ω σ ε α) (f : α → Prog ω σ ε β) (w : ω) (s : σ)
    : (x >>= f) w s = andThen (x w s) (fun a s => f a w s) := rfl

@[simp]
theorem liftM_apply (x : Except ε α) (w : ω) (s : σ)
    : (liftM x : Prog ω σ ε α) w s = (x, s) := rfl

theorem bind_of_ok {x : Prog ω σ ε α} {f : α → Prog ω σ ε β} {w : ω} {s s' : σ} {a : α}
    (h : x w s = (.ok a, s'))
    : (x >>= f) w s = f a w s' := by
  rw [bind_apply, h]
  rfl

theorem bind_of_error {x : Prog ω σ ε α} {f : α → Prog ω σ ε β} {w : ω} {s s' : σ} {e : ε}
    (h : x w s = (.error e, s'))
    : (x >>= f) w s = (.error e, s') := by
  rw [bind_apply, h]
  rfl

@[simp]
theorem ask_apply (w : ω) (s : σ) : (ask : Prog ω σ ε ω) w s = (.ok w, s) := rfl

@[simp]
theorem get_apply (w : ω) (s : σ) : (get : Prog ω σ ε σ) w s = (.ok s, s) := rfl

@[simp]
theorem modify_apply (f : σ → σ) (w : ω) (s : σ)
    : (modify f : Prog ω σ ε Unit) w s = (.ok (), f s) := rfl

@[simp]
theorem attempt_apply (x : Prog ω σ ε α) (w : ω) (s : σ)
    : attempt x w s = (.ok (x w s).1, (x w s).2) := rfl

theorem ok_bind (a : α) (f : α → Prog ω σ ε β)
    : ((liftM (Except.ok a : Except ε α) : Prog ω σ ε α) >>= f) = f a := rfl

@[simp]
theorem ok_bind_apply (a : α) (f : α → Prog ω σ ε β) (w : ω) (s : σ)
    : ((liftM (Except.ok a : Except ε α) : Prog ω σ ε α) >>= f) w s = f a w s := rfl

@[simp]
theorem error_bind_apply (e : ε) (f : α → Prog ω σ ε β) (w : ω) (s : σ)
    : ((liftM (Except.error e : Except ε α) : Prog ω σ ε α) >>= f) w s = (.error e, s) := rfl

@[simp]
theorem get_bind_apply (f : σ → Prog ω σ ε β) (w : ω) (s : σ)
    : ((get : Prog ω σ ε σ) >>= f) w s = f s w s := rfl

@[simp]
theorem modify_bind_apply (f : σ → σ) (g : Unit → Prog ω σ ε β) (w : ω) (s : σ)
    : ((modify f : Prog ω σ ε Unit) >>= g) w s = g () w (f s) := rfl

@[simp]
theorem attempt_bind_apply (x : Prog ω σ ε α) (f : Except ε α → Prog ω σ ε β) (w : ω) (s : σ)
    : (attempt x >>= f) w s = f (x w s).1 w (x w s).2 := rfl

/-- A sequence that yields a value has passed through a value of its first part. -/
theorem bind_eq_ok {x : Prog ω σ ε α} {f : α → Prog ω σ ε β} {w : ω} {s s'' : σ} {b : β}
    : (x >>= f) w s = (.ok b, s'') ↔ ∃ a s', x w s = (.ok a, s') ∧ f a w s' = (.ok b, s'') := by
  match h : x w s with
  | (.ok a, s') =>
    rw [bind_of_ok h]
    constructor
    . intro hf
      exact ⟨a, s', rfl, hf⟩
    . intro hf
      obtain ⟨a', s1, heq, hf⟩ := hf
      cases heq
      exact hf
  | (.error e, s') => simp [bind_of_error h]

end Prog

theorem liftM_eq_ok {x : Except ε α} {w : ω} {s s' : σ} {a : α}
    : (liftM x : Prog ω σ ε α) w s = (.ok a, s') ↔ x = .ok a ∧ s = s' := by
  rw [Prog.liftM_apply, Prod.mk.injEq]

/-- A sequence that yields a value has passed through a value of its first part. -/
theorem except_bind_eq_ok {x : Except ε α} {f : α → Except ε β} {b : β}
    : (x >>= f) = .ok b ↔ ∃ a, x = .ok a ∧ f a = .ok b := by
  cases x <;> simp [bind, Except.bind]

@[simp]
theorem except_ok_bind (a : α) (f : α → Except ε β) : (Except.ok a >>= f) = f a := rfl

@[simp]
theorem except_error_bind (e : ε) (f : α → Except ε β)
    : (Except.error e >>= f) = Except.error e := rfl

theorem except_bind_congr {x : Except ε α} {f g : α → Except ε β}
    (h : ∀ a, x = .ok a → f a = g a)
    : (x >>= f) = (x >>= g) := by
  cases x with
  | error e => rfl
  | ok a => exact h a rfl

theorem except_map_bind {x : Except ε α} {f : α → Except ε β} {g : β → γ}
    : (x >>= f).map g = (x >>= fun a => (f a).map g) := by
  cases x <;> rfl

theorem except_pure_eq_ok {a b : α} : (pure a : Except ε α) = .ok b ↔ a = b := by
  simp [pure, Except.pure]

/-! ## Failures of a computation without effects -/

/-- Every failure of `x` satisfies `E`. -/
def FailsWith (E : ε → Prop) (x : Except ε α) : Prop := ∀ e, x = .error e → E e

namespace FailsWith

variable {E : ε → Prop}

theorem ok (a : α) : FailsWith E (.ok a : Except ε α) := by
  intro e h
  contradiction

theorem pure (a : α) : FailsWith E (Pure.pure a : Except ε α) := ok a

theorem error {e : ε} (h : E e) : FailsWith E (.error e : Except ε α) := by
  intro e' heq
  cases heq
  exact h

theorem bind {x : Except ε α} {f : α → Except ε β} (hx : FailsWith E x)
    (hf : ∀ a, x = .ok a → FailsWith E (f a))
    : FailsWith E (x >>= f) := by
  intro e h
  cases hrun : x with
  | ok a =>
    rw [hrun] at h
    exact hf a hrun e h
  | error e' =>
    rw [hrun] at h
    cases h
    exact hx e hrun

end FailsWith

/-! ## The rules of the logic -/

/--
`Triple w P x Q E`: started in a state with `P`, the program `x` ends with a value and a state
related by `Q`, or with a failure and a state related by `E`.
-/
def Triple (w : ω) (P : σ → Prop) (x : Prog ω σ ε α) (Q : α → σ → Prop) (E : ε → σ → Prop)
    : Prop :=
  ∀ s, P s →
    match x w s with
    | (.ok a, s') => Q a s'
    | (.error e, s') => E e s'

/--
`Ensures w I x Q E`: the program `x` keeps the invariant `I` whatever happens, its value satisfies
`Q` and its failure satisfies `E`.
-/
def Ensures (w : ω) (I : σ → Prop) (x : Prog ω σ ε α) (Q : α → Prop) (E : ε → Prop) : Prop :=
  Triple w I x (fun a s => I s ∧ Q a) (fun e s => I s ∧ E e)

namespace Triple

variable {w : ω} {P P' : σ → Prop} {Q Q' R : α → σ → Prop} {E E' : ε → σ → Prop}
variable {S : β → σ → Prop}

theorem pure {a : α} (h : ∀ s, P s → Q a s)
    : Triple w P (Pure.pure a : Prog ω σ ε α) Q E := by
  intro s hs
  exact h s hs

theorem fail {e : ε} (h : ∀ s, P s → E e s) : Triple w P (Prog.fail e : Prog ω σ ε α) Q E := by
  intro s hs
  exact h s hs

theorem get {Q : σ → σ → Prop} (h : ∀ s, P s → Q s s)
    : Triple w P (Prog.get : Prog ω σ ε σ) Q E := by
  intro s hs
  exact h s hs

theorem modify {f : σ → σ} {Q : Unit → σ → Prop} (h : ∀ s, P s → Q () (f s))
    : Triple w P (Prog.modify f : Prog ω σ ε Unit) Q E := by
  intro s hs
  exact h s hs

theorem liftM {x : Except ε α} (hok : ∀ a, x = .ok a → ∀ s, P s → Q a s)
    (herr : ∀ e, x = .error e → ∀ s, P s → E e s)
    : Triple w P (MonadLiftT.monadLift x : Prog ω σ ε α) Q E := by
  intro s hs
  change match (x, s) with | (.ok a, s') => Q a s' | (.error e, s') => E e s'
  cases hx : x with
  | ok a => exact hok a hx s hs
  | error e => exact herr e hx s hs

theorem bind {x : Prog ω σ ε α} {f : α → Prog ω σ ε β}
    (hx : Triple w P x R E) (hf : ∀ a, Triple w (R a) (f a) S E)
    : Triple w P (x >>= f) S E := by
  intro s hs
  have hx := hx s hs
  match h : x w s with
  | (.ok a, s') =>
    rw [Prog.bind_of_ok h]
    rw [h] at hx
    exact hf a s' hx
  | (.error e, s') =>
    rw [Prog.bind_of_error h]
    rw [h] at hx
    exact hx

theorem mono {x : Prog ω σ ε α} (h : Triple w P x Q E) (hP : ∀ s, P' s → P s)
    (hQ : ∀ a s, Q a s → Q' a s) (hE : ∀ e s, E e s → E' e s)
    : Triple w P' x Q' E' := by
  intro s hs
  have h := h s (hP s hs)
  match hx : x w s with
  | (.ok a, s') =>
    rw [hx] at h
    exact hQ a s' h
  | (.error e, s') =>
    rw [hx] at h
    exact hE e s' h

theorem attempt {x : Prog ω σ ε α} {Q : Except ε α → σ → Prop}
    (h : Triple w P x (fun a => Q (.ok a)) (fun e => Q (.error e)))
    : Triple w P (Prog.attempt x) Q E := by
  intro s hs
  have h := h s hs
  match hx : x w s with
  | (.ok a, s') =>
    rw [hx] at h
    simpa [Prog.attempt, hx] using h
  | (.error e, s') =>
    rw [hx] at h
    simpa [Prog.attempt, hx] using h

end Triple

namespace Ensures

variable {w : ω} {I : σ → Prop} {Q Q' R : α → Prop} {E E' : ε → Prop} {S : β → Prop}

theorem pure {a : α} (h : Q a) : Ensures w I (Pure.pure a : Prog ω σ ε α) Q E :=
  Triple.pure fun _ hs => ⟨hs, h⟩

theorem fail {e : ε} (h : E e) : Ensures w I (Prog.fail e : Prog ω σ ε α) Q E :=
  Triple.fail fun _ hs => ⟨hs, h⟩

theorem ask {Q : ω → Prop} (h : Q w) : Ensures w I (Prog.ask : Prog ω σ ε ω) Q E := by
  intro s hs
  exact ⟨hs, h⟩

theorem get {Q : σ → Prop} (h : ∀ s, I s → Q s) : Ensures w I (Prog.get : Prog ω σ ε σ) Q E :=
  Triple.get fun s hs => ⟨hs, h s hs⟩

theorem modify {f : σ → σ} {Q : Unit → Prop} (hI : ∀ s, I s → I (f s)) (h : Q ())
    : Ensures w I (Prog.modify f : Prog ω σ ε Unit) Q E :=
  Triple.modify fun s hs => ⟨hI s hs, h⟩

theorem liftM {x : Except ε α} (hok : ∀ a, x = .ok a → Q a) (herr : ∀ e, x = .error e → E e)
    : Ensures w I (MonadLiftT.monadLift x : Prog ω σ ε α) Q E :=
  Triple.liftM (fun a h _ hs => ⟨hs, hok a h⟩) (fun e h _ hs => ⟨hs, herr e h⟩)

theorem mono {x : Prog ω σ ε α} (h : Ensures w I x Q E) (hQ : ∀ a, Q a → Q' a)
    (hE : ∀ e, E e → E' e)
    : Ensures w I x Q' E' :=
  Triple.mono h (fun _ hs => hs) (fun a _ h => ⟨h.1, hQ a h.2⟩) (fun e _ h => ⟨h.1, hE e h.2⟩)

theorem bind {x : Prog ω σ ε α} {f : α → Prog ω σ ε β} (hx : Ensures w I x R E)
    (hf : ∀ a, R a → Ensures w I (f a) S E)
    : Ensures w I (x >>= f) S E := by
  apply Triple.bind hx
  intro a s hs
  exact hf a hs.2 s hs.1

theorem map {x : Prog ω σ ε α} {f : α → β} (hx : Ensures w I x (fun a => S (f a)) E)
    : Ensures w I (f <$> x) S E := by
  rw [map_eq_pure_bind]
  exact hx.bind fun _ h => pure h

theorem liftM_bind {x : Except ε α} {f : α → Prog ω σ ε β} (herr : ∀ e, x = .error e → E e)
    (hf : ∀ a, x = .ok a → Ensures w I (f a) S E)
    : Ensures w I (MonadLiftT.monadLift x >>= f) S E :=
  bind (R := fun a => x = .ok a) (liftM (fun _ h => h) herr) hf

theorem get_bind {f : σ → Prog ω σ ε β} (hf : ∀ s, I s → Ensures w I (f s) S E)
    : Ensures w I (Prog.get >>= f) S E :=
  fun s hs => hf s hs s hs

theorem modify_bind {f : σ → σ} {g : Unit → Prog ω σ ε β} (hI : ∀ s, I s → I (f s))
    (hg : Ensures w I (g ()) S E)
    : Ensures w I (Prog.modify f >>= g) S E :=
  fun s hs => hg (f s) (hI s hs)

/-- The rule for loops over a list: `J` relates the accumulator to what has been gone through. -/
theorem foldlM {f : β → α → Prog ω σ ε β} {J : List α → β → Prop} {xs : List α}
    (hf : ∀ seen a rest b, xs = seen ++ a :: rest → J seen b →
      Ensures w I (f b a) (J (seen ++ [a])) E)
    {b : β} (hb : J [] b)
    : Ensures w I (xs.foldlM f b) (J xs) E := by
  have hrest (seen rest : List α) (b : β) (hxs : xs = seen ++ rest) (hb : J seen b)
      : Ensures w I (rest.foldlM f b) (J xs) E := by
    induction rest generalizing seen b with
    | nil =>
      rw [List.append_nil] at hxs
      exact pure (hxs ▸ hb)
    | cons a rest ih =>
      rw [List.foldlM_cons]
      apply bind (hf seen a rest b hxs hb)
      intro b hb
      apply ih (seen ++ [a]) b _ hb
      rw [List.append_assoc, List.singleton_append]
      exact hxs
  exact hrest [] xs b rfl hb

/-- The rule for counting loops. -/
theorem foldlM_range' {f : β → Nat → Prog ω σ ε β} {J : Nat → β → Prop} {first n : Nat}
    (hf : ∀ i b, first ≤ i → i < first + n → J i b → Ensures w I (f b i) (J (i + 1)) E) {b : β}
    (hb : J first b)
    : Ensures w I ((List.range' first n).foldlM f b) (J (first + n)) E := by
  induction n generalizing first b with
  | zero => exact pure hb
  | succ n ih =>
    rw [List.range'_succ, List.foldlM_cons]
    apply bind (hf first b (Nat.le_refl _) (by omega) hb)
    intro b hb
    have hrest := ih (fun i b hi hi' => hf i b (by omega) (by omega)) hb
    rwa [Nat.add_assoc, Nat.add_comm 1] at hrest

theorem foldlM_range {f : β → Nat → Prog ω σ ε β} {J : Nat → β → Prop} {n : Nat}
    (hf : ∀ i b, i < n → J i b → Ensures w I (f b i) (J (i + 1)) E) {b : β} (hb : J 0 b)
    : Ensures w I ((List.range n).foldlM f b) (J n) E := by
  have h := @foldlM_range' _ _ _ _ _ _ _ f _ 0 n (fun i b _ hi => hf i b (by omega)) b hb
  rwa [← List.range_eq_range', Nat.zero_add] at h

theorem attempt {x : Prog ω σ ε α} {Q : Except ε α → Prop} {E' : ε → Prop}
    (h : Ensures w I x (fun a => Q (.ok a)) (fun e => Q (.error e)))
    : Ensures w I (Prog.attempt x) Q E' :=
  Triple.attempt h

theorem attempt_of {x : Prog ω σ ε α} {E' : ε → Prop} (h : Ensures w I x Q E)
    : Ensures w I (Prog.attempt x)
        (fun result => (∀ a, result = .ok a → Q a) ∧ ∀ e, result = .error e → E e) E' := by
  apply attempt
  apply h.mono
  . intro a ha
    exact ⟨fun _ heq => Except.ok.inj heq ▸ ha, fun _ heq => by contradiction⟩
  . intro e he
    exact ⟨fun _ heq => by contradiction, fun _ heq => Except.error.inj heq ▸ he⟩

theorem and {x : Prog ω σ ε α} (h : Ensures w I x Q E) (h' : Ensures w I x Q' E')
    : Ensures w I x (fun a => Q a ∧ Q' a) (fun e => E e ∧ E' e) := by
  intro s hs
  have h := h s hs
  have h' := h' s hs
  match hx : x w s with
  | (.ok a, s') =>
    rw [hx] at h h'
    exact ⟨h.1, h.2, h'.2⟩
  | (.error e, s') =>
    rw [hx] at h h'
    exact ⟨h.1, h.2, h'.2⟩

/-- What a program ensures holds of each of its runs. -/
theorem outcome {x : Prog ω σ ε α} (h : Ensures w I x Q E) {s : σ} (hs : I s)
    : I (x w s).2 ∧ (∀ a, (x w s).1 = .ok a → Q a) ∧ (∀ e, (x w s).1 = .error e → E e) := by
  have h := h s hs
  match hx : x w s with
  | (.ok a, s') =>
    rw [hx] at h
    refine ⟨h.1, ?_, ?_⟩
    . intro b hb
      injection hb with hb
      exact hb ▸ h.2
    . intro e he
      contradiction
  | (.error e, s') =>
    rw [hx] at h
    refine ⟨h.1, ?_, ?_⟩
    . intro b hb
      contradiction
    . intro e' he
      injection he with he
      exact he ▸ h.2

end Ensures

/-- After steps that keep the invariant the rest is on its own. -/
theorem Triple.ensures_bind {w : ω} {I : σ → Prop} {x : Prog ω σ ε α} {f : α → Prog ω σ ε β}
    {R : α → Prop} {S : β → σ → Prop} {E : ε → σ → Prop} {E' : ε → Prop}
    (hx : Ensures w I x R E') (hE : ∀ e s, I s → E' e → E e s)
    (hf : ∀ a, R a → Triple w I (f a) S E)
    : Triple w I (x >>= f) S E := by
  apply bind (Triple.mono hx (fun _ h => h) (fun _ _ h => h) fun e s h => hE e s h.1 h.2)
  intro a s hs
  exact hf a hs.2 s hs.1

/-! ## Invariants -/

/-- The program `x` keeps the invariant `I` whatever happens. -/
def Preserves (w : ω) (I : σ → Prop) (x : Prog ω σ ε α) : Prop := ∀ s, I s → I (x w s).2

namespace Preserves

variable {w : ω} {I J : σ → Prop} {Q : α → Prop} {E : ε → Prop}

theorem of_ensures {x : Prog ω σ ε α} (h : Ensures w I x Q E) : Preserves w I x :=
  fun _ hs => (h.outcome hs).1

theorem ensures {x : Prog ω σ ε α} (h : Preserves w I x)
    : Ensures w I x (fun _ => True) (fun _ => True) := by
  intro s hs
  have h := h s hs
  match hx : x w s with
  | (.ok a, s') =>
    rw [hx] at h
    exact ⟨h, trivial⟩
  | (.error e, s') =>
    rw [hx] at h
    exact ⟨h, trivial⟩

theorem pure {a : α} : Preserves w I (Pure.pure a : Prog ω σ ε α) := fun _ hs => hs

theorem fail {e : ε} : Preserves w I (Prog.fail e : Prog ω σ ε α) := fun _ hs => hs

theorem ask : Preserves w I (Prog.ask : Prog ω σ ε ω) := fun _ hs => hs

theorem get : Preserves w I (Prog.get : Prog ω σ ε σ) := fun _ hs => hs

theorem modify {f : σ → σ} (h : ∀ s, I s → I (f s))
    : Preserves w I (Prog.modify f : Prog ω σ ε Unit) := h

theorem liftM {x : Except ε α} : Preserves w I (MonadLiftT.monadLift x : Prog ω σ ε α) :=
  fun _ hs => hs

theorem attempt {x : Prog ω σ ε α} (h : Preserves w I x) : Preserves w I (Prog.attempt x) := h

theorem bind {x : Prog ω σ ε α} {f : α → Prog ω σ ε β} (hx : Preserves w I x)
    (hf : ∀ a, Preserves w I (f a))
    : Preserves w I (x >>= f) := by
  intro s hs
  have hx := hx s hs
  match h : x w s with
  | (.ok a, s') =>
    rw [Prog.bind_of_ok h]
    rw [h] at hx
    exact hf a s' hx
  | (.error e, s') =>
    rw [Prog.bind_of_error h]
    rw [h] at hx
    exact hx

theorem foldlM {f : β → α → Prog ω σ ε β} (hf : ∀ b a, Preserves w I (f b a)) (xs : List α) (b : β)
    : Preserves w I (xs.foldlM f b) := by
  induction xs generalizing b with
  | nil => exact pure
  | cons x xs ih =>
    rw [List.foldlM_cons]
    exact bind (hf b x) ih

theorem and {x : Prog ω σ ε α} (h : Preserves w I x) (h' : Preserves w J x)
    : Preserves w (fun s => I s ∧ J s) x :=
  fun s hs => ⟨h s hs.1, h' s hs.2⟩

end Preserves

/-! ## Values -/

/-- The program `x` keeps the invariant `I`, and if it ends with a value, this satisfies `Q`. -/
def Gives (w : ω) (I : σ → Prop) (x : Prog ω σ ε α) (Q : α → Prop) : Prop :=
  Ensures w I x Q (fun _ => True)

namespace Gives

variable {w : ω} {I : σ → Prop} {Q Q' R : α → Prop} {S : β → Prop} {E : ε → Prop}

theorem of_ensures {x : Prog ω σ ε α} (h : Ensures w I x Q E) : Gives w I x Q :=
  h.mono (fun _ h => h) (fun _ _ => trivial)

theorem of_preserves {x : Prog ω σ ε α} (h : Preserves w I x) : Gives w I x (fun _ => True) :=
  h.ensures

theorem pure {a : α} (h : Q a) : Gives w I (Pure.pure a : Prog ω σ ε α) Q := Ensures.pure h

theorem fail {e : ε} : Gives w I (Prog.fail e : Prog ω σ ε α) Q := Ensures.fail trivial

theorem mono {x : Prog ω σ ε α} (h : Gives w I x Q) (hQ : ∀ a, Q a → Q' a) : Gives w I x Q' :=
  Ensures.mono h hQ (fun _ h => h)

theorem bind {x : Prog ω σ ε α} {f : α → Prog ω σ ε β} (hx : Gives w I x R)
    (hf : ∀ a, R a → Gives w I (f a) S)
    : Gives w I (x >>= f) S :=
  Ensures.bind hx hf

theorem liftM {x : Except ε α} (h : ∀ a, x = .ok a → Q a)
    : Gives w I (MonadLiftT.monadLift x : Prog ω σ ε α) Q :=
  Ensures.liftM h (fun _ _ => trivial)

theorem liftM_bind {x : Except ε α} {f : α → Prog ω σ ε β}
    (hf : ∀ a, x = .ok a → Gives w I (f a) S)
    : Gives w I (MonadLiftT.monadLift x >>= f) S :=
  Ensures.liftM_bind (fun _ _ => trivial) hf

/-- The rule for loops over a list: `J` relates the accumulator to what has been gone through. -/
theorem foldlM {f : β → α → Prog ω σ ε β} {J : List α → β → Prop} {xs : List α}
    (hf : ∀ seen a rest b, xs = seen ++ a :: rest → J seen b → Gives w I (f b a) (J (seen ++ [a])))
    {b : β} (hb : J [] b)
    : Gives w I (xs.foldlM f b) (J xs) :=
  Ensures.foldlM hf hb

theorem foldlM_range {f : β → Nat → Prog ω σ ε β} {J : Nat → β → Prop} {n : Nat}
    (hf : ∀ i b, i < n → J i b → Gives w I (f b i) (J (i + 1))) {b : β} (hb : J 0 b)
    : Gives w I ((List.range n).foldlM f b) (J n) :=
  Ensures.foldlM_range hf hb

/-- What a program gives holds beside what it ensures. -/
theorem and_ensures {x : Prog ω σ ε α} (h : Gives w I x Q) (h' : Ensures w I x Q' E)
    : Ensures w I x (fun a => Q a ∧ Q' a) E :=
  (Ensures.and h h').mono (fun _ ha => ha) fun _ he => he.2

/-- What a program gives holds of the value of each of its runs. -/
theorem of_run {x : Prog ω σ ε α} (h : Gives w I x Q) {s s' : σ} (hs : I s) {a : α}
    (hrun : x w s = (.ok a, s'))
    : I s' ∧ Q a := by
  have h := h s hs
  rw [hrun] at h
  exact h

end Gives

/-! ## Two programs -/

/-- Two results are the same failure or values that `R` relates. -/
inductive Related (R : α → β → Prop) : Except ε α → Except ε β → Prop where
  | ok {a : α} {b : β} (h : R a b) : Related R (.ok a) (.ok b)
  | error {e : ε} : Related R (.error e) (.error e)

theorem Related.mono {R R' : α → β → Prop} {x : Except ε α} {y : Except ε β} (h : Related R x y)
    (hR : ∀ a b, R a b → R' a b)
    : Related R' x y := by
  cases h with
  | ok h => exact .ok (hR _ _ h)
  | error => exact .error

/--
Under the invariant `I` the programs `x` and `y` leave the same state, and their results are related.
-/
def Alike (w : ω) (I : σ → Prop) (x : Prog ω σ ε α) (y : Prog ω σ ε β) (R : α → β → Prop) : Prop :=
  ∀ s, I s → (x w s).2 = (y w s).2 ∧ Related R (x w s).1 (y w s).1

namespace Alike

variable {δ : Type} {w : ω} {I : σ → Prop} {R R' : α → β → Prop} {S : γ → δ → Prop} {Q : β → Prop}
variable {E : ε → Prop}

theorem refl (x : Prog ω σ ε α) : Alike w I x x Eq := by
  intro s _
  refine ⟨rfl, ?_⟩
  cases (x w s).1 with
  | ok a => exact .ok rfl
  | error e => exact .error

theorem pure {a : α} {b : β} (h : R a b)
    : Alike w I (Pure.pure a : Prog ω σ ε α) (Pure.pure b : Prog ω σ ε β) R :=
  fun _ _ => ⟨rfl, .ok h⟩

theorem mono {x : Prog ω σ ε α} {y : Prog ω σ ε β} (h : Alike w I x y R)
    (hR : ∀ a b, R a b → R' a b)
    : Alike w I x y R' := by
  intro s hs
  obtain ⟨hstate, hresult⟩ := h s hs
  exact ⟨hstate, hresult.mono hR⟩

/-- What the second program ensures is known of the rest. -/
theorem bind {x : Prog ω σ ε α} {y : Prog ω σ ε β} {f : α → Prog ω σ ε γ} {g : β → Prog ω σ ε δ}
    (hx : Alike w I x y R) (hy : Ensures w I y Q E)
    (hf : ∀ a b, R a b → Q b → Alike w I (f a) (g b) S)
    : Alike w I (x >>= f) (y >>= g) S := by
  intro s hs
  obtain ⟨hstate, hresult⟩ := hx s hs
  obtain ⟨hI, hQ, -⟩ := hy.outcome hs
  rcases hxs : x w s with ⟨r, s₁⟩
  rcases hys : y w s with ⟨r', s₂⟩
  rw [hxs, hys] at hstate hresult
  rw [hys] at hI hQ
  subst hstate
  cases hresult with
  | @ok a b h =>
    rw [Prog.bind_of_ok hxs, Prog.bind_of_ok hys]
    exact hf a b h (hQ b rfl) s₁ hI
  | error =>
    rw [Prog.bind_of_error hxs, Prog.bind_of_error hys]
    exact ⟨rfl, .error⟩

theorem bind_same {x : Prog ω σ ε β} {f : β → Prog ω σ ε γ} {g : β → Prog ω σ ε δ}
    (hx : Ensures w I x Q E) (hf : ∀ b, Q b → Alike w I (f b) (g b) S)
    : Alike w I (x >>= f) (x >>= g) S :=
  (refl x).bind hx fun _ b h hb => h ▸ hf b hb

theorem liftM_bind {x : Except ε β} {f : β → Prog ω σ ε γ} {g : β → Prog ω σ ε δ}
    (hf : ∀ b, x = .ok b → Alike w I (f b) (g b) S)
    : Alike w I (MonadLiftT.monadLift x >>= f) (MonadLiftT.monadLift x >>= g) S :=
  bind_same (Q := fun b => x = .ok b) (E := fun _ => True)
    (.liftM (fun _ h => h) fun _ _ => trivial) hf

theorem get_bind {f g : σ → Prog ω σ ε γ} {R : γ → γ → Prop}
    (hf : ∀ s, I s → Alike w I (f s) (g s) R)
    : Alike w I (Prog.get >>= f) (Prog.get >>= g) R :=
  fun s hs => hf s hs s hs

/-- The rule for counting loops. -/
theorem foldlM_range' {f : α → Nat → Prog ω σ ε α} {g : β → Nat → Prog ω σ ε β}
    {J : Nat → α → β → Prop} {first n : Nat}
    (hg : ∀ i b, first ≤ i → i < first + n → Preserves w I (g b i))
    (hf : ∀ i a b, first ≤ i → i < first + n → J i a b → Alike w I (f a i) (g b i) (J (i + 1)))
    {a : α} {b : β} (h : J first a b)
    : Alike w I ((List.range' first n).foldlM f a) ((List.range' first n).foldlM g b)
        (J (first + n)) := by
  induction n generalizing first a b with
  | zero => exact pure h
  | succ n ih =>
    rw [List.range'_succ, List.foldlM_cons, List.foldlM_cons]
    apply (hf first a b (Nat.le_refl _) (by omega) h).bind
      (hg first b (Nat.le_refl _) (by omega)).ensures
    intro a b h _
    have hrest := ih (fun i b hi hi' => hg i b (by omega) (by omega))
      (fun i a b hi hi' => hf i a b (by omega) (by omega)) h
    rwa [Nat.add_assoc, Nat.add_comm 1] at hrest

/-- Programs that are alike in their values are the same. -/
theorem run_eq {x y : Prog ω σ ε α} (h : Alike w I x y Eq) {s : σ} (hs : I s)
    : x w s = y w s := by
  obtain ⟨hstate, hresult⟩ := h s hs
  rcases hxs : x w s with ⟨r, s₁⟩
  rcases hys : y w s with ⟨r', s₂⟩
  rw [hxs, hys] at hstate hresult
  cases hstate
  cases hresult with
  | ok h => rw [h]
  | error => rfl

/-- What a program ensures, one that is alike ensures too. -/
theorem ensures {x y : Prog ω σ ε β} (h : Alike w I x y Eq) (hy : Ensures w I y Q E)
    : Ensures w I x Q E := by
  intro s hs
  rw [h.run_eq hs]
  exact hy s hs

end Alike

/-! ## One program in the steps of another -/

/--
When `x` yields a value with `G` in the world `w` from a state with `I`, then `y` yields the same in
the world `w'` from every state with `J`, and both keep their invariant.
-/
def Follows (w w' : ω) (I J : σ → Prop) (G : α → Prop) (x y : Prog ω σ ε α) : Prop :=
  ∀ s t a s', I s → J t → x w s = (.ok a, s') → G a → I s' ∧ ∃ t', y w' t = (.ok a, t') ∧ J t'

namespace Follows

variable {w w' : ω} {I J : σ → Prop} {G H : α → Prop} {K : β → Prop}

/-- Any value will do. -/
abbrev Always (w w' : ω) (I J : σ → Prop) (x y : Prog ω σ ε α) : Prop :=
  Follows w w' I J (fun _ => True) x y

theorem mono {x y : Prog ω σ ε α} (h : Follows w w' I J G x y) (hG : ∀ a, H a → G a)
    : Follows w w' I J H x y :=
  fun s t a s' hs ht hrun ha => h s t a s' hs ht hrun (hG a ha)

theorem pure {a : α} : Follows w w' I J G (Pure.pure a : Prog ω σ ε α) (Pure.pure a) := by
  rintro s t _ _ hs ht ⟨⟩ _
  exact ⟨hs, t, rfl, ht⟩

/-- What a program never yields, every other one follows. -/
theorem of_not {x y : Prog ω σ ε α} (h : ∀ s a s', x w s = (.ok a, s') → ¬G a)
    : Follows w w' I J G x y :=
  fun s _ a s' _ _ hrun ha => absurd ha (h s a s' hrun)

theorem fail {e : ε} {y : Prog ω σ ε α} : Follows w w' I J G (Prog.fail e) y := by
  apply of_not
  rintro s a s' ⟨⟩

theorem liftM {x y : Except ε α} (h : ∀ a, x = .ok a → y = .ok a)
    : Follows w w' I J G (MonadLiftT.monadLift x : Prog ω σ ε α) (MonadLiftT.monadLift y) := by
  rintro s t a s' hs ht hrun _
  obtain ⟨hx, rfl⟩ := liftM_eq_ok.mp hrun
  exact ⟨hs, t, liftM_eq_ok.mpr ⟨h a hx, rfl⟩, ht⟩

theorem same {x : Except ε α}
    : Follows w w' I J G (MonadLiftT.monadLift x : Prog ω σ ε α) (MonadLiftT.monadLift x) :=
  liftM fun _ h => h

/-- A value without `G` need not be followed when no value with `K` comes of it. -/
theorem bind_of {x y : Prog ω σ ε α} {f g : α → Prog ω σ ε β} (hx : Follows w w' I J G x y)
    (hf : ∀ a, G a → Follows w w' I J K (f a) (g a))
    (hnot : ∀ a, ¬G a → ∀ s b s', f a w s = (.ok b, s') → ¬K b)
    : Follows w w' I J K (x >>= f) (y >>= g) := by
  intro s t b s'' hs ht hrun hb
  obtain ⟨a, s', hxs, hfs⟩ := Prog.bind_eq_ok.mp hrun
  by_cases ha : G a
  . obtain ⟨hs', t', hyt, ht'⟩ := hx s t a s' hs ht hxs ha
    obtain ⟨hs'', t'', hgt, ht''⟩ := hf a ha s' t' b s'' hs' ht' hfs hb
    exact ⟨hs'', t'', Prog.bind_eq_ok.mpr ⟨a, t', hyt, hgt⟩, ht''⟩
  . exact absurd hb (hnot a ha s' b s'' hfs)

theorem bind {x y : Prog ω σ ε α} {f g : α → Prog ω σ ε β} (hx : Always w w' I J x y)
    (hf : ∀ a, Follows w w' I J K (f a) (g a))
    : Follows w w' I J K (x >>= f) (y >>= g) :=
  bind_of hx (fun a _ => hf a) fun _ h => absurd trivial h

/-- The rest may use what the first computation has come to. -/
theorem liftM_bind {x y : Except ε α} {f g : α → Prog ω σ ε β}
    (h : ∀ a, x = .ok a → y = .ok a ∧ Follows w w' I J K (f a) (g a))
    : Follows w w' I J K (MonadLiftT.monadLift x >>= f) (MonadLiftT.monadLift y >>= g) := by
  intro s t b s'' hs ht hrun hb
  obtain ⟨a, s', hxs, hfs⟩ := Prog.bind_eq_ok.mp hrun
  obtain ⟨hx, rfl⟩ := liftM_eq_ok.mp hxs
  obtain ⟨hy, hf⟩ := h a hx
  obtain ⟨hs'', t'', hgt, ht''⟩ := hf s t b s'' hs ht hfs hb
  exact ⟨hs'', t'', Prog.bind_eq_ok.mpr ⟨a, t, liftM_eq_ok.mpr ⟨hy, rfl⟩, hgt⟩, ht''⟩

/-- A failure that is handled need not be followed when no value with `K` comes of it. -/
theorem attempt_bind {x y : Prog ω σ ε α} {f g : Except ε α → Prog ω σ ε β}
    (hx : Always w w' I J x y) (hf : ∀ a, Follows w w' I J K (f (.ok a)) (g (.ok a)))
    (herror : ∀ e s b s', f (.error e) w s = (.ok b, s') → ¬K b)
    : Follows w w' I J K (Prog.attempt x >>= f) (Prog.attempt y >>= g) := by
  intro s t b s'' hs ht hrun hb
  rw [Prog.attempt_bind_apply] at hrun
  rcases hxs : x w s with ⟨e | a, s'⟩
  . rw [hxs] at hrun
    exact absurd hb (herror e s' b s'' hrun)
  . rw [hxs] at hrun
    obtain ⟨hs', t', hyt, ht'⟩ := hx s t a s' hs ht hxs trivial
    obtain ⟨hs'', t'', hgt, ht''⟩ := hf a s' t' b s'' hs' ht' hrun hb
    refine ⟨hs'', t'', ?_, ht''⟩
    rw [Prog.attempt_bind_apply, hyt]
    exact hgt

/-- The value of `x` determines that of `y`, which does not fail. -/
theorem of_ensures {x y : Prog ω σ ε α} {Q : α → Prop} {E : ε → Prop} (hx : Ensures w I x Q E)
    (hy : ∀ a, Q a → Ensures w' J y (fun b => b = a) (fun _ => False))
    : Always w w' I J x y := by
  intro s t a s' hs ht hrun _
  obtain ⟨hs', hQ, -⟩ := hx.outcome hs
  rw [hrun] at hs' hQ
  obtain ⟨ht', hok, herror⟩ := (hy a (hQ a rfl)).outcome ht
  refine ⟨hs', (y w' t).2, ?_, ht'⟩
  cases hyt : (y w' t).1 with
  | error e => exact absurd hyt (herror e)
  | ok b => rw [← hok b hyt, ← hyt]

/-- The alternative may use that the condition fails. -/
theorem of_ite {c : Prop} [Decidable c] {x y x' y' : Prog ω σ ε α} (hx : Follows w w' I J G x x')
    (hy : ¬c → Follows w w' I J G y y')
    : Follows w w' I J G (if c then x else y) (if c then x' else y') := by
  split
  . exact hx
  . next hc => exact hy hc

theorem ite {c : Prop} [Decidable c] {x y x' y' : Prog ω σ ε α} (hx : Follows w w' I J G x x')
    (hy : Follows w w' I J G y y')
    : Follows w w' I J G (if c then x else y) (if c then x' else y') :=
  of_ite hx fun _ => hy

theorem forM {f g : β → Prog ω σ ε PUnit} (xs : List β) (hf : ∀ b, Always w w' I J (f b) (g b))
    : Always w w' I J (xs.forM f) (xs.forM g) := by
  induction xs with
  | nil => exact pure
  | cons b xs ih => exact bind (hf b) fun _ => ih

theorem mapM {f g : α → Prog ω σ ε β} (xs : List α) (hf : ∀ a, Always w w' I J (f a) (g a))
    : Always w w' I J (xs.mapM f) (xs.mapM g) := by
  induction xs with
  | nil => exact pure
  | cons a xs ih =>
    rw [List.mapM_cons, List.mapM_cons]
    exact bind (hf a) fun _ => bind ih fun _ => pure

theorem foldlM {f g : β → α → Prog ω σ ε β} (xs : List α)
    (hf : ∀ b a, Always w w' I J (f b a) (g b a)) (b : β)
    : Always w w' I J (xs.foldlM f b) (xs.foldlM g b) := by
  induction xs generalizing b with
  | nil => exact pure
  | cons a xs ih =>
    rw [List.foldlM_cons, List.foldlM_cons]
    exact bind (hf b a) ih

end Follows

end Effect
