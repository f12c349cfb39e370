import Mdict.Format.Common.Source

/-!
This module contains the theory of programs that leave the caches alone: such a program yields the
same result wherever it runs, unless the world interferes.
-/

namespace Mdict

open Effect

/-- A failure that the outside world caused. -/
def Interrupted (w : World) (e : Error) : Prop := e.isTransient = true ∧ ¬w.Quiet

/-- A failure of the file system or of the memory budget. -/
def Refused (w : World) (e : Error) : Prop :=
  (e = .io ∧ ∃ events, w.ioFault events = true)
    ∨ ∃ value max, e = .limitExceeded "working_memory_bytes" value max
      ∧ ∃ events, w.refusal events = some (value, max)

theorem Refused.interrupted {w : World} {e : Error} (h : Refused w e) : Interrupted w e := by
  rcases h with ⟨rfl, events, hfault⟩ | ⟨value, max, rfl, events, hrefused⟩
  . refine ⟨rfl, fun hquiet => ?_⟩
    rw [hquiet.ioFault] at hfault
    contradiction
  . refine ⟨rfl, fun hquiet => ?_⟩
    rw [hquiet.refusal] at hrefused
    contradiction

theorem Refused.notPanic {w : World} {e : Error} (h : Refused w e) : NotPanic e := by
  rintro message rfl
  rcases h with ⟨h, -⟩ | ⟨_, _, h, -⟩ <;> contradiction

def Error.isLimitExceeded : Error → Bool
  | .limitExceeded .. => true
  | _ => false

/-- The limit of one row of a key index. -/
def Error.isRowLimit : Error → Bool
  | .limitExceeded limit .. => limit == "key_index_row_bytes"
  | _ => false

theorem Error.isRowLimit_of_isTransient {e : Error} (h : e.isTransient = true)
    : e.isRowLimit = false := by
  cases e with
  | limitExceeded limit value max =>
    rw [Error.isTransient, beq_iff_eq] at h
    rw [h]
    rfl
  | _ => rfl

theorem Error.isLimitExceeded_of_isRowLimit {e : Error} (h : e.isRowLimit = true)
    : e.isLimitExceeded = true := by
  cases e with
  | limitExceeded => rfl
  | _ => contradiction

/-- A failure that the outside world or a configured limit caused. -/
def Hindered (w : World) (e : Error) : Prop := Interrupted w e ∨ e.isLimitExceeded

/-- An invariant that does not look at the record of events. -/
def LogInvariant (I : Session → Prop) : Prop := ∀ s events, I s → I { s with events }

/--
In every world with the third-party code `p`, the program `x` yields `r` and changes nothing but
the record of events, or else the world makes it fail.
-/
def Yields {α : Type} (p : Platform) (x : Exec α) (r : Except Error α) : Prop :=
  ∀ w s, w.platform = p → ∃ events,
    x w s = (r, { s with events })
      ∨ ∃ e, Interrupted w e ∧ x w s = (.error e, { s with events })

/-- A world in which nothing goes wrong. -/
def World.calm (p : Platform) : World where
  platform := p
  refusal := fun _ => none
  ioFault := fun _ => false
  accepted := fun _ => u64Max
  identity := fun _ => ⟨0, 0, by decide⟩
  cancelled := fun _ => false

theorem World.calm_quiet (p : Platform) : (World.calm p).Quiet where
  refusal := fun _ => rfl
  ioFault := fun _ => rfl
  accepted := fun _ => show 0 < u64Max by decide

/-- What a program yields on a fresh session when nothing goes wrong. -/
def outcome {α : Type} (p : Platform) (x : Exec α) : Except Error α :=
  (x (.calm p) .fresh).1

/-- An error that does not come from the outside world and is not a panic either. -/
def Error.isSettled (e : Error) : Bool :=
  !e.isTransient && match e with
    | .panic _ => false
    | _ => true

/-- The failures of a computation are settled: repeating it would meet them again. -/
def Settles {α : Type} (r : Except Error α) : Prop := ∀ e, r = .error e → e.isSettled

/-- The program `x` yields its outcome wherever it runs, and that is settled. -/
def Steady {α : Type} (p : Platform) (x : Exec α) : Prop := ∃ r, Yields p x r ∧ Settles r

theorem not_interrupted {w : World} {e : Error} (h : w.Quiet) : ¬Interrupted w e :=
  fun h' => h'.2 h

namespace Yields

variable {α β : Type} {p : Platform} {x : Exec α} {f : α → Exec β} {r : Except Error α}
variable {w : World} {I : Session → Prop}

theorem pure {a : α} : Yields p (Pure.pure a) (.ok a) :=
  fun _ s _ => ⟨s.events, .inl rfl⟩

theorem fail {e : Error} : Yields p (Prog.fail e : Exec α) (.error e) :=
  fun _ s _ => ⟨s.events, .inl rfl⟩

theorem liftM {x : Except Error α} : Yields p (MonadLiftT.monadLift x) x :=
  fun _ s _ => ⟨s.events, .inl rfl⟩

theorem bind {rf : α → Except Error β} (hx : Yields p x r) (hf : ∀ a, Yields p (f a) (rf a))
    : Yields p (x >>= f) (r >>= rf) := by
  intro w s hw
  obtain ⟨events, hx | ⟨e, he, hx⟩⟩ := hx w s hw
  . cases r with
    | ok a =>
      rw [Prog.bind_of_ok hx]
      exact hf a w { s with events } hw
    | error e =>
      rw [Prog.bind_of_error hx]
      exact ⟨events, .inl rfl⟩
  . rw [Prog.bind_of_error hx]
    exact ⟨events, .inr ⟨e, he, rfl⟩⟩

theorem bind_ok {a : α} {r : Except Error β} (hx : Yields p x (.ok a)) (hf : Yields p (f a) r)
    : Yields p (x >>= f) r := by
  intro w s hw
  obtain ⟨events, hx | ⟨e, he, hx⟩⟩ := hx w s hw
  . rw [Prog.bind_of_ok hx]
    exact hf w { s with events } hw
  . rw [Prog.bind_of_error hx]
    exact ⟨events, .inr ⟨e, he, rfl⟩⟩

theorem bind_error {e : Error} (hx : Yields p x (.error e)) : Yields p (x >>= f) (.error e) := by
  intro w s hw
  obtain ⟨events, hx | ⟨e, he, hx⟩⟩ := hx w s hw
  . rw [Prog.bind_of_error hx]
    exact ⟨events, .inl rfl⟩
  . rw [Prog.bind_of_error hx]
    exact ⟨events, .inr ⟨e, he, rfl⟩⟩

theorem log {event : Event} : Yields p (Exec.log event) (.ok ()) :=
  fun _ s _ => ⟨event :: s.events, .inl rfl⟩

theorem platform : Yields p Exec.platform (.ok p) := by
  intro w s hw
  subst hw
  exact ⟨s.events, .inl rfl⟩

theorem reserve {bytes : Nat} {context : String} : Yields p (Exec.reserve bytes context) (.ok ()) := by
  intro w s hw
  refine ⟨.reserve bytes context :: s.events, ?_⟩
  simp only [Exec.reserve, Exec.log, Prog.bind_apply, Prog.modify_apply, Prog.andThen,
    Prog.ask_apply, Prog.get_apply, Session.log]
  cases h : w.refusal (.reserve bytes context :: s.events) with
  | some refused =>
    refine .inr ⟨.limitExceeded "working_memory_bytes" refused.1 refused.2, ⟨rfl, ?_⟩, rfl⟩
    intro hq
    rw [hq.refusal] at h
    contradiction
  | none => exact .inl rfl

theorem io : Yields p Exec.io (.ok ()) := by
  intro w s hw
  refine ⟨s.events, ?_⟩
  simp only [Exec.io, Prog.bind_apply, Prog.andThen, Prog.ask_apply, Prog.get_apply]
  cases h : w.ioFault s.events with
  | true =>
    refine .inr ⟨.io, ⟨rfl, ?_⟩, rfl⟩
    intro hq
    rw [hq.ioFault] at h
    contradiction
  | false => exact .inl rfl

/-- What a program yields, its runs ensure. -/
theorem ensures (h : Yields p x r) (hw : w.platform = p) (hI : LogInvariant I)
    : Ensures w I x (fun a => r = .ok a) (fun e => Interrupted w e ∨ r = .error e) := by
  intro s hs
  obtain ⟨events, h | ⟨e, he, h⟩⟩ := h w s hw
  . cases r with
    | ok a =>
      rw [h]
      exact ⟨hI s events hs, rfl⟩
    | error e =>
      rw [h]
      exact ⟨hI s events hs, .inr rfl⟩
  . rw [h]
    exact ⟨hI s events hs, .inl he⟩

theorem outcome_eq (h : Yields p x r) : outcome p x = r := by
  obtain ⟨events, h | ⟨e, he, h⟩⟩ := h (.calm p) .fresh rfl
  . rw [outcome, h]
  . exact absurd he (not_interrupted (World.calm_quiet p))

end Yields

namespace Settles

variable {α β : Type} {r : Except Error α} {f : α → Except Error β}

theorem ok {a : α} : Settles (.ok a : Except Error α) := by
  intro e he
  contradiction

theorem error {e : Error} (h : e.isSettled) : Settles (.error e : Except Error α) := by
  intro e' he
  injection he with he
  exact he ▸ h

theorem pure {a : α} : Settles (Pure.pure a : Except Error α) := ok

theorem bind (hr : Settles r) (hf : ∀ a, Settles (f a)) : Settles (r >>= f) := by
  cases r with
  | ok a => exact hf a
  | error e => exact error (hr e rfl)

theorem failIf {c : Prop} [Decidable c] {e : Error} (h : e.isSettled) : Settles (failIf c e) := by
  unfold Mdict.failIf
  split
  . exact error h
  . exact ok

theorem okOr {value : Option α} {e : Error} (h : e.isSettled) : Settles (okOr value e) := by
  unfold Mdict.okOr
  split
  . exact ok
  . exact error h

theorem ensureLimit {limit : String} {value max : Nat}
    (h : (limit == "working_memory_bytes") = false)
    : Settles (ensureLimit limit value max) := by
  apply failIf
  simp [Error.isSettled, Error.isTransient, h]

theorem checkedUsize {value : Nat} {context : String} : Settles (checkedUsize value context) :=
  okOr rfl

theorem ite {c : Prop} [Decidable c] {r' : Except Error α} (h : Settles r) (h' : Settles r')
    : Settles (if c then r else r') := by
  split
  . exact h
  . exact h'

end Settles

namespace Steady

variable {α β : Type} {p : Platform} {x : Exec α} {f : α → Exec β}
variable {w : World} {I : Session → Prop}

theorem yields (h : Steady p x) : Yields p x (outcome p x) := by
  obtain ⟨r, h, -⟩ := h
  rw [h.outcome_eq]
  exact h

theorem settles (h : Steady p x) : Settles (outcome p x) := by
  obtain ⟨r, h, h'⟩ := h
  rw [h.outcome_eq]
  exact h'

theorem pure {a : α} : Steady p (Pure.pure a) := ⟨_, Yields.pure, .ok⟩

theorem fail {e : Error} (h : e.isSettled) : Steady p (Prog.fail e : Exec α) :=
  ⟨_, Yields.fail, .error h⟩

theorem liftM {x : Except Error α} (h : Settles x) : Steady p (MonadLiftT.monadLift x) :=
  ⟨_, Yields.liftM, h⟩

theorem log {event : Event} : Steady p (Exec.log event) := ⟨_, Yields.log, .ok⟩

theorem platform : Steady p Exec.platform := ⟨_, Yields.platform, .ok⟩

theorem reserve {bytes : Nat} {context : String} : Steady p (Exec.reserve bytes context) :=
  ⟨_, Yields.reserve, .ok⟩

theorem io : Steady p Exec.io := ⟨_, Yields.io, .ok⟩

theorem bind (hx : Steady p x) (hf : ∀ a, Steady p (f a)) : Steady p (x >>= f) :=
  ⟨_, hx.yields.bind fun a => (hf a).yields, hx.settles.bind fun a => (hf a).settles⟩

theorem platform_bind {f : Platform → Exec β} (hf : Steady p (f p))
    : Steady p (Exec.platform >>= f) := by
  obtain ⟨r, hr, hsettles⟩ := hf
  exact ⟨r, Yields.platform.bind_ok hr, hsettles⟩

theorem ite {c : Prop} [Decidable c] {y : Exec α} (hx : Steady p x) (hy : Steady p y)
    : Steady p (if c then x else y) := by
  split
  . exact hx
  . exact hy

theorem readExactAt {source : FileSource} {offset len : Nat} {context : String}
    : Steady p (source.readExactAt offset len context) :=
  bind (liftM (.bind (.okOr rfl) fun _ => .failIf rfl)) fun _ =>
    bind log fun _ => bind io fun _ => pure

theorem outcome_bind (hx : Steady p x) (hf : ∀ a, Steady p (f a))
    : outcome p (x >>= f) = outcome p x >>= fun a => outcome p (f a) :=
  (hx.yields.bind fun a => (hf a).yields).outcome_eq

theorem ensures (h : Steady p x) (hw : w.platform = p) (hI : LogInvariant I)
    : Ensures w I x (fun a => outcome p x = .ok a)
        (fun e => Interrupted w e ∨ outcome p x = .error e) :=
  h.yields.ensures hw hI

theorem preserves (h : Steady p x) (hw : w.platform = p) (hI : LogInvariant I)
    : Preserves w I x :=
  .of_ensures (h.ensures hw hI)

end Steady

/--
Under the invariant `I`, the program `x` answers `r`, unless the world makes it fail.
-/
def Answers {α : Type} (w : World) (I : Session → Prop) (x : Exec α) (r : Except Error α) : Prop :=
  Ensures w I x (fun a => r = .ok a) (fun e => Interrupted w e ∨ r = .error e)

namespace Answers

variable {α β γ : Type} {p : Platform} {x : Exec α} {f : α → Exec β} {r : Except Error α}
variable {w : World} {I : Session → Prop}

theorem of_steady (h : Steady p x) (hw : w.platform = p) (hI : LogInvariant I)
    : Answers w I x (outcome p x) :=
  h.ensures hw hI

theorem of_yields (h : Yields p x r) (hw : w.platform = p) (hI : LogInvariant I)
    : Answers w I x r :=
  h.ensures hw hI

theorem pure {a : α} : Answers w I (Pure.pure a) (.ok a) := Ensures.pure rfl

theorem fail {e : Error} : Answers w I (Prog.fail e : Exec α) (.error e) := Ensures.fail (.inr rfl)

theorem liftM : Answers w I (MonadLiftT.monadLift r) r :=
  Ensures.liftM (fun _ h => h) (fun _ h => .inr h)

theorem bind {rf : α → Except Error β} (hx : Answers w I x r)
    (hf : ∀ a, r = .ok a → Answers w I (f a) (rf a))
    : Answers w I (x >>= f) (r >>= rf) := by
  apply Ensures.bind (R := fun a => r = .ok a)
  . apply Ensures.mono hx
    . exact fun _ h => h
    . intro e he
      rcases he with he | rfl
      . exact .inl he
      . exact .inr rfl
  . intro a ha
    subst ha
    exact hf a rfl

theorem bind_ok {a : α} {r : Except Error β} (hx : Answers w I x (.ok a)) (hf : Answers w I (f a) r)
    : Answers w I (x >>= f) r := by
  have : r = ((.ok a : Except Error α) >>= fun _ => r) := rfl
  rw [this]
  apply hx.bind
  intro b hb
  injection hb with hb
  exact hb ▸ hf

theorem bind_error {e : Error} (hx : Answers w I x (.error e))
    : Answers w I (x >>= f) (.error e) :=
  @Answers.bind _ _ _ _ _ _ _ (fun _ => .error e) hx fun a ha => by contradiction

theorem reserve_bind {bytes : Nat} {context : String} {r : Except Error β} {f : Unit → Exec β}
    (hI : LogInvariant I) (hf : Answers w I (f ()) r)
    : Answers w I (Exec.reserve bytes context >>= f) r :=
  (of_yields Yields.reserve rfl hI).bind_ok hf

theorem platform_bind {r : Except Error β} {f : Platform → Exec β} (hI : LogInvariant I)
    (hf : Answers w I (f w.platform) r)
    : Answers w I (Exec.platform >>= f) r :=
  (of_yields Yields.platform rfl hI).bind_ok hf

theorem liftM_bind {rf : α → Except Error β} (hf : ∀ a, r = .ok a → Answers w I (f a) (rf a))
    : Answers w I (MonadLiftT.monadLift r >>= f) (r >>= rf) :=
  liftM.bind hf

theorem foldlM {f : β → α → Exec β} {g : β → α → Except Error β} {xs : List α}
    (hf : ∀ b, ∀ a ∈ xs, Answers w I (f b a) (g b a)) (b : β)
    : Answers w I (xs.foldlM f b) (xs.foldlM g b) := by
  induction xs generalizing b with
  | nil => exact pure
  | cons x xs ih =>
    rw [List.foldlM_cons, List.foldlM_cons]
    exact (hf b x List.mem_cons_self).bind fun b _ =>
      ih (fun b a ha => hf b a (List.mem_cons_of_mem _ ha)) b

/-- In a quiet world the answer comes. -/
theorem quiet (h : Answers w I x r) (hw : w.Quiet) {s : Session} (hs : I s)
    : ∃ s', x w s = (r, s') ∧ I s' := by
  have h := h s hs
  match hx : x w s with
  | (.ok a, s') =>
    rw [hx] at h
    exact ⟨s', by rw [h.2], h.1⟩
  | (.error e, s') =>
    rw [hx] at h
    exact ⟨s', by rw [h.2.resolve_left (not_interrupted hw)], h.1⟩

/-- A value comes from the answer. -/
theorem of_ok (h : Answers w I x r) {s s' : Session} (hs : I s) {a : α} (hx : x w s = (.ok a, s'))
    : r = .ok a ∧ I s' := by
  have h := h s hs
  rw [hx] at h
  exact ⟨h.2, h.1⟩

theorem preserves (h : Answers w I x r) : Preserves w I x := .of_ensures h

end Answers

/-! ## Partial correctness of the primitives -/

section Ensures

variable {α β : Type} {w : World} {I : Session → Prop} {Q : β → Prop} {E : Error → Prop}

theorem ensures_failIf_bind {c : Prop} [Decidable c] {error : Error} {f : Unit → Exec β}
    (herr : c → E error) (hf : ¬c → Ensures w I (f ()) Q E)
    : Ensures w I (MonadLiftT.monadLift (failIf c error) >>= f) Q E := by
  apply Ensures.liftM_bind
  . intro e he
    rw [failIf_eq_error] at he
    exact he.2 ▸ herr he.1
  . intro _ hok
    exact hf (failIf_eq_ok.mp hok)

theorem ensures_okOr_bind {value : Option α} {error : Error} {f : α → Exec β}
    (herr : value = none → E error) (hf : ∀ a, value = some a → Ensures w I (f a) Q E)
    : Ensures w I (MonadLiftT.monadLift (okOr value error) >>= f) Q E := by
  apply Ensures.liftM_bind
  . intro e he
    rw [okOr_eq_error] at he
    exact he.2 ▸ herr he.1
  . intro a hok
    exact hf a (okOr_eq_ok.mp hok)

theorem ensures_checkedAdd_bind {a b : Nat} {error : Error} {f : Nat → Exec β}
    (herr : u64Bound ≤ a + b → E error) (hf : a + b < u64Bound → Ensures w I (f (a + b)) Q E)
    : Ensures w I (MonadLiftT.monadLift (okOr (checkedAdd a b) error) >>= f) Q E := by
  apply ensures_okOr_bind
  . exact fun h => herr (checkedAdd_eq_none.mp h)
  . intro _ h
    obtain ⟨rfl, hlt⟩ := checkedAdd_eq_some.mp h
    exact hf hlt

theorem ensures_checkedMul_bind {a b : Nat} {error : Error} {f : Nat → Exec β}
    (herr : u64Bound ≤ a * b → E error) (hf : a * b < u64Bound → Ensures w I (f (a * b)) Q E)
    : Ensures w I (MonadLiftT.monadLift (okOr (checkedMul a b) error) >>= f) Q E := by
  apply ensures_okOr_bind
  . exact fun h => herr (checkedMul_eq_none.mp h)
  . intro _ h
    obtain ⟨rfl, hlt⟩ := checkedMul_eq_some.mp h
    exact hf hlt

theorem ensures_checkedSub_bind {a b : Nat} {error : Error} {f : Nat → Exec β}
    (herr : a < b → E error) (hf : b ≤ a → Ensures w I (f (a - b)) Q E)
    : Ensures w I (MonadLiftT.monadLift (okOr (checkedSub a b) error) >>= f) Q E := by
  apply ensures_okOr_bind
  . exact fun h => herr (checkedSub_eq_none.mp h)
  . intro _ h
    obtain ⟨hle, rfl⟩ := checkedSub_eq_some.mp h
    exact hf hle

theorem ensures_checkedUsize_bind {value : Nat} {context : String} {f : Nat → Exec β}
    (herr : u64Bound ≤ value → ∀ message, E (.invalidData message))
    (hf : value < u64Bound → Ensures w I (f value) Q E)
    : Ensures w I (MonadLiftT.monadLift (checkedUsize value context) >>= f) Q E := by
  by_cases hlt : value < u64Bound
  . apply Ensures.liftM_bind
    . intro e he
      rw [checkedUsize_eq_ok.mpr ⟨rfl, hlt⟩] at he
      contradiction
    . intro v hv
      obtain ⟨rfl, -⟩ := checkedUsize_eq_ok.mp hv
      exact hf hlt
  . apply Ensures.liftM_bind
    . intro e he
      rw [checkedUsize, okOr_eq_error] at he
      exact he.2 ▸ herr (by omega) _
    . intro v hv
      exact absurd (checkedUsize_eq_ok.mp hv).2 hlt

theorem ensures_steady_bind {x : Exec α} {f : α → Exec β} (hx : Steady w.platform x)
    (hI : LogInvariant I) (hE : ∀ e, Interrupted w e ∨ outcome w.platform x = .error e → E e)
    (hf : ∀ a, outcome w.platform x = .ok a → Ensures w I (f a) Q E)
    : Ensures w I (x >>= f) Q E :=
  Ensures.bind ((hx.ensures rfl hI).mono (fun _ h => h) hE) hf

theorem log_ensures (hI : LogInvariant I) {event : Event} {E : Error → Prop}
    : Ensures w I (Exec.log event) (fun _ => True) E :=
  .modify (fun s hs => hI s (event :: s.events) hs) trivial

theorem io_ensures_of {E : Error → Prop} (h : ∀ events, w.ioFault events = true → E .io)
    : Ensures w I Exec.io (fun _ => True) E := by
  unfold Exec.io
  apply Ensures.bind (Ensures.ask (Q := (· = w)) rfl)
  rintro _ rfl
  apply Ensures.get_bind
  intro s _
  split
  . next hfault => exact .fail (h _ hfault)
  . exact .pure trivial

theorem io_refused : Ensures w I Exec.io (fun _ => True) (Refused w) :=
  io_ensures_of fun events hfault => .inl ⟨rfl, events, hfault⟩

theorem io_interrupted : Ensures w I Exec.io (fun _ => True) (Interrupted w) :=
  io_refused.mono (fun _ h => h) fun _ he => he.interrupted

theorem reserve_refused (hI : LogInvariant I) (bytes : Nat) (context : String)
    : Ensures w I (Exec.reserve bytes context) (fun _ => True) (Refused w) := by
  unfold Exec.reserve
  apply Ensures.bind (log_ensures hI)
  intro _ _
  apply Ensures.bind (Ensures.ask (Q := (· = w)) rfl)
  rintro _ rfl
  apply Ensures.get_bind
  intro s _
  split
  . next value max hrefused => exact .fail (.inr ⟨value, max, rfl, s.events, hrefused⟩)
  . exact .pure trivial

theorem ensures_reserve_bind {bytes : Nat} {context : String} {f : Unit → Exec β}
    (hI : LogInvariant I) (hE : ∀ e, Interrupted w e → E e) (hf : Ensures w I (f ()) Q E)
    : Ensures w I (Exec.reserve bytes context >>= f) Q E :=
  Ensures.bind ((reserve_refused hI _ _).mono (fun _ h => h) fun e he => hE e he.interrupted)
    fun _ _ => hf

theorem ensures_platform_bind {f : Platform → Exec β} (hf : Ensures w I (f w.platform) Q E)
    : Ensures w I (Exec.platform >>= f) Q E := by
  intro s hs
  exact hf s hs

end Ensures

/-- Settled failures are kept, and only those, unless there is no memory for them. -/
theorem CachedFailureKind.capture_run (e : Error) (w : World) (s : Session)
    : ∃ kept events, capture e w s = (.ok kept, { s with events })
        ∧ (∀ failure, kept = some failure → failure.replay = e ∧ e.isSettled)
        ∧ (kept = none → e.isSettled → ¬w.Quiet) := by
  cases e with
  | io => exact ⟨none, s.events, rfl, by simp, by simp [Error.isSettled, Error.isTransient]⟩
  | allocationFailed =>
    exact ⟨none, s.events, rfl, by simp, by simp [Error.isSettled, Error.isTransient]⟩
  | keyIndexRejected =>
    exact ⟨none, s.events, rfl, by simp, by simp [Error.isSettled, Error.isTransient]⟩
  | cancelled =>
    exact ⟨none, s.events, rfl, by simp, by simp [Error.isSettled, Error.isTransient]⟩
  | sourceChanged =>
    exact ⟨none, s.events, rfl, by simp, by simp [Error.isSettled, Error.isTransient]⟩
  | panic => exact ⟨none, s.events, rfl, by simp, by simp [Error.isSettled]⟩
  | limitExceeded limit value max =>
    cases h : limit == "working_memory_bytes" with
    | true =>
      refine ⟨none, s.events, by simp [capture, h], by simp, ?_⟩
      simp [Error.isSettled, Error.isTransient, h]
    | false =>
      refine ⟨some (.limitExceeded limit value max), s.events, by simp [capture, h], ?_, by simp⟩
      rintro _ ⟨⟩
      exact ⟨rfl, by simp [Error.isSettled, Error.isTransient, h]⟩
  | invalidFormat context =>
    exact ⟨some (.invalidFormat context), s.events, rfl, by rintro _ ⟨⟩; exact ⟨rfl, rfl⟩, by simp⟩
  | invalidData context =>
    obtain ⟨events, h | ⟨e, he, h⟩⟩ := @Yields.reserve w.platform
      context.utf8ByteSize "cached deterministic failure" w s rfl
    . refine ⟨some (.invalidData context), events, by simp [capture, h], ?_, by simp⟩
      rintro _ ⟨⟩
      exact ⟨rfl, rfl⟩
    . exact ⟨none, events, by simp [capture, h], by simp, fun _ _ => he.2⟩
  | truncated context needed remaining =>
    exact ⟨some (.truncated context needed remaining), s.events, rfl,
      by rintro _ ⟨⟩; exact ⟨rfl, rfl⟩, by simp⟩
  | checksumMismatch context expected actual =>
    exact ⟨some (.checksumMismatch context expected actual), s.events, rfl,
      by rintro _ ⟨⟩; exact ⟨rfl, rfl⟩, by simp⟩
  | decode context encoding =>
    exact ⟨some (.decode context encoding), s.events, rfl, by rintro _ ⟨⟩; exact ⟨rfl, rfl⟩,
      by simp⟩
  | missingPasscode =>
    exact ⟨some .missingPasscode, s.events, rfl, by rintro _ ⟨⟩; exact ⟨rfl, rfl⟩, by simp⟩
  | invalidPasscode context =>
    exact ⟨some (.invalidPasscode context), s.events, rfl, by rintro _ ⟨⟩; exact ⟨rfl, rfl⟩,
      by simp⟩
  | unsupported feature =>
    exact ⟨some (.unsupported feature), s.events, rfl, by rintro _ ⟨⟩; exact ⟨rfl, rfl⟩, by simp⟩

end Mdict
