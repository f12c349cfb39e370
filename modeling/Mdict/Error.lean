import Mdict.Lib.Effect
import Mathlib.Algebra.GroupWithZero.Nat

/-!
This module contains the errors of the library and the small vocabulary for functions that return
them.
-/

namespace Mdict

/--
The reasons to reject a persistent key index.
-/
inductive KeyIndexRejection where
  | invalidMagic
  | unsupportedFormatRevision (found : Nat)
  | unsupportedEndianMarker (found : Nat)
  | incompatibleParserRevision (found : Nat)
  | incompatibleNormalizationRevision (found : Nat)
  | sourceIdentityMismatch
  | sourceLengthMismatch (expected actual : Nat)
  | sourceModifiedMismatch (expected actual : BitVec 128)
  | keyCountMismatch (expected actual : Nat)
  | fileLengthMismatch (declared actual : Nat)
  | invalidLayout (reason : String)
  | checksumMismatch («section» : String) (chunk : Option Nat) (expected actual : Nat)
  | sourceKeyMismatch (ordinal : Nat)
  deriving DecidableEq, Repr

/--
The errors of the library. `panic` is none of them: it stands for an index or a string slice out
of range, where the program would unwind.
-/
inductive Error where
  | io
  | invalidFormat (context : String)
  | invalidData (context : String)
  | truncated (context : String) (needed remaining : Nat)
  | limitExceeded (limit : String) (value max : Nat)
  | allocationFailed (context : String) (requested : Nat)
  | checksumMismatch (context : String) (expected actual : Nat)
  | decode (context encoding : String)
  | missingPasscode
  | invalidPasscode (context : String)
  | unsupported (feature : String)
  | keyIndexRejected (reason : KeyIndexRejection)
  | cancelled (operation : String)
  | sourceChanged (operation : String)
  | panic (context : String)
  deriving DecidableEq, Repr

/-- The error of a rejected key index. -/
def reject (reason : KeyIndexRejection) : Error := .keyIndexRejected reason

/-- An error that is not a panic. -/
def NotPanic (e : Error) : Prop := ∀ message, e ≠ .panic message

theorem notPanic_invalidFormat (context : String) : NotPanic (.invalidFormat context) := by
  rintro message ⟨⟩

theorem notPanic_invalidData (context : String) : NotPanic (.invalidData context) := by
  rintro message ⟨⟩

theorem notPanic_reject (reason : KeyIndexRejection) : NotPanic (reject reason) := by
  rintro message ⟨⟩

/-! ## Failing -/

/-- Return early with `error` when `c` holds. -/
def failIf (c : Prop) [Decidable c] (error : Error) : Except Error Unit :=
  if c then .error error else .ok ()

/-- The value of an option, or `error` when there is none. -/
def okOr {α : Type} (value : Option α) (error : Error) : Except Error α :=
  match value with
  | some a => .ok a
  | none => .error error

@[simp]
theorem failIf_eq_ok {c : Prop} [Decidable c] {error : Error} {u : Unit}
    : failIf c error = .ok u ↔ ¬c := by
  unfold failIf
  split <;> simp_all

theorem failIf_of {c : Prop} [Decidable c] {error : Error} (h : c) : failIf c error = .error error :=
  if_pos h

theorem failIf_of_not {c : Prop} [Decidable c] {error : Error} (h : ¬c)
    : failIf c error = .ok () := by
  simp [h]

@[simp]
theorem failIf_eq_error {c : Prop} [Decidable c] {error e : Error}
    : failIf c error = .error e ↔ c ∧ error = e := by
  unfold failIf
  split <;> simp_all

@[simp]
theorem okOr_eq_ok {α : Type} {value : Option α} {error : Error} {a : α}
    : okOr value error = .ok a ↔ value = some a := by
  unfold okOr
  split <;> simp_all

@[simp]
theorem okOr_eq_error {α : Type} {value : Option α} {error e : Error}
    : okOr value error = .error e ↔ value = none ∧ error = e := by
  unfold okOr
  split <;> simp_all

@[simp]
theorem okOr_some {α : Type} (a : α) (error : Error) : okOr (some a) error = .ok a := rfl

theorem failsWith_okOr {α : Type} {value : Option α} {error : Error} {E : Error → Prop} (h : E error)
    : Effect.FailsWith E (okOr value error) := by
  intro e he
  rw [okOr_eq_error] at he
  exact he.2 ▸ h

theorem failsWith_failIf {c : Prop} [Decidable c] {error : Error} {E : Error → Prop} (h : E error)
    : Effect.FailsWith E (failIf c error) := by
  unfold failIf
  split
  . exact .error h
  . exact .ok ()

/-! ## Machine integers -/

/-- The values of `u32` are below this bound. -/
def u32Bound : Nat := 2 ^ 32

/-- The values of `u64`, and of `usize` on the supported targets, are below this bound. -/
def u64Bound : Nat := 2 ^ 64

/-- The largest `u64`. -/
def u64Max : Nat := u64Bound - 1

/-- The largest `u32`. -/
def u32Max : Nat := u32Bound - 1

/-- The sum of two `u64`, or nothing when it overflows. -/
def checkedAdd (a b : Nat) : Option Nat := if a + b < u64Bound then some (a + b) else none

/-- The product of two `u64`, or nothing when it overflows. -/
def checkedMul (a b : Nat) : Option Nat := if a * b < u64Bound then some (a * b) else none

/-- The difference of two `u64`, or nothing when it is negative. -/
def checkedSub (a b : Nat) : Option Nat := if b ≤ a then some (a - b) else none

/-- The sum of two `u64`, or the largest `u64` when it overflows. -/
def saturatingAdd (a b : Nat) : Nat := min (a + b) u64Max

/-- A number as a `u32`, or nothing when it is too large. -/
def toU32? (a : Nat) : Option Nat := if a < u32Bound then some a else none

@[simp]
theorem checkedAdd_eq_some {a b c : Nat} : checkedAdd a b = some c ↔ a + b = c ∧ c < u64Bound := by
  unfold checkedAdd
  split
  . simp only [Option.some.injEq]
    omega
  . simp only [reduceCtorEq, false_iff]
    omega

@[simp]
theorem checkedAdd_eq_none {a b : Nat} : checkedAdd a b = none ↔ u64Bound ≤ a + b := by
  unfold checkedAdd
  split <;> simp <;> omega

@[simp]
theorem checkedMul_eq_some {a b c : Nat} : checkedMul a b = some c ↔ a * b = c ∧ c < u64Bound := by
  unfold checkedMul
  generalize a * b = p
  split
  . simp only [Option.some.injEq]
    omega
  . simp only [reduceCtorEq, false_iff]
    omega

@[simp]
theorem checkedMul_eq_none {a b : Nat} : checkedMul a b = none ↔ u64Bound ≤ a * b := by
  unfold checkedMul
  split <;> simp <;> omega

@[simp]
theorem checkedSub_eq_some {a b c : Nat} : checkedSub a b = some c ↔ b ≤ a ∧ c = a - b := by
  unfold checkedSub
  split <;> simp <;> omega

@[simp]
theorem checkedSub_eq_none {a b : Nat} : checkedSub a b = none ↔ a < b := by
  unfold checkedSub
  split <;> simp <;> omega

@[simp]
theorem toU32?_eq_some {a c : Nat} : toU32? a = some c ↔ a = c ∧ a < u32Bound := by
  unfold toU32?
  split
  . simp only [Option.some.injEq]
    omega
  . simp only [reduceCtorEq, false_iff]
    omega

end Mdict
