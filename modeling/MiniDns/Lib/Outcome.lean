import Mathlib.Logic.Basic
import Mathlib.Tactic.TypeStar

/-! Results of code that may return a value, return an error, or panic.
A panic is an outcome of its own, so that "does not panic" is a statement about the result
and an unchecked index is visible in the model as `Outcome.panic`. -/
namespace MiniDns.Lib
set_option autoImplicit false

inductive Outcome (ε α : Type) where
  | ok (a : α)
  | err (e : ε)
  | panic
  deriving DecidableEq, Repr

namespace Outcome
variable {ε α β γ : Type}

protected def bind (x : Outcome ε α) (f : α → Outcome ε β) : Outcome ε β :=
  match x with
  | ok a => f a
  | err e => err e
  | panic => panic

instance : Monad (Outcome ε) where
  pure := ok
  bind := Outcome.bind

@[simp] theorem pure_eq_ok (a : α) : (pure a : Outcome ε α) = ok a := rfl
@[simp] theorem ok_bind (a : α) (f : α → Outcome ε β) : (ok a >>= f) = f a := rfl
@[simp] theorem err_bind (e : ε) (f : α → Outcome ε β) : (err e >>= f) = err e := rfl
@[simp] theorem panic_bind (f : α → Outcome ε β) : ((panic : Outcome ε α) >>= f) = panic := rfl

theorem bind_eq_ok {x : Outcome ε α} {f : α → Outcome ε β} {b : β} :
    (x >>= f) = ok b ↔ ∃ a, x = ok a ∧ f a = ok b := by
  cases x with
  | ok a => simp
  | err e => simp
  | panic => simp

theorem bind_eq_panic {x : Outcome ε α} {f : α → Outcome ε β} :
    (x >>= f) = panic ↔ x = panic ∨ ∃ a, x = ok a ∧ f a = panic := by
  cases x with
  | ok a => simp
  | err e => simp
  | panic => simp

theorem bind_ne_panic {x : Outcome ε α} {f : α → Outcome ε β} (hx : x ≠ panic)
    (hf : ∀ a, x = ok a → f a ≠ panic) : (x >>= f) ≠ panic := by
  rw [Ne, bind_eq_panic]
  rintro (h | ⟨a, ha, h⟩)
  · exact hx h
  · exact hf a ha h

theorem ite_err_eq_ok {p : Prop} [Decidable p] {e : ε} {out : Outcome ε α} {a : α} :
    (if p then err e else out) = ok a ↔ ¬ p ∧ out = ok a := by
  split <;> simp_all

/-- `match x { Ok(a) => onOk(a), Err(e) => onErr(e) }`; a panic is not caught. -/
def handle {δ : Type} (x : Outcome ε α) (onOk : α → Outcome δ β) (onErr : ε → Outcome δ β) : Outcome δ β :=
  match x with
  | ok a => onOk a
  | err e => onErr e
  | panic => panic

theorem handle_eq_ok {δ : Type} {x : Outcome ε α} {f : α → Outcome δ β} {g : ε → Outcome δ β} {b : β} :
    x.handle f g = ok b ↔ (∃ a, x = ok a ∧ f a = ok b) ∨ ∃ e, x = err e ∧ g e = ok b := by
  cases x with
  | ok a => simp [handle]
  | err e => simp [handle]
  | panic => simp [handle]

theorem handle_ne_panic {δ : Type} {x : Outcome ε α} {f : α → Outcome δ β} {g : ε → Outcome δ β} (hx : x ≠ panic)
    (hf : ∀ a, x = ok a → f a ≠ panic) (hg : ∀ e, x = err e → g e ≠ panic) : x.handle f g ≠ panic := by
  cases x with
  | ok a => exact hf a rfl
  | err e => exact hg e rfl
  | panic => exact absurd rfl hx

/-- What has no errors and does not return has panicked. -/
theorem eq_panic {x : Outcome Empty α} (h : ∀ a, x ≠ ok a) : x = panic := by
  cases x with
  | ok a => exact absurd rfl (h a)
  | err e => cases e
  | panic => rfl

/-- `value.context(error)` -/
def ofOption (value : Option α) (error : ε) : Outcome ε α :=
  match value with
  | some a => ok a
  | none => err error

theorem ofOption_eq_ok {value : Option α} {error : ε} {a : α} : ofOption value error = ok a ↔ value = some a := by
  cases value <;> simp [ofOption]

def toOption : Outcome ε α → Option α
  | ok a => some a
  | _ => none

@[simp] theorem toOption_ok (a : α) : (ok a : Outcome ε α).toOption = some a := rfl
@[simp] theorem toOption_err (e : ε) : (err e : Outcome ε α).toOption = none := rfl
@[simp] theorem toOption_panic : (panic : Outcome ε α).toOption = none := rfl

theorem eq_ok_of_toOption {x : Outcome ε α} {a : α} (h : x.toOption = some a) : x = ok a := by
  cases x with
  | ok b => exact congrArg ok (Option.some.inj h)
  | _ => cases h

end Outcome
end MiniDns.Lib
