import Mathlib

/-!
# Computations that may fail, and the failures that are allowed

`Safe allowed post x` says of a computation with error texts in `ε` that it ends
in a value that satisfies `post`, or in an error that is allowed.  The rules
compose such statements along the computation, so a proof that certain errors
never occur follows the program from one operation to the next.
-/

namespace Checked

universe u

variable {ε : Type*} {α β : Type u} {allowed : ε → Prop} {p p' : α → Prop} {q : β → Prop}

/-- A sequence that ends well has a first part that does. -/
theorem bind_eq_ok {x : Except ε α} {f : α → Except ε β} {b : β} (h : x >>= f = .ok b) :
    ∃ a, x = .ok a ∧ f a = .ok b := by
  cases x with
  | error e => cases h
  | ok a => exact ⟨a, rfl, h⟩

/-- A value that satisfies `post`, or an allowed error. -/
def Safe (allowed : ε → Prop) (post : α → Prop) : Except ε α → Prop
  | .ok a => post a
  | .error e => allowed e

theorem Safe.ok {a : α} (h : p a) : Safe allowed p (Except.ok a : Except ε α) := h

theorem Safe.error {e : ε} (h : allowed e) : Safe allowed p (Except.error e : Except ε α) := h

/-- **Sequencing**: the second part starts from what the first part promises. -/
theorem Safe.bind {x : Except ε α} {f : α → Except ε β} (hx : Safe allowed p x)
    (hf : ∀ a, p a → Safe allowed q (f a)) : Safe allowed q (x >>= f) := by
  cases x with
  | error e => exact hx
  | ok a => exact hf a hx

/-- Sequencing after a part of which nothing is asked. -/
theorem Safe.andThen {x : Except ε α} {f : α → Except ε β}
    (hf : ∀ a, Safe (fun _ => True) q (f a)) : Safe (fun _ => True) q (x >>= f) := by
  cases x with
  | error e => trivial
  | ok a => exact hf a

/-- Sequencing after a part whose result is known. -/
theorem Safe.bind_of_eq {x : Except ε α} {f : α → Except ε β} {a : α} (hx : x = .ok a)
    (hf : Safe allowed q (f a)) : Safe allowed q (x >>= f) := by
  subst hx
  exact hf

theorem Safe.mono {x : Except ε α} (hx : Safe allowed p x) (h : ∀ a, p a → p' a) :
    Safe allowed p' x := by
  cases x with
  | error e => exact hx
  | ok a => exact h a hx

/-- A branch of the program. -/
theorem Safe.ite {c : Prop} [Decidable c] {x y : Except ε α} (hx : c → Safe allowed p x)
    (hy : ¬ c → Safe allowed p y) : Safe allowed p (if c then x else y) := by
  split
  · exact hx ‹_›
  · exact hy ‹_›

end Checked
