import Mathlib

/-!
# Recursion that shortens its argument

A recursive program is a body that takes the function for the recursive calls.  When the
body makes recursive calls on smaller arguments only, unrolling it as often as the
argument is large gives a function that satisfies the recursion equation.  Parsers that
call each other are of this kind, as long as no call returns more input than it got;
`Shrinks` says that of a function, and the body may use it of the function it is given.
-/

namespace Descent

variable {σ ρ : Type}

/-- The body, unrolled `n` times; further calls return what `stop` says. -/
def unroll (body : (σ → ρ) → σ → ρ) (stop : σ → ρ) : Nat → σ → ρ
  | 0 => stop
  | n + 1 => body (unroll body stop n)

/-- The recursive function. -/
def run (size : σ → Nat) (body : (σ → ρ) → σ → ρ) (stop : σ → ρ) (s : σ) : ρ :=
  unroll body stop (size s + 1) s

/-- What is left after a call is not larger than the argument. -/
def Shrinks (size : σ → Nat) (left : ρ → Nat) (f : σ → ρ) : Prop := ∀ s, left (f s) ≤ size s

/-- The body calls the function it is given on smaller arguments only. -/
structure Descends (size : σ → Nat) (left : ρ → Nat) (body : (σ → ρ) → σ → ρ) : Prop where
  shrinks : ∀ f, Shrinks size left f → Shrinks size left (body f)
  congr : ∀ f g s, Shrinks size left f → Shrinks size left g →
    (∀ t, size t < size s → f t = g t) → body f s = body g s

variable {size : σ → Nat} {left : ρ → Nat} {body : (σ → ρ) → σ → ρ} {stop : σ → ρ}

theorem unroll_shrinks (h : Descends size left body) (hstop : Shrinks size left stop) (n : Nat) :
    Shrinks size left (unroll body stop n) := by
  induction n with
  | zero => exact hstop
  | succ n ih => exact h.shrinks _ ih

/-- Unrolling further than the argument is large changes nothing. -/
theorem unroll_congr (h : Descends size left body) (hstop : Shrinks size left stop)
    {n m : Nat} {s : σ} (hn : size s < n) (hm : size s < m) :
    unroll body stop n s = unroll body stop m s := by
  induction n generalizing m s with
  | zero => omega
  | succ n ih =>
      obtain ⟨m, rfl⟩ : ∃ k, m = k + 1 := ⟨m - 1, by omega⟩
      refine h.congr _ _ s (unroll_shrinks h hstop n) (unroll_shrinks h hstop m) fun t ht => ?_
      exact ih (by omega) (by omega)

/-- **The recursion equation.** -/
theorem run_eq (h : Descends size left body) (hstop : Shrinks size left stop) (s : σ) :
    run size body stop s = body (run size body stop) s := by
  refine h.congr _ _ s (unroll_shrinks h hstop _) (fun t => unroll_shrinks h hstop _ t) fun t ht => ?_
  exact unroll_congr h hstop ht (Nat.lt_succ_self _)

theorem run_shrinks (h : Descends size left body) (hstop : Shrinks size left stop) :
    Shrinks size left (run size body stop) :=
  fun s => unroll_shrinks h hstop _ s

-- The equation is all there is to know; unfolding the rounds leads nowhere.
attribute [irreducible] run

end Descent
