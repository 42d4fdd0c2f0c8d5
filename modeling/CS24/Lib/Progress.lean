import CS24.Lib.System

/-!
# Runs of bounded length

Most steps of a system lower a weight; a few kinds of moves, over which it has no
say, may raise it by so much.  Then the moves that come in between are all that
lengthens a run, and a run that cannot be continued but by them has done its work.
-/

namespace System

variable {σ : Type*} {step move : σ → σ → Prop} {start s t : σ} {a b : Nat}

/-- A run of `a` steps with `b` moves in between. -/
inductive Counted (step move : σ → σ → Prop) (start : σ) : Nat → Nat → σ → Prop
  | refl : Counted step move start 0 0 start
  | step {a b : Nat} {s t : σ} :
      Counted step move start a b s → step s t → Counted step move start (a + 1) b t
  | move {a b : Nat} {s t : σ} :
      Counted step move start a b s → move s t → Counted step move start a (b + 1) t

/-- What every step and every move keeps. -/
theorem Counted.invariant {I : σ → Prop} (h : Counted step move start a b s) (hstart : I start)
    (hstep : ∀ s t, I s → step s t → I t) (hmove : ∀ s t, I s → move s t → I t) : I s := by
  induction h with
  | refl => exact hstart
  | step _ hs ih => exact hstep _ _ ih hs
  | move _ hm ih => exact hmove _ _ ih hm

/-- **The length of a run.** -/
theorem Counted.length_le {I : σ → Prop} (weight : σ → Nat) (c : Nat) (h : Counted step move start a b s)
    (hstart : I start) (hkeep : ∀ s t, I s → step s t ∨ move s t → I t)
    (hstep : ∀ s t, I s → step s t → weight t < weight s)
    (hmove : ∀ s t, I s → move s t → weight t ≤ weight s + c) :
    a + weight s ≤ weight start + c * b := by
  have hinv : ∀ {a b s}, Counted step move start a b s → I s := fun h =>
    h.invariant hstart (fun s t hs hst => hkeep s t hs (.inl hst)) fun s t hs hst =>
      hkeep s t hs (.inr hst)
  induction h with
  | refl => simp
  | step h hs ih =>
      have hlt := hstep _ _ (hinv h) hs
      omega
  | move h hm ih =>
      have hle := hmove _ _ (hinv h) hm
      rw [Nat.mul_succ]
      omega

/-- From every state a state is reached from which no step is possible. -/
theorem exists_counted_final {I : σ → Prop} (weight : σ → Nat) (hstart : I start)
    (hkeep : ∀ s t, I s → step s t → I t) (hstep : ∀ s t, I s → step s t → weight t < weight s) :
    ∃ a t, Counted step move start a 0 t ∧ I t ∧ ∀ u, ¬ step t u := by
  have hrest : ∀ k a s, Counted step move start a 0 s → I s → weight s ≤ k →
      ∃ a t, Counted step move start a 0 t ∧ I t ∧ ∀ u, ¬ step t u := by
    intro k
    induction k with
    | zero =>
        intro a s hrun hs hle
        refine ⟨a, s, hrun, hs, fun u hu => ?_⟩
        have hlt := hstep s u hs hu
        omega
    | succ k ih =>
        intro a s hrun hs hle
        by_cases hmore : ∃ u, step s u
        · obtain ⟨u, hu⟩ := hmore
          have hlt := hstep s u hs hu
          exact ih _ u (hrun.step hu) (hkeep s u hs hu) (by omega)
        · exact ⟨a, s, hrun, hs, fun u hu => hmore ⟨u, hu⟩⟩
  exact hrest _ 0 start .refl hstart le_rfl

end System
