import CS24.Lib.System

/-!
# Simulations

A system refines another one if the states of the two can be related such that each of its steps
is matched by steps of the other, or by none.  Then every state that it reaches is related to one
that the other reaches, so what is an invariant there is one here.  Where steps have labels, a
view that keeps the labels shows each run as a run of the other system in which the same is done.
-/

namespace System

open Relation

variable {σ τ : Type*}

/-- Steps of the first system are matched by steps of the second. -/
structure Simulates (init : σ → Prop) (step : σ → σ → Prop) (init' : τ → Prop) (step' : τ → τ → Prop)
    (rel : σ → τ → Prop) : Prop where
  starts : ∀ s, init s → ∃ a, init' a ∧ rel s a
  steps : ∀ s t a, Reach init step s → rel s a → step s t → ∃ b, ReflTransGen step' a b ∧ rel t b

section Simulates

variable {init : σ → Prop} {step : σ → σ → Prop} {init' : τ → Prop} {step' : τ → τ → Prop}
  {rel : σ → τ → Prop} {s : σ} {a b : τ}

/-- What is reached from a state that is reached. -/
theorem Reach.steps (h : Reach init' step' a) (hsteps : ReflTransGen step' a b) :
    Reach init' step' b := by
  induction hsteps with
  | refl => exact h
  | tail _ hstep ih => exact ih.step hstep

/-- **The simulation rule.** By induction on the run. -/
theorem Simulates.reach (h : Simulates init step init' step' rel) (hreach : Reach init step s) :
    ∃ a, Reach init' step' a ∧ rel s a := by
  induction hreach with
  | init hs =>
      obtain ⟨a, ha, hrel⟩ := h.starts _ hs
      exact ⟨a, .init ha, hrel⟩
  | step hr hs ih =>
      obtain ⟨a, ha, hrel⟩ := ih
      obtain ⟨b, hsteps, hrel'⟩ := h.steps _ _ a hr hrel hs
      exact ⟨b, ha.steps hsteps, hrel'⟩

/-- The rule for a system whose states are seen through a function. -/
theorem Reach.image {view : σ → τ} (hreach : Reach init step s) (hinit : ∀ s, init s → init' (view s))
    (hstep : ∀ s t, Reach init step s → step s t → ReflTransGen step' (view s) (view t)) :
    Reach init' step' (view s) := by
  have hsim : Simulates init step init' step' fun s a => a = view s := by
    refine ⟨fun s hs => ⟨view s, hinit s hs, rfl⟩, ?_⟩
    rintro s t _ hr rfl hs
    exact ⟨view t, hstep s t hr hs, rfl⟩
  obtain ⟨_, ha, rfl⟩ := hsim.reach hreach
  exact ha

end Simulates

section Traces

variable {α : Type*} {init : σ → Prop} {step : α → σ → σ → Prop} {init' : τ → Prop}
  {step' : α → τ → τ → Prop} {s : σ} {acts : List α}

/-- Finite runs, and what is done in them, the first step first. -/
inductive Trace (init : σ → Prop) (step : α → σ → σ → Prop) : List α → σ → Prop
  | init {s : σ} (h : init s) : Trace init step [] s
  | step {acts : List α} {act : α} {s t : σ} (h : Trace init step acts s) (hs : step act s t) :
      Trace init step (acts ++ [act]) t

/-- The labels may be forgotten. -/
theorem reach_iff_trace :
    Reach init (fun s t => ∃ act, step act s t) s ↔ ∃ acts, Trace init step acts s := by
  constructor
  · intro h
    induction h with
    | init h => exact ⟨[], .init h⟩
    | step _ hs ih =>
        obtain ⟨act, hs⟩ := hs
        obtain ⟨acts, ih⟩ := ih
        exact ⟨acts ++ [act], ih.step hs⟩
  · rintro ⟨acts, h⟩
    induction h with
    | init h => exact .init h
    | step _ hs ih => exact ih.step ⟨_, hs⟩

/-- **The rule for runs with labels.** By induction on the run. -/
theorem Trace.image {view : σ → τ} (h : Trace init step acts s)
    (hinit : ∀ s, init s → init' (view s))
    (hstep : ∀ act s t, Reach init (fun s t => ∃ act, step act s t) s → step act s t →
      step' act (view s) (view t)) : Trace init' step' acts (view s) := by
  induction h with
  | init hs => exact .init (hinit _ hs)
  | step h hs ih => exact ih.step (hstep _ _ _ (reach_iff_trace.mpr ⟨_, h⟩) hs)

end Traces

end System
