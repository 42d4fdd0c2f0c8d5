import Mathlib

/-!
# Transition systems

A system is a predicate on initial states and a step relation.  Safety is shown
by one rule: what holds initially and is preserved by every step holds in every
reachable state.  A relation with finitely many sources leads on without end only
along a circle.
-/

namespace System

open Relation

variable {σ : Type*} {init : σ → Prop} {step : σ → σ → Prop}

/-- The states of finite runs. -/
inductive Reach (init : σ → Prop) (step : σ → σ → Prop) : σ → Prop
  | init {s : σ} : init s → Reach init step s
  | step {s t : σ} : Reach init step s → step s t → Reach init step t

/-- **The invariant rule.** -/
theorem Reach.invariant {I : σ → Prop} {s : σ} (h : Reach init step s)
    (hinit : ∀ s, init s → I s) (hstep : ∀ s t, I s → step s t → I t) : I s := by
  induction h with
  | init h => exact hinit _ h
  | step _ hs ih => exact hstep _ _ ih hs

/-- A preserved property may use that the state before the step is reachable. -/
theorem Reach.invariant_of_reach {I : σ → Prop} {s : σ} (h : Reach init step s)
    (hinit : ∀ s, init s → I s)
    (hstep : ∀ s t, Reach init step s → I s → step s t → I t) : I s := by
  induction h with
  | init h => exact hinit _ h
  | step hr hs ih => exact hstep _ _ hr ih hs

section Ends

variable {r : σ → σ → Prop} {start : σ}

/-- If from `start` there is no way into a circle, every way from there ends. -/
theorem acc_of_acyclic (hfinite : {a | ∃ b, r a b}.Finite)
    (hacyclic : ∀ a, ReflTransGen r start a → ¬ TransGen r a a) : Acc (fun b a => r a b) start := by
  let sources := {a // ReflTransGen r start a ∧ ∃ b, r a b}
  have hsources : Finite sources := (hfinite.subset fun a ha => ha.2).to_subtype
  have htrans : IsTrans sources fun b a => TransGen r a.1 b.1 := ⟨fun _ _ _ h h' => h'.trans h⟩
  have hirrefl : Std.Irrefl fun b a : sources => TransGen r a.1 b.1 :=
    ⟨fun a => hacyclic a.1 a.2.1⟩
  have hwf : WellFounded fun b a : sources => TransGen r a.1 b.1 :=
    Finite.wellFounded_of_trans_of_irrefl _
  have hacc : ∀ a : sources, Acc (fun b a => r a b) a.1 := by
    intro a
    induction a using hwf.induction with
    | _ a ih =>
        refine ⟨_, ?_⟩
        intro b hab
        by_cases hb : ∃ c, r b c
        · exact ih ⟨b, a.2.1.tail hab, hb⟩ (.single hab)
        · exact ⟨_, fun c hbc => absurd ⟨c, hbc⟩ hb⟩
  by_cases hstart : ∃ b, r start b
  · exact hacc ⟨start, .refl, hstart⟩
  · exact ⟨_, fun b hb => absurd ⟨b, hb⟩ hstart⟩

/-- A way along which a number falls does not come back. -/
theorem not_transGen_self {P : Nat → σ → Prop} (hstep : ∀ n a b, P n a → r a b → ∃ m < n, P m b)
    {n : Nat} {a : σ} (h : P n a) : ¬ TransGen r a a := by
  have hfalls : ∀ {a b}, TransGen r a b → ∀ n, P n a → ∃ m < n, P m b := by
    intro a b hab
    induction hab with
    | single hab => exact fun n ha => hstep n _ _ ha hab
    | tail _ hbc ih =>
        intro n ha
        obtain ⟨m, hm, hb⟩ := ih n ha
        obtain ⟨k, hk, hc⟩ := hstep m _ _ hb hbc
        exact ⟨k, hk.trans hm, hc⟩
  intro haa
  induction n using Nat.strong_induction_on with
  | _ n ih =>
      obtain ⟨m, hm, ha⟩ := hfalls haa n h
      exact ih m hm ha

end Ends

end System
