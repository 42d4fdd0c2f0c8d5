import Mathlib

/-!
# Deterministic machines

A machine is a step function that leads to another state or stops with a result.
Its run is determined by the number of steps, so two stops of one run are the
same stop, and a machine that is still running after arbitrarily many steps never
stops.
-/

namespace Machine

variable {σ ρ ι : Type*} {step : σ → Except ρ σ} {s t : σ} {r r' : ρ} {m n : Nat}

/-- The run of `n` steps. -/
def exec (step : σ → Except ρ σ) : Nat → σ → Except ρ σ
  | 0, s => .ok s
  | n + 1, s =>
    match step s with
    | .ok s => exec step n s
    | .error r => .error r

/-- A step, and the others, -/
theorem exec_step (h : step s = .ok t) : exec step (n + 1) s = exec step n t := by
  rw [exec, h]

/-- or none. -/
theorem exec_stop (h : step s = .error r) : exec step (n + 1) s = .error r := by
  rw [exec, h]

/-- Runs compose. -/
theorem exec_add (h : exec step m s = .ok t) : exec step (m + n) s = exec step n t := by
  induction m generalizing s with
  | zero =>
      obtain rfl := Except.ok.inj h
      rw [Nat.zero_add]
  | succ m ih =>
      rw [Nat.succ_add, exec]
      rw [exec] at h
      cases hs : step s with
      | error r =>
          rw [hs] at h
          cases h
      | ok u =>
          rw [hs] at h
          exact ih h

/-- A machine that has stopped has stopped for good. -/
theorem exec_error_add (h : exec step m s = .error r) : exec step (m + n) s = .error r := by
  induction m generalizing s with
  | zero => cases h
  | succ m ih =>
      rw [Nat.succ_add, exec]
      rw [exec] at h
      cases hs : step s with
      | error r' =>
          rw [hs] at h
          exact h
      | ok u =>
          rw [hs] at h
          exact ih h

/-- A run stops in one way. -/
theorem stop_unique (h : exec step m s = .error r) (h' : exec step n s = .error r') :
    r = r' := by
  have h1 : exec step (m + n) s = .error r := exec_error_add h
  have h2 : exec step (n + m) s = .error r' := exec_error_add h'
  rw [Nat.add_comm, h1] at h2
  exact Except.error.inj h2

/-- Before a state of the run there were only states. -/
theorem exec_le (h : exec step n s = .ok t) (hm : m ≤ n) : ∃ u, exec step m s = .ok u := by
  cases hu : exec step m s with
  | ok u => exact ⟨u, rfl⟩
  | error r =>
      have hstop : exec step (m + (n - m)) s = .error r := exec_error_add hu
      rw [Nat.add_sub_cancel' hm, h] at hstop
      cases hstop

/-- What every step preserves, every run preserves. -/
theorem exec_preserves {I : σ → Prop} (hI : ∀ s t, I s → step s = .ok t → I t)
    (hs : I s) (h : exec step n s = .ok t) : I t := by
  induction n generalizing s with
  | zero =>
      obtain rfl := Except.ok.inj h
      exact hs
  | succ n ih =>
      rw [exec] at h
      cases hu : step s with
      | error r =>
          rw [hu] at h
          cases h
      | ok u =>
          rw [hu] at h
          exact ih (hI s u hs hu) h

/-- A stop comes from a last state. -/
theorem exec_error_last (h : exec step n s = .error r) :
    ∃ m t, exec step m s = .ok t ∧ step t = .error r := by
  induction n generalizing s with
  | zero => cases h
  | succ n ih =>
      rw [exec] at h
      cases hs : step s with
      | error r' =>
          rw [hs] at h
          obtain rfl := Except.error.inj h
          exact ⟨0, s, rfl, hs⟩
      | ok u =>
          rw [hs] at h
          obtain ⟨m, t, hm, ht⟩ := ih h
          exact ⟨m + 1, t, (exec_step hs).trans hm, ht⟩

/-- `s` runs into `t`, in at least `k` steps. -/
def Runs (step : σ → Except ρ σ) (k : Nat) (s t : σ) : Prop :=
  ∃ n ≥ k, exec step n s = .ok t

/-- `s` runs into the stop `r`. -/
def Stops (step : σ → Except ρ σ) (s : σ) (r : ρ) : Prop := ∃ n, exec step n s = .error r

/-- No step is a run, -/
theorem Runs.refl : Runs step 0 s s := ⟨0, le_refl 0, rfl⟩

/-- a step is one, -/
theorem Runs.single (h : step s = .ok t) : Runs step 1 s t := ⟨1, le_refl 1, by rw [exec_step h, exec]⟩

/-- and so is a run behind another one. -/
theorem Runs.trans {u : σ} (h : Runs step m s t) (h' : Runs step n t u) :
    Runs step (m + n) s u := by
  obtain ⟨i, hi, h⟩ := h
  obtain ⟨j, hj, h'⟩ := h'
  exact ⟨i + j, Nat.add_le_add hi hj, (exec_add h).trans h'⟩

/-- Fewer steps may be counted. -/
theorem Runs.mono (h : Runs step n s t) (hm : m ≤ n) : Runs step m s t := by
  obtain ⟨i, hi, h⟩ := h
  exact ⟨i, hm.trans hi, h⟩

/-- A machine that runs to where it stops stops. -/
theorem Runs.stops (h : Runs step n s t) (h' : Stops step t r) : Stops step s r := by
  obtain ⟨i, -, h⟩ := h
  obtain ⟨j, h'⟩ := h'
  exact ⟨i + j, (exec_add h).trans h'⟩

/-- It stops when its step fails. -/
theorem Stops.single (h : step s = .error r) : Stops step s r := ⟨1, exec_stop h⟩

/-! ## What can be observed of a run -/

section Observe

variable {α : Type*} {out : σ → List α} {outStop : ρ → List α}

/-- The output after `n` steps, or at the stop before. -/
def observe (step : σ → Except ρ σ) (out : σ → List α) (outStop : ρ → List α) (n : Nat) (s : σ) :
    List α :=
  match exec step n s with
  | .ok t => out t
  | .error r => outStop r

/-- Output that steps only add to grows along a run. -/
theorem observe_mono (hout : ∀ s t, step s = .ok t → out s <+: out t)
    (hstop : ∀ s r, step s = .error r → out s <+: outStop r) (hm : m ≤ n) :
    observe step out outStop m s <+: observe step out outStop n s := by
  induction n, hm using Nat.le_induction with
  | base => exact List.prefix_rfl
  | succ n hmn ih =>
      refine ih.trans ?_
      cases hexec : exec step n s with
      | error r =>
          have hnext : exec step (n + 1) s = .error r := exec_error_add hexec
          rw [observe, observe, hexec, hnext]
      | ok t =>
          have hnext : exec step (n + 1) s = exec step 1 t := exec_add hexec
          rw [observe, observe, hexec, hnext]
          cases ht : step t with
          | ok u =>
              rw [exec_step ht]
              exact hout t u ht
          | error r =>
              rw [exec_stop ht]
              exact hstop t r ht

end Observe

/-! ## Interpreters with fuel -/

section Fuel

variable {α β γ : Type*} {verdict : Nat → α ⊕ β} {matched : α → ρ → Prop} {pending : β → σ → Prop}

/-- An interpreter with fuel follows the machine from `s`: where it comes to a verdict
the machine stops accordingly, and where the fuel is used up the machine has taken as
many steps, to a state that fits. -/
def FollowedBy (step : σ → Except ρ σ) (s : σ) (matched : α → ρ → Prop) (pending : β → σ → Prop)
    (verdict : Nat → α ⊕ β) : Prop :=
  ∀ fuel, (∃ a r, verdict fuel = .inl a ∧ Stops step s r ∧ matched a r) ∨
    ∃ b t, verdict fuel = .inr b ∧ Runs step fuel s t ∧ pending b t

/-- Every stop of the machine is one that the interpreter comes to. -/
theorem FollowedBy.verdict_of_stops (h : FollowedBy step s matched pending verdict)
    (hr : Stops step s r) : ∃ fuel a, verdict fuel = .inl a ∧ matched a r := by
  obtain ⟨n, hn⟩ := hr
  rcases h n with ⟨a, r', hv, ⟨n', hn'⟩, hmatched⟩ | ⟨b, t, -, ⟨n', hle, hn'⟩, -⟩
  · rw [stop_unique hn hn']
    exact ⟨n, a, hv, hmatched⟩
  · obtain ⟨u, hu⟩ := exec_le hn' hle
    rw [hn] at hu
    cases hu

/-- What the interpreter comes to is a stop of the machine. -/
theorem FollowedBy.stops_of_verdict (h : FollowedBy step s matched pending verdict) {fuel : Nat}
    {a : α} (ha : verdict fuel = .inl a) : ∃ r, Stops step s r ∧ matched a r := by
  rcases h fuel with ⟨a', r, hv, hr, hmatched⟩ | ⟨b, t, hv, -⟩
  · rw [ha] at hv
    cases hv
    exact ⟨r, hr, hmatched⟩
  · rw [ha] at hv
    cases hv

/-- The interpreter never comes to a verdict if and only if the machine runs for ever. -/
theorem FollowedBy.diverges_iff (h : FollowedBy step s matched pending verdict) :
    (∀ fuel, ∃ b, verdict fuel = .inr b) ↔ ∀ n, ∃ t, exec step n s = .ok t := by
  constructor
  · intro hpending n
    rcases h n with ⟨a, r, hv, -⟩ | ⟨b, t, -, ⟨n', hle, hn'⟩, -⟩
    · obtain ⟨b, hb⟩ := hpending n
      rw [hv] at hb
      cases hb
    · exact exec_le hn' hle
  · intro hruns fuel
    rcases h fuel with ⟨a, r, -, ⟨n, hn⟩, -⟩ | ⟨b, t, hv, -⟩
    · obtain ⟨t, ht⟩ := hruns n
      rw [hn] at ht
      cases ht
    · exact ⟨b, hv⟩

/-- **Finite prefixes.** What the interpreter shows with some fuel is what the machine
shows at some point, and the other way round. -/
theorem FollowedBy.shows_iff (h : FollowedBy step s matched pending verdict)
    {out : σ → List γ} {outStop : ρ → List γ} {A : α → List γ} {B : β → List γ}
    (hout : ∀ s t, step s = .ok t → out s <+: out t)
    (hstop : ∀ s r, step s = .error r → out s <+: outStop r)
    (hmatched : ∀ a r, matched a r → outStop r = A a)
    (hpending : ∀ b t, pending b t → out t = B b) (l : List γ) :
    (∃ fuel, l <+: (verdict fuel).elim A B) ↔ ∃ n, l <+: observe step out outStop n s := by
  constructor
  · rintro ⟨fuel, hl⟩
    rcases h fuel with ⟨a, r, hv, ⟨n, hn⟩, hr⟩ | ⟨b, t, hv, ⟨n, -, hn⟩, ht⟩
    · refine ⟨n, ?_⟩
      rw [hv, Sum.elim_inl, ← hmatched a r hr] at hl
      rwa [observe, hn]
    · refine ⟨n, ?_⟩
      rw [hv, Sum.elim_inr, ← hpending b t ht] at hl
      rwa [observe, hn]
  · rintro ⟨n, hl⟩
    rcases h n with ⟨a, r, hv, ⟨m, hm⟩, hr⟩ | ⟨b, t, hv, ⟨m, hle, hm⟩, ht⟩
    · refine ⟨n, hl.trans ?_⟩
      have hgrow := observe_mono (s := s) hout hstop (Nat.le_add_left n m)
      have hlast : exec step (m + n) s = .error r := exec_error_add hm
      rw [hv, Sum.elim_inl, ← hmatched a r hr]
      rwa [observe.eq_def _ _ _ (m + n), hlast] at hgrow
    · refine ⟨n, hl.trans ?_⟩
      have hgrow := observe_mono (s := s) hout hstop hle
      rw [hv, Sum.elim_inr, ← hpending b t ht]
      rwa [observe.eq_def _ _ _ m, hm] at hgrow

end Fuel

end Machine
