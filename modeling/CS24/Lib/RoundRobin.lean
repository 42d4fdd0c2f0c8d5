import Mathlib

/-!
# Round robin

Places on a ring are asked one after the other, and the first that is ready is chosen.  A place
that is ready is passed over only by places that come before it, and each choice brings the search
closer to it.  So it is chosen before the ring has gone round once.
-/

namespace RoundRobin

variable {n turns cur p q k : ℕ} {ready : ℕ → Prop} [DecidablePred ready]

/-- The first place behind `cur` that is ready, if it is among the next `turns` ones. -/
def next (n : ℕ) (ready : ℕ → Prop) [DecidablePred ready] : ℕ → ℕ → Option ℕ
  | 0, _ => none
  | turns + 1, cur =>
    if ready ((cur + 1) % n) then some ((cur + 1) % n) else next n ready turns ((cur + 1) % n)

/-- How many places are asked before `p`. -/
def distance (n cur p : ℕ) : ℕ := (p + n - (cur + 1) % n) % n

theorem add_mod_succ (n cur k : ℕ) : ((cur + 1) % n + 1 + k) % n = (cur + 1 + (k + 1)) % n := by
  rw [show cur + 1 + (k + 1) = cur + 1 + 1 + k by omega, Nat.add_mod _ k, Nat.add_mod _ 1,
    Nat.mod_mod, ← Nat.add_mod _ 1, ← Nat.add_mod]

/-- **The choice.** It is the first place that is ready.  By induction on the number of places that
are asked. -/
theorem next_eq_some_iff :
    next n ready turns cur = some p ↔ ∃ k < turns, p = (cur + 1 + k) % n ∧ ready p ∧
      ∀ j < k, ¬ready ((cur + 1 + j) % n) := by
  induction turns generalizing cur with
  | zero => simp [next]
  | succ turns ih =>
      rw [next]
      split_ifs with hready
      · constructor
        · intro h
          obtain rfl := Option.some.inj h
          exact ⟨0, Nat.succ_pos _, rfl, hready, fun j hj => absurd hj (Nat.not_lt_zero _)⟩
        · rintro ⟨k, -, rfl, -, hfirst⟩
          cases k with
          | zero => rfl
          | succ k => exact absurd hready (hfirst 0 (Nat.succ_pos _))
      · rw [ih]
        constructor
        · rintro ⟨k, hk, rfl, hp, hfirst⟩
          refine ⟨k + 1, by omega, add_mod_succ n cur k, hp, fun j hj => ?_⟩
          cases j with
          | zero => exact hready
          | succ j =>
              rw [← add_mod_succ]
              exact hfirst j (by omega)
        · rintro ⟨k, hk, rfl, hp, hfirst⟩
          cases k with
          | zero => exact absurd hp hready
          | succ k =>
              refine ⟨k, by omega, (add_mod_succ n cur k).symm, hp, fun j hj => ?_⟩
              rw [add_mod_succ]
              exact hfirst (j + 1) (by omega)

theorem next_lt (hn : 0 < n) (h : next n ready turns cur = some p) : p < n := by
  obtain ⟨k, -, rfl, -⟩ := next_eq_some_iff.mp h
  exact Nat.mod_lt _ hn

theorem next_ready (h : next n ready turns cur = some p) : ready p := by
  obtain ⟨k, -, -, hp, -⟩ := next_eq_some_iff.mp h
  exact hp

theorem distance_lt (hn : 0 < n) : distance n cur p < n := Nat.mod_lt _ hn

/-- The place at its distance. -/
theorem distance_spec (hp : p < n) : (cur + 1 + distance n cur p) % n = p := by
  have hlt : (cur + 1) % n < n := Nat.mod_lt _ (by omega)
  rw [← Nat.mod_add_mod, distance]
  generalize (cur + 1) % n = c at hlt
  rcases Nat.lt_or_ge p c with hpc | hcp
  · rw [Nat.mod_eq_of_lt (show p + n - c < n by omega), show c + (p + n - c) = p + n by omega,
      Nat.add_mod_right, Nat.mod_eq_of_lt hp]
  · rw [show p + n - c = p - c + n by omega, Nat.add_mod_right, Nat.mod_eq_of_lt (show p - c < n by omega),
      show c + (p - c) = p by omega, Nat.mod_eq_of_lt hp]

/-- On one round a place is asked once. -/
theorem eq_distance (hk : k < n) (hp : (cur + 1 + k) % n = p) : k = distance n cur p := by
  have hlt : (cur + 1) % n < n := Nat.mod_lt _ (by omega)
  rw [← Nat.mod_add_mod] at hp
  rw [distance]
  generalize (cur + 1) % n = c at hlt hp
  rcases Nat.lt_or_ge (c + k) n with hsmall | hlarge
  · rw [Nat.mod_eq_of_lt hsmall] at hp
    rw [show p + n - c = k + n by omega, Nat.add_mod_right, Nat.mod_eq_of_lt hk]
  · rw [show c + k = c + k - n + n by omega, Nat.add_mod_right, Nat.mod_eq_of_lt (by omega)] at hp
    rw [show p + n - c = k by omega, Nat.mod_eq_of_lt hk]

/-- **Nothing is found** on one round only if no place is ready. -/
theorem next_eq_none_iff (hn : 0 < n) : next n ready n cur = none ↔ ∀ p < n, ¬ready p := by
  constructor
  · intro hnone p hp hready
    -- otherwise there is a first place that is ready
    have hex : ∃ k, ready ((cur + 1 + k) % n) := ⟨distance n cur p, by rwa [distance_spec hp]⟩
    classical
    have hle := Nat.find_min' hex (m := distance n cur p) (by rwa [distance_spec hp])
    have hsome : next n ready n cur = some ((cur + 1 + Nat.find hex) % n) :=
      next_eq_some_iff.mpr ⟨Nat.find hex, hle.trans_lt (distance_lt hn), rfl, Nat.find_spec hex,
        fun j hj => Nat.find_min hex hj⟩
    cases hnone.symm.trans hsome
  · intro h
    rw [Option.eq_none_iff_forall_ne_some]
    intro p hp
    exact h p (next_lt hn hp) (next_ready hp)

/-- To go on for longer than one round finds nothing else. -/
theorem next_eq_of_le (hn : 0 < n) (hle : n ≤ turns) : next n ready turns cur = next n ready n cur := by
  refine Option.ext fun p => ?_
  rw [next_eq_some_iff, next_eq_some_iff]
  constructor
  · rintro ⟨k, hk, rfl, hp, hfirst⟩
    refine ⟨k, ?_, rfl, hp, hfirst⟩
    by_contra hlarge
    refine hfirst (k - n) (by omega) ?_
    rwa [← Nat.add_mod_right, show cur + 1 + (k - n) + n = cur + 1 + k by omega]
  · rintro ⟨k, hk, h⟩
    exact ⟨k, by omega, h⟩

/-- **Each choice brings the search closer** to a place that is ready. -/
theorem distance_next_lt (hready : ready p) (hp : p < n) (h : next n ready turns cur = some q)
    (hne : q ≠ p) : distance n q p < distance n cur p := by
  obtain ⟨k, -, rfl, -, hfirst⟩ := next_eq_some_iff.mp h
  have hspec : (cur + 1 + distance n cur p) % n = p := distance_spec hp
  have hlt : k < distance n cur p := by
    refine lt_of_le_of_ne ?_ ?_
    · by_contra hlarge
      exact hfirst _ (Nat.not_le.mp hlarge) (hspec.symm ▸ hready)
    · rintro rfl
      exact hne hspec
  have hd : distance n cur p < n := distance_lt (Nat.zero_lt_of_lt hp)
  have hleft : (((cur + 1 + k) % n) + 1 + (distance n cur p - k - 1)) % n = p := by
    rw [Nat.add_assoc, Nat.mod_add_mod,
      show cur + 1 + k + (1 + (distance n cur p - k - 1)) = cur + 1 + distance n cur p by omega, hspec]
  rw [← eq_distance (by omega) hleft]
  omega

end RoundRobin
