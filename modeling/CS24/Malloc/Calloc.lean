import CS24.Malloc.Client

/-!
# `mm_calloc`

Both allocators write it in terms of their `mm_malloc`: the product is taken in
`size_t` arithmetic, and the payload is cleared without a look at the pointer.
A call that returns is a call of `mm_malloc` followed by writes to the new
payload, so it leads to no state that clients do not reach without it.
-/

namespace Malloc

open Bytes System

variable {σ : Type}

/-- Allocates a block and sets it to zero. -/
def Allocator.calloc (A : Arena) (M : Allocator σ) (nmemb size : Nat) (refuse : Bool) (s : σ) :
    Option (Nat × σ) :=
  let totalSize := nmemb * size % 2 ^ 64
  if totalSize = 0 then some (NULL, s)
  else do
    let (payload, s) ← M.malloc totalSize refuse s
    let m ← memset A payload 0 totalSize (M.lib s)
    some (payload, M.withMem s m.mem)

/-- The steps of clients that also call `mm_calloc`. -/
inductive CallocMoves (A : Arena) (M : Allocator σ) (sizes : Nat → Prop) :
    Client σ → Client σ → Prop
  | move {c d : Client σ} : Moves M sizes c d → CallocMoves A M sizes c d
  | calloc {c : Client σ} {nmemb size : Nat} {r : Bool} {q : Nat} {s : σ} :
      nmemb * size % 2 ^ 64 = 0 ∨ sizes (nmemb * size) →
      M.calloc A nmemb size r c.heap = some (q, s) →
      CallocMoves A M sizes c ⟨s, liveAfter c.live (.malloc (nmemb * size)) q⟩

/-- The states that clients can reach with all four functions of `mm.h`. -/
abbrev CallocReachable (A : Arena) (M : Allocator σ) (sizes : Nat → Prop) : Client σ → Prop :=
  Reach (Starts A M) (CallocMoves A M sizes)

/-- What is reachable with fewer sizes. -/
theorem Reachable.mono {A : Arena} {M : Allocator σ} {sizes sizes' : Nat → Prop}
    {c : Client σ} (h : Reachable A M sizes c) (hs : ∀ n, sizes n → sizes' n) :
    Reachable A M sizes' c := by
  induction h with
  | init h => exact .init h
  | step _ hstep ih =>
      cases hstep with
      | call hk hrun => exact .step ih (.call ⟨hk.1, fun n hn => hs n (hk.2 n hn)⟩ hrun)
      | write hmem hi => exact .step ih (.write hmem hi)

theorem Reachable.calloc {A : Arena} {M : Allocator σ} {sizes : Nat → Prop} {c : Client σ}
    (h : Reachable A M sizes c) : CallocReachable A M sizes c := by
  induction h with
  | init h => exact .init h
  | step _ hs ih => exact .step ih (.move hs)

/-- Writing the memory is replacing it and nothing else. -/
structure Allocator.Lawful (M : Allocator σ) : Prop where
  lib_withMem : ∀ s m, M.lib (M.withMem s m) = { M.lib s with mem := m }
  withMem_withMem : ∀ s m m', M.withMem (M.withMem s m) m' = M.withMem s m'
  withMem_lib : ∀ s, M.withMem s (M.lib s).mem = s

variable {A : Arena} {M : Allocator σ} {sizes : Nat → Prop} {s t : σ} {live : Live}
  {p q n nmemb size : Nat} {r : Bool}

/-- A `memset` of `n` bytes at `NULL` traps, and so does one of more bytes than the
arena has. -/
theorem memset_some {b : UInt8} {lib m : Memlib} (h : memset A p b n lib = some m)
    (hn : n ≠ 0) : p ≠ NULL ∧ Accessible A p n lib ∧ m = { lib with mem := fill lib.mem p b n } := by
  unfold memset at h
  by_cases hacc : n = 0 ∨ Accessible A p n lib
  · have hacc' := hacc.resolve_left hn
    have hpos := A.heap_pos
    rw [if_pos hacc] at h
    refine ⟨fun hp => ?_, hacc', (Option.some.inj h).symm⟩
    have := hacc'.1
    rw [hp, NULL] at this
    omega
  · rw [if_neg hacc] at h
    cases h

/-- A product that wraps to zero allocates nothing. -/
theorem calloc_zero (h : nmemb * size % 2 ^ 64 = 0) :
    M.calloc A nmemb size r s = some (NULL, s) := if_pos h

/-- A call that returns has called `mm_malloc` and cleared the payload, unless the product
wraps to zero. -/
theorem calloc_some (h : M.calloc A nmemb size r s = some (q, t))
    (hn : nmemb * size % 2 ^ 64 ≠ 0) :
    ∃ u, M.malloc (nmemb * size % 2 ^ 64) r s = some (q, u) ∧ q ≠ NULL ∧
      Accessible A q (nmemb * size % 2 ^ 64) (M.lib u) ∧
      t = M.withMem u (fill (M.lib u).mem q 0 (nmemb * size % 2 ^ 64)) := by
  unfold Allocator.calloc at h
  simp only [hn, if_false] at h
  obtain ⟨⟨p, u⟩, hmalloc, h⟩ := Option.bind_eq_some_iff.mp h
  obtain ⟨m, hset, h⟩ := Option.bind_eq_some_iff.mp h
  obtain ⟨rfl, rfl⟩ := Prod.mk.inj (Option.some.inj h)
  obtain ⟨hp, hacc, rfl⟩ := memset_some hset hn
  exact ⟨u, hmalloc, hp, hacc, rfl⟩

/-- A client can clear a payload byte by byte. -/
theorem reachable_fill (hM : M.Lawful) {b : UInt8} (h : Reachable A M sizes ⟨s, live⟩)
    (hlive : (p, n) ∈ live) {k : Nat} (hk : k ≤ n) :
    Reachable A M sizes ⟨M.withMem s (fill (M.lib s).mem p b k), live⟩ := by
  induction k with
  | zero =>
      have hfill : fill (M.lib s).mem p b 0 = (M.lib s).mem := by
        funext i
        exact fill_other (by omega)
      rwa [hfill, hM.withMem_lib]
  | succ k ih =>
      have hstep : Moves M sizes ⟨M.withMem s (fill (M.lib s).mem p b k), live⟩ _ :=
        .write (b := b) hlive (show k < n by omega)
      have hfill : store8 (fill (M.lib s).mem p b k) (p + k) b = fill (M.lib s).mem p b (k + 1) := by
        funext i
        unfold store8 fill
        grind
      simp only [hM.lib_withMem, hM.withMem_withMem, hfill] at hstep
      exact .step (ih (by omega)) hstep

/-- **`mm_calloc` reaches nothing new.** -/
theorem CallocReachable.reachable (hM : M.Lawful) (hsizes : ∀ n, sizes n → n ≤ SIZE_MAX)
    {c : Client σ} (h : CallocReachable A M sizes c) : Reachable A M sizes c := by
  induction h with
  | init h => exact .init h
  | @step c _ _ hs ih =>
      cases hs with
      | move hs => exact .step ih hs
      | @calloc nmemb size r q s hn hrun =>
          rcases eq_or_ne (nmemb * size % 2 ^ 64) 0 with h0 | h0
          · rw [calloc_zero h0] at hrun
            obtain ⟨rfl, rfl⟩ := Prod.mk.inj (Option.some.inj hrun)
            simpa [liveAfter, Call.requested] using ih
          · have hn' : sizes (nmemb * size) := hn.resolve_left h0
            have hmod : nmemb * size % 2 ^ 64 = nmemb * size := by
              have := hsizes _ hn'
              unfold SIZE_MAX at this
              omega
            rw [hmod] at h0
            obtain ⟨u, hmalloc, hq, -, rfl⟩ := calloc_some hrun (hmod.symm ▸ h0)
            rw [hmod] at hmalloc ⊢
            have hallowed : Allowed sizes c.live (.malloc (nmemb * size)) :=
              ⟨Or.inl rfl, fun n he => Option.some.inj he ▸ hn'⟩
            have hstep : Moves M sizes c ⟨u, liveAfter c.live (.malloc (nmemb * size)) q⟩ :=
              .call hallowed hmalloc
            refine reachable_fill hM (.step ih hstep) ?_ (le_refl _)
            simp [liveAfter, Call.requested, hq]

end Malloc
