import CS24.Malloc.ExplicitCalls
import CS24.Malloc.ImplicitCalls

/-!
# How the heap grows

`mm_malloc` moves the break only when no free block is large enough, and then by
the size of one block; `mm_realloc` moves it only through `mm_malloc`, and
`mm_free` not at all.  A call fails only when the system refuses or the arena is
full.  So the sizes of the blocks asked for bound the memory that is needed.
-/

namespace Malloc

open Bytes

/-- A call that asks for a block of `need` bytes and returned `q` moves the break by that
much at most, and fails only if `mem_sbrk` does. -/
structure WithinNeed (A : Arena) (need q : Nat) (refuse : Bool) (l l' : Memlib) : Prop where
  brk_le : l'.memBrk ≤ l.memBrk + need
  fails : q = NULL → SbrkFails A need refuse l

/-- The calls of an allocator move the break by no more than the block sizes `need`, under
an invariant `Inv`. -/
structure Thrifty {σ : Type} (A : Arena) (M : Allocator σ) (sizes : Nat → Prop)
    (Inv : σ → Payloads → Prop) (need : Nat → Nat) : Prop where
  init_fails : ∀ r s, (M.lib s).memBrk = A.heap → (M.init r s).1 = false → r = true
  init_brk : ∀ r s t, (M.lib s).memBrk = A.heap → M.init r s = (true, t) →
    (M.lib t).memBrk = A.heap + 8
  malloc : ∀ s U, Inv s U → ∀ n r q t, sizes n → M.malloc n r s = some (q, t) →
    WithinNeed A (need n) q r (M.lib s) (M.lib t)
  free : ∀ s U, Inv s U → ∀ e ∈ U, ∀ t, M.free e.1 s = some t →
    (M.lib t).memBrk = (M.lib s).memBrk
  realloc : ∀ s U, Inv s U → ∀ e ∈ U, ∀ n r q t, sizes n → n ≠ 0 →
    M.realloc e.1 n r s = some (q, t) → WithinNeed A (need n) q r (M.lib s) (M.lib t)

section General

variable {σ : Type} {A : Arena} {M : Allocator σ} {sizes : Nat → Prop}
  {Inv : σ → Payloads → Prop} {need : Nat → Nat} {s t : σ} {U : Payloads} {live : Live}
  {e : Nat × Nat} {n q : Nat} {r : Bool}

/-- Moving a payload takes what `mm_malloc` takes. -/
theorem BasicContract.move_within (C : BasicContract A M sizes Inv)
    (hmalloc : ∀ q t, M.malloc n r s = some (q, t) → WithinNeed A (need n) q r (M.lib s) (M.lib t))
    (hfree : ∀ s U, Inv s U → ∀ e ∈ U, ∀ t, M.free e.1 s = some t →
      (M.lib t).memBrk = (M.lib s).memBrk)
    (h : Inv s U) (he : e ∈ U) (hn : sizes n) (hgrow : e.2 ≤ n)
    (hrun : M.move A e.1 n e.2 r s = some (q, t)) :
    WithinNeed A (need n) q r (M.lib s) (M.lib t) := by
  obtain ⟨p, u, hp, -, hres⟩ := C.malloc s U h n r hn
  have hwithin := hmalloc p u hp
  simp only [Allocator.move, hp, Option.bind_eq_bind, Option.bind_some] at hrun
  rcases hres with ⟨rfl, -⟩ | ⟨cap, hcap, hnew, hu⟩
  · obtain ⟨rfl, rfl⟩ := Prod.mk.inj (Option.some.inj hrun)
    exact hwithin
  have hpU : (p, cap) ∈ insert (p, cap) U := Or.inl rfl
  have hp0 : p ≠ NULL := (C.placed u _ hu _ hpU).1
  rw [if_neg hp0] at hrun
  obtain ⟨m, hcopy, hrun⟩ := Option.bind_eq_some_iff.mp hrun
  obtain ⟨v, hv, hrun⟩ := Option.bind_eq_some_iff.mp hrun
  obtain ⟨rfl, rfl⟩ := Prod.mk.inj (Option.some.inj hrun)
  -- the copy goes into the new payload, so the old one can still be freed
  obtain rfl : { M.lib u with mem := copy (M.lib u).mem p e.1 e.2 } = m := by
    unfold memcpy at hcopy
    split at hcopy
    · exact Option.some.inj hcopy
    · cases hcopy
  have hw := C.write u _ hu (p, cap) hpU (copy (M.lib u).mem p e.1 e.2)
    fun i hi => copy_other (by dsimp only at hi; omega)
  have hbrk := hfree _ _ hw e (Or.inr he) v hv
  rw [C.lib_withMem] at hbrk
  exact ⟨hbrk.le.trans hwithin.brk_le, fun hq => absurd hq hp0⟩

/-- **One call** of a client moves the break by the block it asks for, or not at all. -/
theorem Thrifty.run (T : Thrifty A M sizes Inv need) (C : Contract A M sizes Inv) (h : Inv s U)
    (hl : Covers U live) {k : Call} (hk : Allowed sizes live k) (hrun : M.run k r s = some (q, t)) :
    (k.requested = none → (M.lib t).memBrk = (M.lib s).memBrk) ∧
      ∀ n, k.requested = some n → WithinNeed A (need n) q r (M.lib s) (M.lib t) := by
  obtain ⟨hlive, hsize⟩ := hk
  have hfree {p : Nat} (hp : p = NULL ∨ ∃ n, (p, n) ∈ live) {u : σ} (hu : M.free p s = some u) :
      (M.lib u).memBrk = (M.lib s).memBrk := by
    rcases hp with rfl | ⟨m, hm⟩
    · obtain rfl := Option.some.inj ((C.free_null s).symm.trans hu)
      rfl
    · obtain ⟨cap, -, hcap⟩ := hl.cap _ hm
      exact T.free s U h _ hcap u hu
  cases k with
  | malloc n =>
      refine ⟨fun hnone => absurd hnone (Option.some_ne_none n), fun m hm => ?_⟩
      obtain rfl := Option.some.inj hm
      exact T.malloc s U h n r q t (hsize n rfl) hrun
  | free p =>
      obtain ⟨u, hu, heq⟩ := Option.map_eq_some_iff.mp hrun
      obtain ⟨-, rfl⟩ := Prod.mk.inj heq
      exact ⟨fun _ => hfree hlive hu, fun m hm => absurd hm.symm (Option.some_ne_none m)⟩
  | realloc p n =>
      by_cases hp : p = NULL
      · subst hp
        have hreq : (Call.realloc NULL n).requested = some n := by simp [Call.requested]
        rw [hreq]
        refine ⟨fun hnone => absurd hnone (Option.some_ne_none n), fun m hm => ?_⟩
        obtain rfl := Option.some.inj hm
        exact T.malloc s U h n r q t (hsize n hreq) ((C.realloc_null s n r).symm.trans hrun)
      · by_cases hn : n = 0
        · subst hn
          have hreq : (Call.realloc p 0).requested = none := by simp [Call.requested, hp]
          obtain ⟨u, hu, heq⟩ :=
            Option.map_eq_some_iff.mp ((C.realloc_zero s p r hp).symm.trans hrun)
          obtain ⟨-, rfl⟩ := Prod.mk.inj heq
          rw [hreq]
          exact ⟨fun _ => hfree hlive hu, fun m hm => absurd hm.symm (Option.some_ne_none m)⟩
        · have hreq : (Call.realloc p n).requested = some n := by simp [Call.requested, hn]
          rw [hreq]
          refine ⟨fun hnone => absurd hnone (Option.some_ne_none n), fun m hm => ?_⟩
          obtain rfl := Option.some.inj hm
          obtain ⟨k, hlive⟩ := hlive.resolve_left hp
          obtain ⟨cap, -, hcap⟩ := hl.cap _ hlive
          exact T.realloc s U h _ hcap n r q t (hsize n hreq) hn hrun

end General

/-! ## The explicit allocator -/

namespace Explicit

variable {A : Arena} {s t : State} {U : Payloads} {bs : List Block} {fl : List Nat} {n q : Nat}
  {r : Bool} {e : Nat × Nat}

/-- A call that finds no block grows the heap by the new one. -/
theorem CallsSbrk.brk_le {least : Nat} (hcalls : CallsSbrk A n s) (h : Settled A least s bs fl)
    (hn : RequestOk n) (hleast : least ≤ blockSize n) (hrun : mmMalloc A n r s = some (q, t)) :
    t.memBrk ≤ s.memBrk + blockSize n := by
  obtain ⟨hn16, hsize, -⟩ := blockSize_spec hn.2
  have hround : roundUp ((8 + 8 + n) % 2 ^ 64) ALIGNMENT = blockSize n := rfl
  obtain ⟨u, hfind⟩ := hcalls
  obtain ⟨p, v, hfind', hfit⟩ := findFit_spec h hn16 fun _ _ _ _ => by have := hn.1; omega
  obtain ⟨hp, rfl⟩ := Prod.mk.inj (Option.some.inj (hfind.symm.trans hfind'))
  cases hfit with
  | found hbs => exact absurd hp.symm (h.ne_null (by rw [hbs]; simp))
  | none =>
      rw [mmMalloc, hround] at hrun
      simp only [hfind, Option.bind_eq_bind, Option.bind_some, ne_eq, not_true_eq_false,
        if_false] at hrun
      rcases memSbrk_cases A (blockSize n) r s.toMemlib with ⟨he, -⟩ | ⟨he, -, hle, hne⟩
      · simp only [he, if_true] at hrun
        obtain ⟨-, rfl⟩ := Prod.mk.inj (Option.some.inj hrun)
        exact Nat.le_add_right _ _
      · obtain ⟨w, hset, -, -, -, hbrk⟩ := useNew_spec h hn16 hleast hle
        have hw : w = t := by
          simp only [he, hne, if_false] at hrun
          split at hrun <;> simp_all
        rw [← hw, hbrk]

theorem mmMalloc_within (h : Inv A s U) (hn : RequestOk n) (hrun : mmMalloc A n r s = some (q, t)) :
    WithinNeed A (blockSize n) q r s.toMemlib t.toMemlib := by
  obtain ⟨bs, fl, h, rfl⟩ := h
  have hS := settled_iff.mpr h
  have hn0 : n ≠ 0 := by have := hn.1; omega
  obtain ⟨hn16, hsize, -⟩ := blockSize_spec hn.2
  obtain ⟨q', t', hrun', hres, -⟩ := hS.malloc r hn.2 (absurd · hn0) (absurd · hn0)
  obtain ⟨rfl, rfl⟩ := Prod.mk.inj (Option.some.inj (hrun'.symm.trans hrun))
  cases hres with
  | refused _ _ hfails => exact ⟨Nat.le_add_right _ _, fun _ => hfails⟩
  | extended hcalls =>
      have := hn.1
      exact ⟨hcalls.brk_le hS hn (by omega) hrun, fun hq => by unfold NULL at hq; omega⟩
  | fitted _ _ _ _ _ hbrk => exact ⟨by omega, fun hq => by unfold NULL at hq; omega⟩

theorem mmFree_brk (h : Inv A s U) (he : e ∈ U) (hrun : mmFree A e.1 s = some t) :
    t.memBrk = s.memBrk := by
  obtain ⟨u, hu, -, -, hbrk⟩ := mmFree_spec h he
  rw [← Option.some.inj (hu.symm.trans hrun), hbrk]

/-- `mm_realloc` of a payload keeps a block that is large enough, and otherwise moves. -/
theorem mmRealloc_eq (h : Inv A s U) (he : e ∈ U) (refuse : Bool) (hn : RequestOk n) :
    mmRealloc A e.1 n refuse s =
      if blockSize n ≤ e.2 + 16 then some (e.1, s)
      else (allocator A).move A e.1 n e.2 refuse s := by
  have C := basicContract A
  obtain ⟨k, hk, hcap, -, hk16⟩ := (holds_iff.mpr h).getSize_payload he
  have hne : e.1 ≠ NULL := (C.placed s U h e he).1
  have hn0 : n ≠ 0 := by have := hn.1; omega
  have hround : roundUp ((8 + 8 + n) % 2 ^ 64) ALIGNMENT = blockSize n := rfl
  obtain rfl : k = e.2 + 16 := by omega
  by_cases hfit : blockSize n ≤ e.2 + 16
  · simp only [mmRealloc, hne, hn0, if_false, hk, hround, Option.bind_eq_bind, Option.bind_some,
      hfit, if_true]
  · obtain ⟨p, u, hmalloc, -, hres⟩ := mmMalloc_spec h refuse hn
    simp only [mmRealloc, hne, hn0, if_false, hk, hround, Option.bind_eq_bind, Option.bind_some,
      hfit, hmalloc, Allocator.move, allocator]
    rcases hres with ⟨rfl, -⟩ | ⟨cap, -, hnew, hu⟩
    · simp
    · -- the old header is as it was, and the new block's payload is the new one
      obtain ⟨k', hk', hcap', -, hk32'⟩ := (holds_iff.mpr hu).getSize_payload (Or.inr he)
      have hp := C.placed u _ hu _ (Or.inl rfl)
      have hp8 : p - 8 + 8 = p := by
        have := A.heap_aligned
        have := A.heap_pos
        unfold ALIGNMENT at *
        dsimp only at hp
        omega
      have hlen : k' - 8 - 8 = e.2 := by omega
      simp only [hp.1, hk', hlen, hp8, if_false, Option.bind_some]
      unfold memcpy
      split <;> rfl

/-- **The explicit allocator is thrifty.** -/
theorem thrifty (A : Arena) : Thrifty A (allocator A) RequestOk (Inv A) blockSize where
  init_fails := by
    intro r s hbrk hfalse
    simp only [allocator, mmInit] at hfalse hbrk
    rcases memSbrk_cases A (ALIGNMENT - 8) r s.toMemlib with ⟨he, hfails⟩ | ⟨he, -, -, hne⟩
    · refine hfails.resolve_right ?_
      rw [hbrk]
      simp [MAX_HEAP, ALIGNMENT]
    · simp [he, hne] at hfalse
  init_brk := by
    intro r s t hbrk hrun
    have hempty := mmInit_spec hbrk hrun
    exact hempty.tiles.symm
  malloc := fun s U h n r q t hn hrun => mmMalloc_within h hn hrun
  free := fun s U h e he t hrun => mmFree_brk h he hrun
  realloc := by
    intro s U h e he n r q t hn hn0 hrun
    change mmRealloc A e.1 n r s = some (q, t) at hrun
    obtain ⟨-, hsize, -⟩ := blockSize_spec hn.2
    rw [mmRealloc_eq h he r hn] at hrun
    by_cases hfit : blockSize n ≤ e.2 + 16
    · rw [if_pos hfit] at hrun
      obtain ⟨rfl, rfl⟩ := Prod.mk.inj (Option.some.inj hrun)
      exact ⟨Nat.le_add_right _ _, fun hq => absurd hq ((basicContract A).placed s U h e he).1⟩
    · rw [if_neg hfit] at hrun
      have hgrow : e.2 ≤ n := by
        have := (holds_iff.mpr h).getSize_payload he
        have := blockSize_spec hn.2
        omega
      exact (basicContract A).move_within (fun q t hm => mmMalloc_within h hn hm)
        (fun s U h e he t hrun => mmFree_brk h he hrun) h he hn hgrow hrun

end Explicit

/-! ## The implicit allocator -/

namespace Implicit

variable {A : Arena} {s t : State} {U : Payloads} {bs : List Block} {n q : Nat}
  {r : Bool} {e : Nat × Nat}

/-- A call that finds no block grows the heap by the new one. -/
theorem CallsSbrk.within (hA : A.Mapped) (hcalls : CallsSbrk A n s) (h : Shape A s bs) (hn : SizeOk n)
    (hrun : mmMalloc A n r s = some (q, t)) : t.memBrk ≤ s.memBrk + blockSize n := by
  obtain ⟨hn16, hn32, hsize, -⟩ := blockSize_spec hn
  have hround : roundUp ((8 + n) % 2 ^ 64) ALIGNMENT = blockSize n := rfl
  obtain ⟨c, u, hcoal, hfind⟩ := hcalls
  obtain ⟨cs, c', hcoal', hc, -, -, -, hbrk0⟩ := coalesce_spec hA h
  obtain rfl := Option.some.inj (hcoal.symm.trans hcoal')
  obtain ⟨p, v, hfind', hfit⟩ := findFit_spec hc hn16 hn32
  obtain ⟨hp, rfl⟩ := Prod.mk.inj (Option.some.inj (hfind.symm.trans hfind'))
  cases hfit with
  | @found pre post rest b k _ hbs =>
      have := hc.bounds (b := b) (by rw [hbs]; simp)
      unfold NULL at hp
      omega
  | none =>
      rw [mmMalloc, hround] at hrun
      simp only [hcoal, hfind, Option.bind_eq_bind, Option.bind_some, ne_eq, not_true_eq_false,
        if_false] at hrun
      rcases memSbrk_cases A (blockSize n) r c.toMemlib with ⟨he, -⟩ | ⟨he, -, hle, hne⟩
      · simp only [he, if_true] at hrun
        obtain ⟨-, rfl⟩ := Prod.mk.inj (Option.some.inj hrun)
        exact hbrk0 ▸ Nat.le_add_right _ _
      · obtain ⟨w, hset, -, -, -, hbrk⟩ := useNew_spec hc hn16 hn32 hle
        have hw : w = t := by
          simp only [he, hne, if_false] at hrun
          split at hrun <;> simp_all
        rw [← hw, hbrk, hbrk0]

theorem mmMalloc_within (hA : A.Mapped) (h : Inv A s U) (hn : SizeOk n)
    (hrun : mmMalloc A n r s = some (q, t)) :
    WithinNeed A (blockSize n) q r s.toMemlib t.toMemlib := by
  obtain ⟨bs, h, rfl⟩ := h
  obtain ⟨cs, q', t', -, -, -, -, hrun', hres, -⟩ := h.malloc hA r hn
  obtain ⟨rfl, rfl⟩ := Prod.mk.inj (Option.some.inj (hrun'.symm.trans hrun))
  cases hres with
  | refused hcalls _ hfails => exact ⟨hcalls.within hA h hn hrun, fun _ => hfails⟩
  | extended hcalls => exact ⟨hcalls.within hA h hn hrun, fun hq => by unfold NULL at hq; omega⟩
  | fitted _ _ _ _ _ hbrk => exact ⟨by omega, fun hq => by unfold NULL at hq; omega⟩

theorem mmFree_brk (h : Inv A s U) (he : e ∈ U) (hrun : mmFree A e.1 s = some t) :
    t.memBrk = s.memBrk := by
  obtain ⟨u, hu, -, -, hbrk⟩ := mmFree_spec h he
  rw [← Option.some.inj (hu.symm.trans hrun), hbrk]

/-- **The implicit allocator is thrifty.** -/
theorem thrifty (hA : A.Mapped) : Thrifty A (allocator A) SizeOk (Inv A) blockSize where
  init_fails := by
    intro r s hbrk hfalse
    simp only [allocator, mmInit] at hfalse hbrk
    rcases memSbrk_cases A (ALIGNMENT - 8) r s.toMemlib with ⟨he, hfails⟩ | ⟨he, -, -, hne⟩
    · refine hfails.resolve_right ?_
      rw [hbrk]
      simp [MAX_HEAP, ALIGNMENT]
    · simp [he, hne] at hfalse
  init_brk := by
    intro r s t hbrk hrun
    have hempty := mmInit_spec hbrk hrun
    exact hempty.tiles.symm
  malloc := fun s U h n r q t hn hrun => mmMalloc_within hA h hn hrun
  free := fun s U h e he t hrun => mmFree_brk h he hrun
  realloc := by
    intro s U h e he n r q t hn hn0 hrun
    change mmRealloc A e.1 n r s = some (q, t) at hrun
    obtain ⟨hn16, -, hsize, hsize'⟩ := blockSize_spec hn
    rw [mmRealloc_eq hA h he r hn hn0] at hrun
    by_cases hfit : blockSize n ≤ e.2 + 8
    · rw [if_pos hfit] at hrun
      obtain ⟨rfl, rfl⟩ := Prod.mk.inj (Option.some.inj hrun)
      exact ⟨Nat.le_add_right _ _, fun hq => absurd hq ((basicContract hA).placed s U h e he).1⟩
    · rw [if_neg hfit] at hrun
      have hgrow : e.2 ≤ n := by
        obtain ⟨k, -, hk, hk16, -⟩ := h.getSize_payload he
        omega
      exact (basicContract hA).move_within (fun q t hm => mmMalloc_within hA h hn hm)
        (fun s U h e he t hrun => mmFree_brk h he hrun) h he hn hgrow hrun

end Implicit

end Malloc
