import CS24.Malloc.Calloc
import CS24.Malloc.ExplicitCalls
import CS24.Malloc.FreeRuns
import CS24.Malloc.ImplicitCalls

/-!
# Free space is reused before the heap grows

The explicit allocator never has free neighbours and lists every free block, so
its search sees every run of free bytes.  The implicit one coalesces first, in
one pass that visits every block although `mm_heap_last` may be stale, so its
search sees them too: the pass turns every run into one block.
-/

namespace Malloc.Explicit

open Tiling

variable {A : Arena} {least : Nat} {s : State} {bs : List Block} {fl : List Nat}

theorem lawful (A : Arena) : (allocator A).Lawful :=
  ⟨fun _ _ => rfl, fun _ _ _ => rfl, fun _ => rfl⟩

/-- `mm_calloc` is the one that both allocators have. -/
theorem mmCalloc_eq (A : Arena) : mmCalloc A = (allocator A).calloc A := by
  funext nmemb size r s
  simp only [mmCalloc, Allocator.calloc, allocator]
  split
  · rfl
  · cases mmMalloc A (nmemb * size % 2 ^ 64) r s with
    | none => rfl
    | some p =>
        simp only [Option.bind_eq_bind, Option.bind_some, memset]
        split <;> rfl

theorem RequestOk.le_max {n : Nat} (h : RequestOk n) : n ≤ SIZE_MAX := h.2.trans (by decide)

/-- The headers in memory give the blocks. -/
theorem Layout.heapBlocks_eq (h : Layout A least s bs fl) :
    heapBlocks A s.toMemlib = some bs := by
  have hlow := A.heap_low
  have hbrk := h.brk_le
  refine blocksFrom_eq h.tiles (fun b hb => ?_) (fun b hb => (h.tagged b hb).1) ?_
  · have := h.size_ge hb
    have := h.bounds hb
    omega
  · have := h.tiles.length_le h.pos
    omega

/-- The payload that a call returned lies in a block in use of the new heap. -/
theorem Holds.block_of_mem {U : Payloads} {t : State} {a k : Nat} (h : Holds A least t U)
    (hmem : (a + 8, k - 16) ∈ U) (hk : 16 ≤ k) :
    ∃ cs, heapBlocks A t.toMemlib = some cs ∧ (⟨a, k, true⟩ : Block) ∈ cs := by
  obtain ⟨cs, fl, hS, rfl⟩ := h
  obtain ⟨⟨ca, cn, cu⟩, hc, hu, heq⟩ := hmem
  obtain ⟨haddr, hsize⟩ := Prod.mk.inj heq
  have hcs := (hS.size_ge hc).2
  unfold OVERHEAD at hsize
  dsimp only at *
  obtain rfl : ca = a := by omega
  obtain rfl : cn = k := by omega
  exact ⟨cs, hS.heapBlocks_eq, hu ▸ hc⟩

/-- **`mm_malloc` reuses free space** in every heap that is in order. -/
theorem Settled.reuses (h : Settled A least s bs fl) {n : Nat} (r : Bool)
    (hn : RequestOk n) :
    ReusesFreeSpace A (allocator A) (blockSize n) (CallsSbrk A n s) n r s := by
  have hn0 : n ≠ 0 := by have := hn.1; omega
  obtain ⟨-, hsize, -⟩ := blockSize_spec hn.2
  obtain ⟨q, t, hrun, hres, -, -⟩ := h.malloc r hn.2 (absurd · hn0) (absurd · hn0)
  have hsame := SameUsed.refl bs
  refine ⟨bs, q, t, h.heapBlocks_eq, hrun, ?_⟩
  cases hres with
  | refused hcalls hsmall =>
      exact ⟨fun _ => freeRun_lt hsame h.tiles h.tiles h.pos h.no_adjacent hsmall, absurd hcalls⟩
  | extended hcalls hsmall =>
      exact ⟨fun _ => freeRun_lt hsame h.tiles h.tiles h.pos h.no_adjacent hsmall, absurd hcalls⟩
  | @fitted b k t hcalls hb hu hk hkb hbrk ht =>
      have hrunb := freeRun_of_mem hsame h.tiles h.tiles h.pos h.no_adjacent hb hu
      obtain ⟨cs, hcs, hmem⟩ := ht.block_of_mem (Or.inl rfl) (by omega)
      exact ⟨fun hc => absurd hc hcalls, fun _ => ⟨hbrk, _, _, hrunb, by omega, cs, _, hcs, hmem,
        rfl, rfl, hk, le_refl _, by dsimp only; omega⟩⟩

end Malloc.Explicit

namespace Malloc.Implicit

open Tiling

variable {A : Arena} {s : State} {bs : List Block}

theorem lawful (A : Arena) : (allocator A).Lawful :=
  ⟨fun _ _ => rfl, fun _ _ _ => rfl, fun _ => rfl⟩

/-- `mm_calloc` is the one that both allocators have. -/
theorem mmCalloc_eq (A : Arena) : mmCalloc A = (allocator A).calloc A := by
  funext nmemb size r s
  simp only [mmCalloc, Allocator.calloc, allocator]
  split
  · rfl
  · cases mmMalloc A (nmemb * size % 2 ^ 64) r s with
    | none => rfl
    | some p =>
        simp only [Option.bind_eq_bind, Option.bind_some, memset]
        split <;> rfl

theorem RequestOk.le_max {n : Nat} (h : RequestOk n) : n ≤ SIZE_MAX := Nat.le_trans h (by decide)

/-- The headers in memory give the blocks. -/
theorem Shape.heapBlocks_eq (h : Shape A s bs) : heapBlocks A s.toMemlib = some bs := by
  refine blocksFrom_eq h.tiles (fun b hb => ?_) h.tagged h.length_lt
  have := h.sizes b hb
  have := h.bounds hb
  omega

/-- The payload that a call returned lies in a block in use of the new heap. -/
theorem Inv.block_of_mem {U : Payloads} {t : State} {a k : Nat} (h : Inv A t U)
    (hmem : (a + 8, k - 8) ∈ U) (hk : 16 ≤ k) :
    ∃ cs, heapBlocks A t.toMemlib = some cs ∧ (⟨a, k, true⟩ : Block) ∈ cs := by
  obtain ⟨cs, hS, rfl⟩ := h
  obtain ⟨⟨ca, cn, cu⟩, hc, hu, heq⟩ := hmem
  obtain ⟨haddr, hsize⟩ := Prod.mk.inj heq
  have hcs := (hS.sizes _ hc).2
  unfold OVERHEAD at hsize
  dsimp only at *
  obtain rfl : ca = a := by omega
  obtain rfl : cn = k := by omega
  exact ⟨cs, hS.heapBlocks_eq, hu ▸ hc⟩

/-- **`mm_malloc` reuses free space** in every heap, coalesced or not. -/
theorem Shape.reuses (hA : A.Mapped) (h : Shape A s bs) {n : Nat} (r : Bool) (hn : SizeOk n) :
    ReusesFreeSpace A (allocator A) (blockSize n) (CallsSbrk A n s) n r s := by
  obtain ⟨-, hsize, -, -⟩ := blockSize_spec hn
  obtain ⟨cs, q, t, htiles, hpos, hno, hsame, hrun, hres, -, -⟩ := h.malloc hA r hn
  refine ⟨bs, q, t, h.heapBlocks_eq, hrun, ?_⟩
  cases hres with
  | refused hcalls hsmall =>
      exact ⟨fun _ => freeRun_lt hsame h.tiles htiles hpos hno hsmall, absurd hcalls⟩
  | extended hcalls hsmall =>
      exact ⟨fun _ => freeRun_lt hsame h.tiles htiles hpos hno hsmall, absurd hcalls⟩
  | @fitted b k t hcalls hb hu hk hkb hbrk ht =>
      have hrunb := freeRun_of_mem hsame h.tiles htiles hpos hno hb hu
      obtain ⟨ds, hds, hmem⟩ := ht.block_of_mem (Or.inl rfl) (by omega)
      exact ⟨fun hc => absurd hc hcalls, fun _ => ⟨hbrk, _, _, hrunb, by omega, ds, _, hds, hmem,
        rfl, rfl, hk, le_refl _, by dsimp only; omega⟩⟩

end Malloc.Implicit

namespace Malloc

/-- **Free space is reused before the heap grows**, by both allocators and in every state
that clients reach. -/
theorem reuses_free_space {A : Arena} (hA : A.Mapped) :
    (∀ c, CallocReachable A (Explicit.allocator A) Explicit.RequestOk c →
      ∀ n r, Explicit.RequestOk n → ReusesFreeSpace A (Explicit.allocator A)
        (Explicit.blockSize n) (Explicit.CallsSbrk A n c.heap) n r c.heap) ∧
    (∀ c, CallocReachable A (Implicit.allocator A) Implicit.RequestOk c →
      ∀ n r, Implicit.RequestOk n → ReusesFreeSpace A (Implicit.allocator A)
        (Implicit.blockSize n) (Implicit.CallsSbrk A n c.heap) n r c.heap) := by
  constructor
  · intro c h n r hn
    have hreach := h.reachable (Explicit.lawful A) fun _ => Explicit.RequestOk.le_max
    obtain ⟨U, ⟨bs, fl, hinv, -⟩, -⟩ := (Explicit.contract A).reachable_inv hreach
    exact (Explicit.settled_iff.mpr hinv).reuses r hn
  · intro c h n r hn
    have hreach := h.reachable (Implicit.lawful A) fun _ => Implicit.RequestOk.le_max
    obtain ⟨U, ⟨bs, hS, -⟩, -⟩ := (Implicit.contract hA).reachable_inv hreach
    exact hS.reuses hA r hn.sizeOk

/-- The block that was given back is used again. -/
theorem reuses_free_space_freedBlock :
    (ReusesFreeSpace lowArena (Explicit.allocator lowArena) (Explicit.blockSize 24)
        (Explicit.CallsSbrk lowArena 24 Explicit.freedBlock) 24 false Explicit.freedBlock ∧
      ¬Explicit.CallsSbrk lowArena 24 Explicit.freedBlock) ∧
    ReusesFreeSpace lowArena (Implicit.allocator lowArena) (Implicit.blockSize 24)
        (Implicit.CallsSbrk lowArena 24 Implicit.freedBlock) 24 false Implicit.freedBlock ∧
      ¬Implicit.CallsSbrk lowArena 24 Implicit.freedBlock := by
  have hA : lowArena.Mapped := Arena.mapped_mapped _ _ _
  have hexplicit : (Explicit.findFit lowArena (Explicit.blockSize 24) Explicit.freedBlock).map Prod.fst =
      some 4104 := by decide +kernel
  have himplicit : ((Implicit.coalesce lowArena Implicit.freedBlock).bind fun c =>
      (Implicit.findFit lowArena (Implicit.blockSize 24) c).map Prod.fst) = some 4104 := by
    decide +kernel
  refine ⟨⟨(reuses_free_space hA).1 _ Explicit.reachable_freedBlock.calloc 24 false (by decide), ?_⟩,
    (reuses_free_space hA).2 _ Implicit.reachable_freedBlock.calloc 24 false (by decide), ?_⟩
  · rintro ⟨t, ht⟩
    rw [ht] at hexplicit
    exact absurd (Option.some.inj hexplicit : NULL = 4104) (by decide)
  · rintro ⟨c, t, hc, ht⟩
    rw [hc, Option.bind_some, ht] at himplicit
    exact absurd (Option.some.inj himplicit : NULL = 4104) (by decide)

end Malloc
