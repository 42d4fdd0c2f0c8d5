import CS24.Malloc.Payloads

/-!
# The blocks in memory and the runs of free bytes

A walk over the headers from the first block to the break gives the partition of
the heap.  The bytes of the blocks that are not allocated form runs; a run may
consist of several free blocks when a heap has not been coalesced, and it is a
single block when no two free blocks are neighbours.
-/

namespace Malloc

open Bytes Tiling

/-- The blocks that a walk over the headers finds from `a` to the break. -/
def blocksFrom (m : Mem) (brk : Nat) : Nat → Nat → Option (List Block)
  | 0, _ => none
  | fuel + 1, a =>
    if a = brk then some []
    else do
      let word := load64 m a
      let rest ← blocksFrom m brk fuel (a + wordSize word)
      some (⟨a, wordSize word, wordUsed word⟩ :: rest)

/-- The partition of the heap into blocks. -/
def heapBlocks (A : Arena) (s : Memlib) : Option (List Block) :=
  blocksFrom s.mem s.memBrk (s.memBrk + 1) (A.heap + 8)

/-- `[lo, hi)` is a maximal run of contiguous free bytes. -/
abbrev FreeRun (bs : List Block) (lo hi : Nat) : Prop := MaximalRun (FreeByte bs) lo hi

/-- How `mm_malloc(n)` uses the free space, when it needs a block of `need` bytes: it
calls `mem_sbrk` only if no maximal run of free bytes is that large; otherwise the heap
does not grow and the block returned lies inside such a run. -/
def ReusesFreeSpace {σ : Type} (A : Arena) (M : Allocator σ) (need : Nat) (callsSbrk : Prop)
    (n : Nat) (refuse : Bool) (s : σ) : Prop :=
  ∃ bs q t, heapBlocks A (M.lib s) = some bs ∧ M.malloc n refuse s = some (q, t) ∧
    (callsSbrk → ∀ lo hi, FreeRun bs lo hi → hi - lo < need) ∧
    (¬ callsSbrk → (M.lib t).memBrk = (M.lib s).memBrk ∧
      ∃ lo hi, FreeRun bs lo hi ∧ need ≤ hi - lo ∧
        ∃ cs b, heapBlocks A (M.lib t) = some cs ∧ b ∈ cs ∧ b.used = true ∧ q = b.addr + 8 ∧
          need ≤ b.size ∧ lo ≤ b.addr ∧ b.addr + b.size ≤ hi)

variable {m : Mem} {lo hi l r n need k : Nat} {bs cs : List Block} {b : Block}

/-- The walk finds the blocks that tile the heap, if their headers are in place. -/
theorem blocksFrom_eq (h : TileHeap lo bs hi)
    (hs : ∀ b ∈ bs, 0 < b.size ∧ b.size % 2 = 0 ∧ b.size < 2 ^ 64)
    (htag : ∀ b ∈ bs, load64 m b.addr = b.word) {fuel : Nat} (hfuel : bs.length < fuel) :
    blocksFrom m hi fuel lo = some bs := by
  obtain ⟨fuel, rfl⟩ : ∃ k, fuel = k + 1 := ⟨fuel - 1, by omega⟩
  induction bs generalizing lo fuel with
  | nil =>
      obtain rfl : lo = hi := h
      simp [blocksFrom]
  | cons b bs ih =>
      obtain ⟨rfl, hrest⟩ := tiles_cons.mp h
      obtain ⟨hpos, h2, hlt⟩ := hs b (by simp)
      have hle := hrest.le
      have hne : b.addr ≠ hi := by omega
      have hword := htag b (by simp)
      have hsize : wordSize b.word = b.size := wordSize_add h2 hlt
      have hused : wordUsed b.word = b.used := wordUsed_add h2
      obtain ⟨fuel, rfl⟩ : ∃ k, fuel = k + 1 := ⟨fuel - 1, by simp at hfuel; omega⟩
      have hrun := ih hrest (fun c hc => hs c (by simp [hc])) (fun c hc => htag c (by simp [hc]))
        fuel (by simpa using hfuel)
      rw [blocksFrom]
      simp [hne, hword, hsize, hused, hrun]

/-- **Without free neighbours** the maximal free runs are the free blocks. -/
theorem freeRun_iff (h : TileHeap lo bs hi) (hpos : ∀ b ∈ bs, 0 < b.size)
    (hno : NoAdjacent bs) :
    FreeRun bs l r ↔ ∃ b ∈ bs, b.used = false ∧ l = b.addr ∧ r = b.addr + b.size := by
  have hrun := Tiles.maximalRun_iff (P := fun b : Block => b.used = true) h hpos hno (l := l)
    (r := r)
  refine hrun.trans ?_
  simp only [Bool.not_eq_true]

/-- The size of every free run is bounded as the free blocks of the coalesced heap are. -/
theorem freeRun_lt (hsame : SameUsed bs cs) (hb : TileHeap lo bs hi) (hc : TileHeap lo cs hi)
    (hpos : ∀ b ∈ cs, 0 < b.size) (hno : NoAdjacent cs)
    (hsmall : ∀ b ∈ cs, b.used = false → b.size < need) :
    ∀ l r, FreeRun bs l r → r - l < need := by
  intro l r hrun
  obtain ⟨b, hm, hu, rfl, rfl⟩ :=
    (freeRun_iff hc hpos hno).mp (hrun.congr (hsame.freeByte_iff hb hc))
  have := hsmall b hm hu
  omega

/-- A free block of the coalesced heap is a free run. -/
theorem freeRun_of_mem (hsame : SameUsed bs cs) (hb : TileHeap lo bs hi)
    (hc : TileHeap lo cs hi) (hpos : ∀ b ∈ cs, 0 < b.size) (hno : NoAdjacent cs) (hm : b ∈ cs)
    (hu : b.used = false) : FreeRun bs b.addr (b.addr + b.size) :=
  ((freeRun_iff hc hpos hno).mpr ⟨b, hm, hu, rfl, rfl⟩).congr
    fun i => (hsame.freeByte_iff hb hc i).symm

/-- **Two heaps with the same blocks in use are the same**, when neither has free
neighbours. -/
theorem SameUsed.eq (h : SameUsed bs cs) (hb : TileHeap lo bs hi) (hc : TileHeap lo cs hi)
    (hbpos : ∀ b ∈ bs, 0 < b.size) (hcpos : ∀ b ∈ cs, 0 < b.size) (hbno : NoAdjacent bs)
    (hcno : NoAdjacent cs) : bs = cs := by
  refine Tiles.eq_of_same hb hc hbpos hcpos h hbno hcno ?_
  rintro ⟨a, n, u⟩ ⟨a', n', u'⟩ hu hu' ha hn
  simp_all

/-- The payloads determine the blocks in use. -/
theorem sameUsed_of_payloads (h : payloads k bs = payloads k cs)
    (hb : ∀ b ∈ bs, k ≤ b.size) (hc : ∀ b ∈ cs, k ≤ b.size) : SameUsed bs cs := by
  -- a payload and its overhead give the block back
  have hsub {as as' : List Block} (h : payloads k as = payloads k as')
      (hs : ∀ b ∈ as, k ≤ b.size) (hs' : ∀ b ∈ as', k ≤ b.size) {b : Block} (hm : b ∈ as)
      (hu : b.used = true) : b ∈ as' := by
    obtain ⟨c, hcm, hcu, heq⟩ : b.payload k ∈ payloads k as' := h ▸ ⟨b, hm, hu, rfl⟩
    obtain ⟨haddr, hsize⟩ := Prod.mk.inj heq
    have := hs b hm
    have := hs' c hcm
    obtain ⟨ba, bn, bu⟩ := b
    obtain ⟨ca, cn, cu⟩ := c
    dsimp only at *
    obtain rfl : ca = ba := by omega
    obtain rfl : cn = bn := by omega
    rw [hu, ← hcu]
    exact hcm
  exact fun b hu => ⟨fun hm => hsub h hb hc hm hu, fun hm => hsub h.symm hc hb hm hu⟩

end Malloc
