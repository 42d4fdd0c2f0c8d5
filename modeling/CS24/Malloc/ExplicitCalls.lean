import CS24.Malloc.ExplicitCoalesce
import CS24.Malloc.ExplicitFit

/-!
# The explicit allocator keeps its contract

`mm_init`, `mm_malloc`, `mm_free` and `mm_realloc` take the heap invariant to
the heap invariant and change the set of payloads as a client expects.  With
the client layer this gives the two results about whole runs: the heap
invariant holds in every state clients can reach, and in every such state the
client's guarantee holds.
-/

namespace Malloc.Explicit

open Bytes Links Tiling

/-- Header and footer. -/
def OVERHEAD : Nat := 8 + 8

/-- The sizes a client may request: positive, and small enough that adding the
tags and rounding up does not overflow. -/
def RequestOk (n : Nat) : Prop := 1 ≤ n ∧ n ≤ SIZE_MAX - 31

instance (n : Nat) : Decidable (RequestOk n) := by unfold RequestOk; infer_instance

/-- The functions of `mm-explicit.c` as a client sees them. -/
def allocator (A : Arena) : Allocator State where
  lib := State.toMemlib
  withMem s m := { s with mem := m }
  init := mmInit A
  malloc := mmMalloc A
  free := mmFree A
  realloc := mmRealloc A

/-- The heap invariant holds, and `U` are the payloads in use. -/
def Inv (A : Arena) (s : State) (U : Payloads) : Prop :=
  ∃ bs fl, HeapInvariant A s bs fl ∧ U = payloads OVERHEAD bs

/-- `Inv` for heaps that may hold blocks of `least` bytes. -/
def Holds (A : Arena) (least : Nat) (s : State) (U : Payloads) : Prop :=
  ∃ bs fl, Settled A least s bs fl ∧ U = payloads OVERHEAD bs

variable {A : Arena} {least : Nat} {s : State} {U : Payloads} {bs pre post : List Block}
  {b : Block} {fl : List Nat}

/-- With blocks of at least 32 bytes this is the invariant. -/
theorem holds_iff : Holds A 32 s U ↔ Inv A s U := by
  simp only [Holds, Inv, settled_iff]

/-- The rounded block size for a request of `n` bytes. -/
def blockSize (n : Nat) : Nat := roundUp ((8 + 8 + n) % 2 ^ 64) ALIGNMENT

/-- A block has room for its tags. -/
theorem Layout.overhead_le (h : Layout A least s bs fl) : ∀ b ∈ bs, OVERHEAD ≤ b.size :=
  fun _ hb => (h.size_ge hb).2

/-- The size of the block for a request. -/
theorem blockSize_spec {n : Nat} (hn : n ≤ SIZE_MAX - 31) :
    blockSize n % 16 = 0 ∧ n + 16 ≤ blockSize n ∧ blockSize n < n + 32 := by
  unfold SIZE_MAX at hn
  have hmod : (8 + 8 + n) % 2 ^ 64 = 8 + 8 + n := by omega
  have := roundUp_spec (show 8 + 8 + n + 15 < 2 ^ 64 by omega)
  simp only [blockSize, hmod]
  omega

/-- `mm_init` on an empty arena gives the empty heap. -/
theorem mmInit_spec {refuse : Bool} {t : State} (hbrk : s.memBrk = A.heap)
    (h : mmInit A refuse s = (true, t)) : HeapInvariant A t [] [] := by
  unfold mmInit at h
  rcases memSbrk_cases A (ALIGNMENT - 8) refuse s.toMemlib with ⟨he, -⟩ | ⟨he, -, hle, hne⟩
  · simp [he] at h
  · simp only [he, hne, if_false, Prod.mk.injEq, true_and] at h
    subst h
    exact ⟨⟨hle, by simp [hbrk, ALIGNMENT], by simp, rfl, rfl, by simp, ⟨rfl, trivial⟩, by simp,
      by simp⟩, by simp, by simp⟩

/-- **Taking a found block into use** restores the invariant. -/
theorem useFound_spec {n k : Nat} {rest : List Block} {t : State}
    (h : Settled A least s (pre ++ b :: post) fl) (hu : b.used = false)
    (hk : Taken minBlockSize n b k rest)
    (ht : ∃ fl', Layout A least t (pre ++ ⟨b.addr, k, false⟩ :: (rest ++ post)) fl' ∧ b.addr ∉ fl' ∧
      ∀ c ∈ pre ++ (rest ++ post), c.used = false → c.addr ∈ fl') :
    ∃ u, (getSize A b.addr t).bind (fun k => setHeader A b.addr k true t) = some u ∧
      Holds A least u (insert (b.addr + 8, k - 16) (payloads OVERHEAD (pre ++ b :: post))) ∧
      (∀ e ∈ payloads OVERHEAD (pre ++ b :: post), e.1 ≠ b.addr + 8) ∧
      (∀ i, ¬ b.Contains i → u.mem i = t.mem i) ∧ u.memBrk = t.memBrk := by
  obtain ⟨fl', hS, hout, hmem⟩ := ht
  obtain ⟨hrun, hS'⟩ := hS.setUsed (b := ⟨b.addr, k, false⟩) hout true
  have hks := hS.size_ge (b := ⟨b.addr, k, false⟩) (by simp)
  have hkb : k ≤ b.size := hk.bounds.2
  have hfree : ∀ c ∈ rest, c.used = false := hk.rest_free
  obtain ⟨hpre, hmid, hcross⟩ := List.isChain_append.mp h.no_adjacent
  obtain ⟨hnext, hpost⟩ := List.isChain_cons.mp hmid
  -- the neighbours of a free block are in use
  have hpost_used : ∀ c ∈ post.head?, c.used = true :=
    fun c hc => (hnext c hc).resolve_left (by simp [hu])
  have hrest : NoAdjacent (rest ++ post) := by
    rcases hk with ⟨-, rfl, -⟩ | ⟨-, rfl, -⟩
    · exact hpost
    · exact List.isChain_cons.mpr ⟨fun c hc => Or.inr (hpost_used c hc), hpost⟩
  have hchain : NoAdjacent (pre ++ ⟨b.addr, k, true⟩ :: (rest ++ post)) := by
    refine List.isChain_append.mpr ⟨hpre, List.isChain_cons.mpr ⟨fun _ _ => Or.inl rfl, hrest⟩, ?_⟩
    intro c hc d hd
    obtain rfl : _ = d := by simpa using hd
    exact Or.inr rfl
  have hpay : payloads OVERHEAD (pre ++ b :: post) = payloads OVERHEAD (pre ++ (rest ++ post)) := by
    refine SameUsed.payloads_eq fun c hc => ?_
    have hcb : c ≠ b := fun he => by rw [he, hu] at hc; cases hc
    have hcr : c ∉ rest := fun hr => by rw [hfree c hr] at hc; cases hc
    simp [hcb, hcr]
  refine ⟨_, ?_, ⟨_, fl', ⟨hS', fun c hc huc => ?_, hchain⟩, ?_⟩, ?_, fun i hi => ?_, rfl⟩
  · rw [hS.getSize_mem (b := ⟨b.addr, k, false⟩) (by simp)]
    exact hrun
  · refine hmem c ?_ huc
    simp only [List.mem_append, List.mem_cons] at hc ⊢
    rcases hc with hc | rfl | hc
    · exact Or.inl hc
    · cases huc
    · exact Or.inr hc
  · rw [payloads_used (b := ⟨b.addr, k, true⟩) rfl, hpay]
    rfl
  · rw [hpay]
    exact payloads_ne (b := ⟨b.addr, k, false⟩) hS.tiles hS.pos
  · refine tagMem_outside (by omega) ?_
    unfold Block.Contains at hi
    dsimp only
    omega

/-- **Taking new bytes into use** at the end of the heap. -/
theorem useNew_spec {n : Nat} (h : Settled A least s bs fl) (hn16 : n % 16 = 0) (hn : least ≤ n)
    (hfit : s.memBrk + n ≤ A.heap + MAX_HEAP) :
    let hf := if s.mmHeapFirst = NULL then s.memBrk else s.mmHeapFirst
    ∃ u, setHeader A s.memBrk n true ⟨⟨s.mem, s.memBrk + n⟩, hf, s.memBrk, s.freeListFirst⟩ =
        some u ∧
      Holds A least u (insert (s.memBrk + 8, n - 16) (payloads OVERHEAD bs)) ∧
      (∀ e ∈ payloads OVERHEAD bs, e.1 ≠ s.memBrk + 8) ∧
      (∀ i, i < s.memBrk ∨ s.memBrk + n ≤ i → u.mem i = s.mem i) ∧ u.memBrk = s.memBrk + n := by
  obtain ⟨hrun, hS, hout⟩ := h.extend hn16 hn hfit true
  refine ⟨_, hrun, ⟨_, fl, ⟨hS, fun c hc hu => ?_, ?_⟩, ?_⟩, ?_, hout, rfl⟩
  · rcases List.mem_append.mp hc with hc | hc
    · exact h.mem_of_free c hc hu
    · obtain rfl : c = _ := by simpa using hc
      cases hu
  · refine List.isChain_append.mpr ⟨h.no_adjacent, by simp, fun c _ d hd => ?_⟩
    obtain rfl : _ = d := by simpa using hd
    exact Or.inr rfl
  · rw [payloads_used (b := ⟨s.memBrk, n, true⟩) rfl, List.append_nil]
    rfl
  · have := payloads_ne (k := OVERHEAD) hS.tiles hS.pos
    simpa using this

/-- The head of the free list, if any, is too short to be split for the shortest
block. -/
def HeadWhole (A : Arena) (s : State) : Prop :=
  s.freeListFirst = NULL ∨ getSize A s.freeListFirst s = some minBlockSize

/-- Such a head is split only where both parts have room for links. -/
theorem HeadWhole.splitOk (h : Settled A least s bs fl) (hhead : HeadWhole A s) {n : Nat}
    (hn : 16 ≤ n) : SplitOk n bs fl := by
  intro b hb hfirst hle
  have haddr : s.freeListFirst = b.addr := by
    rw [h.list.head_eq, first, List.headD_eq_head?_getD, hfirst]
    rfl
  rcases hhead with hnull | hsize
  · exact absurd (haddr.symm.trans hnull) (h.ne_null hb)
  · rw [haddr, h.getSize_mem hb, minBlockSize_eq] at hsize
    have : b.size = 32 := Option.some.inj hsize
    omega

/-- `find_fit` finds nothing, so `mm_malloc` calls `mem_sbrk`. -/
def CallsSbrk (A : Arena) (n : Nat) (s : State) : Prop :=
  ∃ t, findFit A (blockSize n) s = some (NULL, t)

/-- What `mm_malloc` returns from a heap of the blocks `bs`: nothing, when every free
block is too small and `mem_sbrk` fails; a new block behind the others; or a free
block, or the front of one. -/
inductive MallocResult (A : Arena) (least : Nat) (s : State) (bs : List Block) (n : Nat)
    (refuse : Bool) : Nat → State → Prop
  | refused : CallsSbrk A n s → (∀ b ∈ bs, b.used = false → b.size < blockSize n) →
      SbrkFails A (blockSize n) refuse s.toMemlib → MallocResult A least s bs n refuse NULL s
  | extended {t : State} : CallsSbrk A n s →
      (∀ b ∈ bs, b.used = false → b.size < blockSize n) →
      ¬ SbrkFails A (blockSize n) refuse s.toMemlib →
      Holds A least t (insert (s.memBrk + 8, blockSize n - 16) (payloads OVERHEAD bs)) →
      MallocResult A least s bs n refuse (s.memBrk + 8) t
  | fitted {b : Block} {k : Nat} {t : State} : ¬ CallsSbrk A n s → b ∈ bs → b.used = false →
      blockSize n ≤ k → k ≤ b.size → t.memBrk = s.memBrk →
      Holds A least t (insert (b.addr + 8, k - 16) (payloads OVERHEAD bs)) →
      MallocResult A least s bs n refuse (b.addr + 8) t

/-- **`mm_malloc`** returns, and a payload that it returns is new.  A request of
zero bytes asks for a block that is too short to be split off. -/
theorem Settled.malloc (h : Settled A least s bs fl) {n : Nat} (refuse : Bool)
    (hn : n ≤ SIZE_MAX - 31) (hleast : n = 0 → least = 16) (hhead : n = 0 → HeadWhole A s) :
    ∃ q t, mmMalloc A n refuse s = some (q, t) ∧ MallocResult A least s bs n refuse q t ∧
      KeepsBlocks A OVERHEAD (payloads OVERHEAD bs) s.toMemlib t.toMemlib ∧
      (q ≠ NULL → ∀ e ∈ payloads OVERHEAD bs, e.1 ≠ q) := by
  obtain ⟨hn16, hsize, -⟩ := blockSize_spec hn
  have hlow := h.least_ok
  have hleastSize : least ≤ blockSize n := by
    by_cases h0 : n = 0
    · have := hleast h0
      omega
    · omega
  have hok : SplitOk (blockSize n) bs fl := by
    by_cases h0 : n = 0
    · exact (hhead h0).splitOk h (by omega)
    · intro _ _ _ _
      omega
  have hround : roundUp ((8 + 8 + n) % 2 ^ 64) ALIGNMENT = blockSize n := rfl
  obtain ⟨q, t, hfind, hfit⟩ := findFit_spec h hn16 hok
  cases hfit with
  | none hsmall =>
      have hcalls : CallsSbrk A n s := ⟨s, hfind⟩
      rcases memSbrk_cases A (blockSize n) refuse s.toMemlib with
        ⟨he, hfails⟩ | ⟨he, hfails, hle, hne⟩
      · refine ⟨NULL, s, ?_, .refused hcalls hsmall hfails, .refl _ _, absurd rfl⟩
        rw [mmMalloc, hround]
        simp [hfind, he]
      · obtain ⟨u, hrun, hinv, hnew, hm, hbrk⟩ := useNew_spec h hn16 hleastSize hle
        refine ⟨s.memBrk + 8, u, ?_, .extended hcalls hsmall hfails hinv,
          keepsBlocks_of_new h.tiles h.overhead_le hbrk hm, fun _ => hnew⟩
        · rw [mmMalloc, hround]
          simp only [hfind, he, hne, if_false, Option.bind_eq_bind, Option.bind_some,
            ne_eq, not_true_eq_false]
          split <;> simp_all
  | @found pre post rest b k t fl' hbs hu hk hS hout hmem hbrk hfree =>
      subst hbs
      obtain ⟨u, hrun, hinv, hnew, hm, hbrk'⟩ := useFound_spec h hu hk ⟨fl', hS, hout, hmem⟩
      have hb : b ∈ pre ++ b :: post := by simp
      have hne := h.ne_null hb
      have hcalls : ¬ CallsSbrk A n s := by
        rintro ⟨t', hfind'⟩
        rw [hfind] at hfind'
        exact hne (congrArg Prod.fst (Option.some.inj hfind'))
      refine ⟨b.addr + 8, u, ?_, .fitted hcalls hb hu hk.bounds.1 hk.bounds.2 (hbrk'.trans hbrk) hinv,
        ?_, fun _ => hnew⟩
      · obtain ⟨k', hk', hset⟩ := Option.bind_eq_some_iff.mp hrun
        rw [mmMalloc, hround]
        simp [hfind, hne, hk', hset]
      · have hall : FreeOnly s.mem u.mem (pre ++ b :: post) :=
          hfree.trans (FreeOnly.of_inside hb hu hm)
        have htiles : TileHeap (A.heap + 8) (pre ++ b :: post) u.memBrk :=
          (hbrk'.trans hbrk) ▸ h.tiles
        exact hall.keepsBlocks htiles h.overhead_le

/-- `mm_malloc` returns `NULL`, or a new payload with room for the request. -/
theorem Holds.malloc (h : Holds A least s U) {n : Nat} (refuse : Bool) (hn : n ≤ SIZE_MAX - 31)
    (hleast : n = 0 → least = 16) (hhead : n = 0 → HeadWhole A s) :
    ∃ q t, mmMalloc A n refuse s = some (q, t) ∧
      KeepsBlocks A OVERHEAD U s.toMemlib t.toMemlib ∧
      ((q = NULL ∧ Holds A least t U) ∨
        ∃ cap, n ≤ cap ∧ (∀ e ∈ U, e.1 ≠ q) ∧ Holds A least t (insert (q, cap) U)) := by
  obtain ⟨bs, fl, h, rfl⟩ := h
  obtain ⟨-, hsize, -⟩ := blockSize_spec hn
  obtain ⟨q, t, hrun, hres, hpres, hnew⟩ := h.malloc refuse hn hleast hhead
  refine ⟨q, t, hrun, hpres, ?_⟩
  cases hres with
  | refused => exact Or.inl ⟨rfl, bs, fl, h, rfl⟩
  | extended _ _ _ ht =>
      exact Or.inr ⟨blockSize n - 16, by omega, hnew (by unfold NULL; omega), ht⟩
  | @fitted b k _ _ _ _ hk _ _ ht =>
      exact Or.inr ⟨k - 16, by omega, hnew (by unfold NULL; omega), ht⟩

/-- `mm_malloc` of a positive size, which is always soundly served. -/
theorem mmMalloc_spec (h : Inv A s U) {n : Nat} (refuse : Bool) (hn : RequestOk n) :
    ∃ q t, mmMalloc A n refuse s = some (q, t) ∧ Preserves U s.mem t.mem ∧
      ((q = NULL ∧ Inv A t U) ∨
        ∃ cap, n ≤ cap ∧ (∀ e ∈ U, e.1 ≠ q) ∧ Inv A t (insert (q, cap) U)) := by
  have hn0 : n ≠ 0 := by have := hn.1; omega
  obtain ⟨q, t, hrun, hkeep, hres⟩ :=
    (holds_iff.mpr h).malloc refuse hn.2 (absurd · hn0) (absurd · hn0)
  exact ⟨q, t, hrun, hkeep.preserves (by decide), by simpa only [holds_iff] using hres⟩

/-- **`mm_free`** of a block in use, with room for links or a free neighbour. -/
theorem Settled.free (h : Settled A least s (pre ++ b :: post) fl) (hu : b.used = true)
    (hroom : HasRoom pre b post) :
    ∃ t, mmFree A (b.addr + 8) s = some t ∧
      Holds A least t (payloads OVERHEAD (pre ++ b :: post) \ {b.payload OVERHEAD}) ∧
      KeepsBlocks A OVERHEAD (payloads OVERHEAD (pre ++ b :: post) \ {b.payload OVERHEAD})
        s.toMemlib t.toMemlib ∧ t.memBrk = s.memBrk := by
  have hb : b ∈ pre ++ b :: post := by simp
  have hout : b.addr ∉ fl := by
    intro hm
    obtain ⟨c, hc, haddr, huc, -⟩ := h.free_of_mem _ hm
    rw [h.eq_of_addr hc hb haddr, hu] at huc
    cases huc
  obtain ⟨hrun1, hS⟩ := h.setUsed hout false
  obtain ⟨hpre, hmid, -⟩ := List.isChain_append.mp h.no_adjacent
  have hloose : Loose A least { s with mem := tagMem s.mem b.addr b.size false } pre
      ⟨b.addr, b.size, false⟩ post fl false := by
    refine ⟨hS, rfl, by simpa using hout, fun c hc huc => ?_, hpre,
      (List.isChain_cons.mp hmid).2⟩
    exact h.mem_of_free c (by simp at hc ⊢; tauto) huc
  obtain ⟨bs', fl', t, hrun2, hinv, hsame, hkeep, hbrk⟩ := coalesce_spec hloose hroom
  have hpay : payloads OVERHEAD (pre ++ b :: post) \ {b.payload OVERHEAD} =
      payloads OVERHEAD (pre ++ ⟨b.addr, b.size, false⟩ :: post) := by
    rw [payloads_diff h.tiles h.pos hu, payloads_free (b := ⟨b.addr, b.size, false⟩) rfl]
  refine ⟨t, ?_, ⟨bs', fl', hinv, hpay.trans hsame.payloads_eq⟩, ?_, hbrk⟩
  · have hne : b.addr + 8 ≠ NULL := by unfold NULL; omega
    simp [mmFree, hne, h.getSize_mem hb, hrun1, hrun2]
  · rw [hpay]
    have htiles : TileHeap (A.heap + 8) (pre ++ ⟨b.addr, b.size, false⟩ :: post) t.memBrk :=
      hbrk ▸ hS.tiles
    refine FreeOnly.keepsBlocks (FreeOnly.trans (fun i hi => ?_) hkeep) htiles hS.overhead_le
    have hbs := h.size_ge hb
    refine tagMem_outside (by omega) ?_
    have := hi ⟨b.addr, b.size, false⟩ (by simp) rfl
    unfold Block.Contains at this
    dsimp only at this
    omega

/-- **`mm_free`** gives up exactly one payload, and no byte of the heap. -/
theorem mmFree_spec (h : Inv A s U) {e : Nat × Nat} (he : e ∈ U) :
    ∃ t, mmFree A e.1 s = some t ∧ Inv A t (U \ {e}) ∧ Preserves (U \ {e}) s.mem t.mem ∧
      t.memBrk = s.memBrk := by
  obtain ⟨bs, fl, h, rfl⟩ := h
  obtain ⟨b, hb, hu, rfl⟩ := he
  obtain ⟨pre, post, rfl⟩ := List.append_of_mem hb
  obtain ⟨t, hrun, hinv, hkeep, hbrk⟩ := (settled_iff.mpr h).free hu (Or.inl (h.sizes b hb).2)
  exact ⟨t, hrun, holds_iff.mp hinv, hkeep.preserves (by decide), hbrk⟩

/-- A client's write into the payload of a block in use keeps the blocks. -/
theorem Settled.write (h : Settled A least s bs fl) (hb : b ∈ bs) (hu : b.used = true) {m : Mem}
    (hm : ∀ i, i < b.addr + 8 ∨ b.addr + b.size - 8 ≤ i → m i = s.mem i) :
    Settled A least { s with mem := m } bs fl := by
  have hbs := h.size_ge hb
  -- only the payload changes: no tag, and no byte of another block
  have hin (i : Nat) (hi : m i ≠ s.mem i) : b.addr + 8 ≤ i ∧ i < b.addr + b.size - 8 := by
    have := mt (hm i) hi
    omega
  have htag : ∀ c ∈ bs, Tagged m c := by
    intro c hc
    have hcs := h.size_ge hc
    have hout (i : Nat) (hi : c.Contains i)
        (ht : i < c.addr + 8 ∨ c.addr + c.size - 8 ≤ i) : m i = s.mem i := by
      by_contra hne
      have hbi := hin i hne
      have hcb : c = b := by
        by_contra hcb
        have := h.tiles.apart hc hb hcb
        unfold Block.Contains at hi
        omega
      subst hcb
      omega
    exact (h.tagged c hc).congr (fun i h1 h2 => hout i ⟨h1, by omega⟩ (Or.inl h2))
      (fun i h1 h2 => hout i ⟨by omega, h2⟩ (Or.inr h1)) (by omega)
  refine ⟨⟨h.least_ok, h.brk_le, h.tiles, h.sizes, h.first_eq, h.last_eq, htag, ?_, h.nodup,
    h.free_of_mem⟩, h.mem_of_free, h.no_adjacent⟩
  refine Layout.freeList_congr h.list fun i hla => ?_
  by_contra hne
  have hbi := hin i hne
  obtain ⟨c, hc, huc, h1, h2⟩ := linkArea_free h.free_of_mem hla
  have hcb : c ≠ b := fun he => by rw [he, hu] at huc; cases huc
  have := h.tiles.apart hc hb hcb
  omega

/-- A client's write into its payload keeps the invariant. -/
theorem Holds.write (h : Holds A least s U) {e : Nat × Nat} (he : e ∈ U) {m : Mem}
    (hm : ∀ i, i < e.1 ∨ e.1 + e.2 ≤ i → m i = s.mem i) : Holds A least { s with mem := m } U := by
  obtain ⟨bs, fl, h, rfl⟩ := h
  obtain ⟨b, hb, hu, rfl⟩ := he
  have hbs := h.size_ge hb
  refine ⟨bs, fl, h.write hb hu fun i hi => hm i ?_, rfl⟩
  dsimp only [Block.payload, OVERHEAD]
  omega

/-- Payloads in use are aligned, not `NULL` and inside the heap. -/
theorem Holds.placed (h : Holds A least s U) : ∀ e ∈ U,
    e.1 ≠ NULL ∧ e.1 % ALIGNMENT = 0 ∧ A.heap ≤ e.1 ∧ e.1 + e.2 ≤ s.memBrk := by
  obtain ⟨bs, fl, h, rfl⟩ := h
  intro e he
  have hheap := A.heap_aligned
  have hpos := A.heap_pos
  obtain ⟨h1, h2, h3⟩ := payloads_placed h.tiles
    (fun b hb => ⟨(h.sizes b hb).1, by have := h.size_ge hb; unfold OVERHEAD; omega⟩)
    (by unfold ALIGNMENT at hheap; omega) (by decide) e he
  exact ⟨by unfold NULL; omega, h1, by omega, h3⟩

/-- Payloads are apart, -/
theorem Holds.apart (h : Holds A least s U) : ∀ e ∈ U, ∀ f ∈ U,
    e = f ∨ (e.1 ≠ f.1 ∧ Apart e.1 e.2 f.1 f.2) := by
  obtain ⟨bs, fl, h, rfl⟩ := h
  exact payloads_apart h.tiles
    (fun b hb => by have := h.size_ge hb; unfold OVERHEAD; omega) (by decide)

/-- and the heap does not outgrow its arena. -/
theorem Holds.brk_le (h : Holds A least s U) : s.memBrk ≤ A.heap + MAX_HEAP := by
  obtain ⟨bs, fl, h, -⟩ := h
  exact h.brk_le

/-- The header of a payload in use gives its capacity. -/
theorem Holds.getSize_payload (h : Holds A least s U) {e : Nat × Nat} (he : e ∈ U) :
    ∃ k, getSize A (e.1 - 8) s = some k ∧ k - 16 = e.2 ∧ k % 16 = 0 ∧ 16 ≤ k := by
  obtain ⟨bs, fl, h, rfl⟩ := h
  obtain ⟨b, hb, hu, rfl⟩ := he
  have hbs := h.size_ge hb
  exact ⟨b.size, h.getSize_mem hb, rfl, hbs.1, hbs.2⟩

/-- All but reallocation. -/
theorem basicContract (A : Arena) : BasicContract A (allocator A) RequestOk (Inv A) where
  init := by
    intro r s t hbrk ht
    exact ⟨[], [], mmInit_spec hbrk ht, by simp⟩
  brk_le := fun s U h => (holds_iff.mpr h).brk_le
  placed := fun s U h => (holds_iff.mpr h).placed
  apart := fun s U h => (holds_iff.mpr h).apart
  lib_withMem := fun _ _ => rfl
  write := fun s U h e he m hm => holds_iff.mp ((holds_iff.mpr h).write he hm)
  malloc := fun s U h n r hn => mmMalloc_spec h r hn
  free_null := fun s => rfl
  free := by
    intro s U h e he
    obtain ⟨t, hrun, hinv, hkeep, -⟩ := mmFree_spec h he
    exact ⟨t, hrun, hinv, hkeep⟩

/-- **`mm_realloc`** of a payload stays in place or moves. -/
theorem mmRealloc_spec (h : Inv A s U) {e : Nat × Nat} (he : e ∈ U) {n : Nat} (refuse : Bool)
    (hn : RequestOk n) :
    ∃ q t, mmRealloc A e.1 n refuse s = some (q, t) ∧
      ((q = e.1 ∧ n ≤ e.2 ∧ Inv A t U ∧ Preserves U s.mem t.mem) ∨
        Moved (allocator A) (Inv A) U e n s q t) := by
  have C := basicContract A
  obtain ⟨hn16, hsize, hsize'⟩ := blockSize_spec hn.2
  obtain ⟨k, hk, hcap, hk16, hk32⟩ := (holds_iff.mpr h).getSize_payload he
  have hne : e.1 ≠ NULL := (C.placed s U h e he).1
  have hn0 : n ≠ 0 := by have := hn.1; omega
  have hround : roundUp ((8 + 8 + n) % 2 ^ 64) ALIGNMENT = blockSize n := rfl
  by_cases hfit : blockSize n ≤ k
  · refine ⟨e.1, s, ?_, Or.inl ⟨rfl, by omega, h, fun _ _ _ _ => rfl⟩⟩
    simp only [mmRealloc, hne, hn0, if_false, hk, hround, Option.bind_eq_bind, Option.bind_some, hfit,
      if_true]
  · obtain ⟨q, t, hrun, hmoved⟩ := C.move h he refuse hn (by omega)
    refine ⟨q, t, ?_, Or.inr hmoved⟩
    rw [← hrun]
    obtain ⟨p, u, hmalloc, -, hres⟩ := mmMalloc_spec h refuse hn
    simp only [mmRealloc, hne, hn0, if_false, hk, hround, Option.bind_eq_bind, Option.bind_some, hfit,
      hmalloc, Allocator.move, allocator]
    rcases hres with ⟨rfl, -⟩ | ⟨cap, -, hnew, hu⟩
    · simp
    · -- the old header is as it was, and the new block's payload is the new one
      obtain ⟨k', hk', hcap', -, hk32'⟩ := (holds_iff.mpr hu).getSize_payload (Or.inr he)
      have hp := C.placed u _ hu _ (Or.inl rfl)
      have hp8 : p - 8 + 8 = p := by
        have := A.heap_aligned
        have := A.heap_pos
        unfold ALIGNMENT at *
        dsimp only at hp
        omega
      have hlen : k' - 8 - 8 = e.2 := by omega
      simp only [hp.1, hk', hlen, hp8, if_false, Option.bind_some]
      unfold memcpy
      split <;> rfl

/-- **The explicit allocator keeps its contract.** -/
theorem contract (A : Arena) : Contract A (allocator A) RequestOk (Inv A) where
  toBasicContract := basicContract A
  realloc_null := fun s n r => rfl
  realloc_zero := by
    intro s p r hp
    simp only [allocator, mmRealloc, hp, if_false, if_true]
    cases mmFree A p s <;> rfl
  realloc := fun s U h e he n r hn _ => mmRealloc_spec h he r hn

/-- **Every reachable heap satisfies the heap invariant**, and every call a
client may make there returns. -/
theorem heapInvariant_of_reachable {c : Client State}
    (h : Reachable A (allocator A) RequestOk c) :
    (∃ bs fl, HeapInvariant A c.heap bs fl) ∧
      ∀ k r, Allowed RequestOk c.live k → ∃ q s, (allocator A).run k r c.heap = some (q, s) := by
  obtain ⟨U, hinv, hcov⟩ := (contract A).reachable_inv h
  refine ⟨?_, fun k r hk => ?_⟩
  · obtain ⟨bs, fl, hinv, -⟩ := hinv
    exact ⟨bs, fl, hinv⟩
  · obtain ⟨q, t, -, hrun, -⟩ := (contract A).call_ok hinv hcov hk r
    exact ⟨q, t, hrun⟩

/-- The statics before `mm_init`, over zeroed memory. -/
def resetState : State := ⟨⟨fun _ => 0, 4096⟩, NULL, NULL, NULL⟩

/-- What `mm_init` makes of them. -/
def emptyHeap : State := ⟨⟨fun _ => 0, 4104⟩, NULL, NULL, NULL⟩

/-- The empty heap is where a client starts. -/
theorem starts_emptyHeap : Starts lowArena (allocator lowArena) ⟨emptyHeap, []⟩ := by
  have hinit : mmInit lowArena false resetState = (true, emptyHeap) := by
    simp [mmInit, memSbrk, resetState, emptyHeap, lowArena, Arena.mapped, ALIGNMENT, MAX_HEAP,
      SBRK_FAILED]
  refine ⟨resetState, false, rfl, ?_, rfl⟩
  simp only [allocator]
  exact hinit

/-- The first block of the heap. -/
theorem malloc_emptyHeap {n size : Nat} (hsize : roundUp ((8 + 8 + n) % 2 ^ 64) ALIGNMENT = size)
    (h16 : 16 ≤ size) (hle : size ≤ 2 ^ 20) :
    (allocator lowArena).run (.malloc n) false emptyHeap =
      some (4112, ⟨⟨tagMem (fun _ => 0) 4104 size true, 4104 + size⟩, 4104, 4104, NULL⟩) := by
  have hheap : lowArena.heap = 4096 := rfl
  have hbrk : memSbrk lowArena size false ⟨fun _ => 0, 4104⟩ =
      (4104, ⟨fun _ => 0, 4104 + size⟩) := by
    refine if_neg ?_
    simp only [Bool.false_eq_true, false_or, hheap, MAX_HEAP]
    omega
  have hset : setHeader lowArena 4104 size true ⟨⟨fun _ => 0, 4104 + size⟩, 4104, 4104, NULL⟩ =
      some ⟨⟨tagMem (fun _ => 0) 4104 size true, 4104 + size⟩, 4104, 4104, NULL⟩ :=
    setHeader_eq (by unfold MAX_HEAP; omega) (by omega) (le_refl _) (by omega)
  simp only [Allocator.run, allocator, mmMalloc, hsize]
  simp [findFit, findFitFrom, emptyHeap, hbrk, SBRK_FAILED, hset]

/-- A heap with one block of 48 bytes, in use. -/
def oneBlock : State := ⟨⟨tagMem (fun _ => 0) 4104 48 true, 4152⟩, 4104, 4104, NULL⟩

/-- `mm_init(); mm_malloc(24)` leads there. -/
theorem reachable_oneBlock :
    Reachable lowArena (allocator lowArena) RequestOk ⟨oneBlock, [(4112, 24)]⟩ := by
  have hallowed : Allowed RequestOk [] (.malloc 24) :=
    ⟨Or.inl rfl, fun n hn => by obtain rfl := Option.some.inj hn; decide⟩
  have hrun : (allocator lowArena).run (.malloc 24) false emptyHeap = some (4112, oneBlock) :=
    malloc_emptyHeap (by decide) (by decide) (by decide)
  have hstep : Moves (allocator lowArena) RequestOk ⟨emptyHeap, []⟩
      ⟨oneBlock, liveAfter [] (.malloc 24) 4112⟩ := .call hallowed hrun
  have hlive : liveAfter [] (.malloc 24) 4112 = [(4112, 24)] := by decide
  rw [hlive] at hstep
  exact .step (.init starts_emptyHeap) hstep

/-- The heap with the block given back. -/
def freedBlock : State := (mmFree lowArena 4112 oneBlock).getD oneBlock

/-- `mm_free` leads there. -/
theorem reachable_freedBlock : Reachable lowArena (allocator lowArena) RequestOk ⟨freedBlock, []⟩ := by
  have hallowed : Allowed RequestOk [(4112, 24)] (.free 4112) :=
    ⟨Or.inr ⟨24, List.mem_singleton.mpr rfl⟩, fun n hn => by cases hn⟩
  have hsome : (mmFree lowArena 4112 oneBlock).isSome = true := by decide +kernel
  obtain ⟨s, hfree⟩ := Option.isSome_iff_exists.mp hsome
  have hrun : (allocator lowArena).run (.free 4112) false oneBlock = some (NULL, freedBlock) := by
    rw [freedBlock, hfree]
    exact congrArg (Option.map fun s => (NULL, s)) hfree
  have hstep : Moves (allocator lowArena) RequestOk ⟨oneBlock, [(4112, 24)]⟩
      ⟨freedBlock, liveAfter [(4112, 24)] (.free 4112) NULL⟩ := .call hallowed hrun
  have hlive : liveAfter [(4112, 24)] (.free 4112) NULL = [] := by decide
  rw [hlive] at hstep
  exact .step reachable_oneBlock hstep

/-- A heap of one block, which is in use. -/
theorem heapInvariant_oneBlock :
    (∃ bs fl, HeapInvariant lowArena oneBlock bs fl) ∧
      ∀ k r, Allowed RequestOk [(4112, 24)] k →
        ∃ q s, (allocator lowArena).run k r oneBlock = some (q, s) :=
  heapInvariant_of_reachable reachable_oneBlock

/-- **Every reachable client is served.** -/
theorem served_of_reachable {c : Client State}
    (h : Reachable A (allocator A) RequestOk c) : Served A (allocator A) RequestOk c :=
  (contract A).served h

/-- Its payload is served. -/
theorem served_oneBlock :
    Served lowArena (allocator lowArena) RequestOk ⟨oneBlock, [(4112, 24)]⟩ :=
  served_of_reachable reachable_oneBlock

end Malloc.Explicit
