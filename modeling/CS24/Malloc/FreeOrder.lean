import CS24.Malloc.Reuse

/-!
# Freeing in any order

The explicit allocator keeps its heap in a canonical form: the blocks in use and
the break determine all blocks, because no two free ones are neighbours, and the
free list holds exactly the free ones.  `mm_free` removes one block in use and
moves no break.  So the order of several calls shows only in the order of the
free list.
-/

namespace Malloc.Explicit

open Bytes Links Tiling

variable {A : Arena} {s t : State} {U : Payloads} {fl : List Nat}

/-- Calls `mm_free` on all the pointers, in this order. -/
def freeAll (A : Arena) : List Nat → State → Option State
  | [], s => some s
  | ptr :: ptrs, s => do
    let s ← mmFree A ptr s
    freeAll A ptrs s

/-- The nodes of the free list from `node` on. -/
def freeNodesFrom (A : Arena) : Nat → Nat → State → Option (List Nat)
  | 0, _, _ => none
  | fuel + 1, node, s =>
    if node = NULL then some []
    else do
      let rest ← freeNodesFrom A fuel (← right A node s) s
      some (node :: rest)

/-- The nodes of the free list.  It has fewer nodes than the heap has bytes. -/
def freeNodes (A : Arena) (s : State) : Option (List Nat) :=
  freeNodesFrom A (s.memBrk + 1) s.freeListFirst s

/-- The same blocks, the same first and last block, and the same blocks in the free
lists, maybe in another order. -/
structure SameHeap (A : Arena) (s t : State) : Prop where
  blocks : ∃ bs, heapBlocks A s.toMemlib = some bs ∧ heapBlocks A t.toMemlib = some bs
  first : s.mmHeapFirst = t.mmHeapFirst
  last : s.mmHeapLast = t.mmHeapLast
  nodes : ∃ fl gl, freeNodes A s = some fl ∧ freeNodes A t = some gl ∧ fl.Perm gl

/-- A walk over the free list visits its nodes.  By induction on those still to come. -/
theorem Layout.freeNodesFrom_eq {least : Nat} {bs : List Block} {before after : List Nat}
    (h : Layout A least s bs (before ++ after)) {fuel : Nat} (hfuel : after.length < fuel) :
    freeNodesFrom A fuel (first NULL after) s = some after := by
  obtain ⟨fuel, rfl⟩ : ∃ k, fuel = k + 1 := ⟨fuel - 1, by omega⟩
  induction after generalizing before fuel with
  | nil => simp [freeNodesFrom]
  | cons x after ih =>
      obtain ⟨fuel, rfl⟩ : ∃ k, fuel = k + 1 := ⟨fuel - 1, by simp at hfuel; omega⟩
      have hnode := h.list_nodeIn (x := x) (by simp)
      have hright : right A x s = some (first NULL after) := by
        rw [← h.list.links.right_mid]
        exact right_eq h.brk_le hnode
      have hnext : Layout A least s bs ((before ++ [x]) ++ after) := by simpa using h
      have hrun := ih hnext fuel (by simpa using hfuel)
      rw [first_cons, freeNodesFrom]
      simp [hnode.ne_null, hright, hrun]

theorem Layout.freeNodes_eq {least : Nat} {bs : List Block} (h : Layout A least s bs fl) :
    freeNodes A s = some fl := by
  have hall : Layout A least s bs ([] ++ fl) := h
  rw [freeNodes, h.list.head_eq]
  exact hall.freeNodesFrom_eq h.length_lt

/-- **The canonical form**: the payloads in use and the break determine the heap. -/
theorem Inv.sameHeap (hs : Inv A s U) (ht : Inv A t U) (hbrk : s.memBrk = t.memBrk) :
    SameHeap A s t := by
  obtain ⟨bs, fl, hs, hU⟩ := hs
  obtain ⟨cs, gl, ht, hU'⟩ := ht
  have hS := settled_iff.mpr hs
  have hT := settled_iff.mpr ht
  have hsame : SameUsed bs cs := sameUsed_of_payloads (k := OVERHEAD) (hU.symm.trans hU')
    (fun b hb => (hS.size_ge hb).2) (fun b hb => (hT.size_ge hb).2)
  have htiles : TileHeap (A.heap + 8) cs s.memBrk := hbrk ▸ hT.tiles
  obtain rfl : bs = cs :=
    hsame.eq hS.tiles htiles hS.pos hT.pos hS.no_adjacent hT.no_adjacent
  -- both lists hold exactly the free blocks
  have hmem {u : State} {l : List Nat} (h : Settled A 32 u bs l) (a : Nat) :
      a ∈ l ↔ ∃ b ∈ bs, b.addr = a ∧ b.used = false := by
    constructor
    · intro ha
      obtain ⟨b, hb, haddr, hu, -⟩ := h.free_of_mem a ha
      exact ⟨b, hb, haddr, hu⟩
    · rintro ⟨b, hb, rfl, hu⟩
      exact h.mem_of_free b hb hu
  refine ⟨⟨bs, hS.heapBlocks_eq, hT.heapBlocks_eq⟩, hS.first_eq.trans hT.first_eq.symm,
    hS.last_eq.trans hT.last_eq.symm, fl, gl, hS.freeNodes_eq, hT.freeNodes_eq, ?_⟩
  rw [List.perm_ext_iff_of_nodup hS.nodup hT.nodup]
  exact fun a => (hmem hS a).trans (hmem hT a).symm

/-- **Freeing several payloads** gives up exactly them.  By induction on the pointers. -/
theorem Inv.freeAll (h : Inv A s U) {ptrs : List Nat} (hnodup : ptrs.Nodup)
    (hptrs : ∀ p ∈ ptrs, ∃ cap, (p, cap) ∈ U) :
    ∃ t, freeAll A ptrs s = some t ∧ Inv A t {e ∈ U | e.1 ∉ ptrs} ∧ t.memBrk = s.memBrk := by
  induction ptrs generalizing s U with
  | nil => exact ⟨s, rfl, by simpa using h, rfl⟩
  | cons p ptrs ih =>
      obtain ⟨hp, hnodup⟩ := List.nodup_cons.mp hnodup
      obtain ⟨cap, hcap⟩ := hptrs p (by simp)
      have huniq : ∀ f ∈ U, f.1 = p → f = (p, cap) := fun f hf heq =>
        (((holds_iff.mpr h).apart) f hf _ hcap).resolve_right fun hne => hne.1 heq
      obtain ⟨u, hfree, hu, -, hbrk⟩ := mmFree_spec h hcap
      obtain ⟨t, hrun, ht, hbrk'⟩ := ih hu hnodup fun r hr => by
        obtain ⟨c, hc⟩ := hptrs r (by simp [hr])
        refine ⟨c, hc, fun he => hp ?_⟩
        obtain rfl : r = p := congrArg Prod.fst (Set.mem_singleton_iff.mp he)
        exact hr
      have hrest : {e ∈ U \ {(p, cap)} | e.1 ∉ ptrs} = {e ∈ U | e.1 ∉ p :: ptrs} := by
        ext e
        constructor
        · rintro ⟨⟨he, hne⟩, hout⟩
          refine ⟨he, fun hm => ?_⟩
          rcases List.mem_cons.mp hm with heq | hm
          · exact hne (huniq e he heq)
          · exact hout hm
        · rintro ⟨he, hout⟩
          refine ⟨⟨he, fun heq => hout ?_⟩, fun hm => hout (by simp [hm])⟩
          rw [Set.mem_singleton_iff.mp heq]
          simp
      refine ⟨t, ?_, hrest ▸ ht, hbrk'.trans hbrk⟩
      simp [Explicit.freeAll, hfree, hrun]

/-- **Freeing is independent of the order**, in every state that clients reach and for
every set of live pointers. -/
theorem free_order {c : Client State} (h : CallocReachable A (allocator A) RequestOk c)
    {ptrs ptrs' : List Nat} (hnodup : ptrs.Nodup) (hlive : ∀ p ∈ ptrs, ∃ n, (p, n) ∈ c.live)
    (hperm : ptrs.Perm ptrs') :
    ∃ s t, freeAll A ptrs c.heap = some s ∧ freeAll A ptrs' c.heap = some t ∧
      SameHeap A s t := by
  have hreach := h.reachable (lawful A) fun _ => RequestOk.le_max
  obtain ⟨U, hinv, hcov⟩ := (contract A).reachable_inv hreach
  have hptrs : ∀ p ∈ ptrs, ∃ cap, (p, cap) ∈ U := by
    intro p hp
    obtain ⟨n, hn⟩ := hlive p hp
    obtain ⟨cap, -, hcap⟩ := hcov.cap _ hn
    exact ⟨cap, hcap⟩
  obtain ⟨s, hs, hsinv, hsbrk⟩ := hinv.freeAll hnodup hptrs
  obtain ⟨t, ht, htinv, htbrk⟩ :=
    hinv.freeAll (hperm.nodup_iff.mp hnodup) fun p hp => hptrs p (hperm.mem_iff.mpr hp)
  have hrest : {e ∈ U | e.1 ∉ ptrs} = {e ∈ U | e.1 ∉ ptrs'} := by
    ext e
    simp only [Set.mem_ofPred_eq, hperm.mem_iff]
  exact ⟨s, t, hs, ht, (hrest ▸ hsinv).sameHeap htinv (hsbrk.trans htbrk.symm)⟩

/-- A heap with two blocks of 48 bytes, in use. -/
def twoBlocks : State :=
  ⟨⟨tagMem (tagMem (fun _ => 0) 4104 48 true) 4152 48 true, 4200⟩, 4104, 4152, NULL⟩

/-- `mm_init(); mm_malloc(24); mm_malloc(24)` leads there. -/
theorem reachable_twoBlocks :
    Reachable lowArena (allocator lowArena) RequestOk ⟨twoBlocks, [(4160, 24), (4112, 24)]⟩ := by
  have hallowed : Allowed RequestOk [(4112, 24)] (.malloc 24) :=
    ⟨Or.inl rfl, fun n hn => by obtain rfl := Option.some.inj hn; decide⟩
  have hheap : lowArena.heap = 4096 := rfl
  have hsize : roundUp ((8 + 8 + 24) % 2 ^ 64) ALIGNMENT = 48 := by decide
  have hbrk (m : Mem) : memSbrk lowArena 48 false ⟨m, 4152⟩ = (4152, ⟨m, 4200⟩) := by
    refine if_neg ?_
    simp only [Bool.false_eq_true, false_or, hheap, MAX_HEAP]
    omega
  have hset (m : Mem) : setHeader lowArena 4152 48 true ⟨⟨m, 4200⟩, 4104, 4152, NULL⟩ =
      some ⟨⟨tagMem m 4152 48 true, 4200⟩, 4104, 4152, NULL⟩ :=
    setHeader_eq (by unfold MAX_HEAP; omega) (by omega) (le_refl _) (by omega)
  have hrun : (allocator lowArena).run (.malloc 24) false oneBlock = some (4160, twoBlocks) := by
    simp only [Allocator.run, allocator, mmMalloc, hsize]
    have hnull : (4104 : Nat) ≠ NULL := by decide
    simp [findFit, findFitFrom, oneBlock, twoBlocks, hbrk, SBRK_FAILED, hset, hnull]
  have hstep : Moves (allocator lowArena) RequestOk ⟨oneBlock, [(4112, 24)]⟩
      ⟨twoBlocks, liveAfter [(4112, 24)] (.malloc 24) 4160⟩ := .call hallowed hrun
  have hlive : liveAfter [(4112, 24)] (.malloc 24) 4160 = [(4160, 24), (4112, 24)] := by decide
  rw [hlive] at hstep
  exact .step reachable_oneBlock hstep

theorem free_order_twoBlocks :
    ∃ s t, freeAll lowArena [4112, 4160] twoBlocks = some s ∧
      freeAll lowArena [4160, 4112] twoBlocks = some t ∧ SameHeap lowArena s t :=
  free_order reachable_twoBlocks.calloc (by decide)
    (fun p hp => ⟨24, by simp at hp ⊢; omega⟩) (List.Perm.swap _ _ _)

end Malloc.Explicit
