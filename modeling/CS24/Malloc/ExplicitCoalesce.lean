import CS24.Malloc.ExplicitHeap
import CS24.Malloc.Payloads

/-!
# `coalesce` of the explicit allocator

A block has just been retagged as free: it is not in the free list yet, and its
neighbours may be free.  Everything else is in order.  The first half of
`coalesce` repairs the left side, the second half the right side, and the call
ends in the heap invariant, with the same blocks in use.
-/

namespace Malloc.Explicit

open Bytes Links Tiling

/-- A heap in order except for the free block `b`: it may touch free blocks, and
`listed` says whether it is in the free list. -/
structure Loose (A : Arena) (least : Nat) (s : State) (pre : List Block) (b : Block) (post : List Block)
    (fl : List Nat) (listed : Bool) : Prop where
  shape : Layout A least s (pre ++ b :: post) fl
  free : b.used = false
  listed_iff : listed = true ↔ b.addr ∈ fl
  others : ∀ c ∈ pre ++ post, c.used = false → c.addr ∈ fl
  left : NoAdjacent pre
  right : NoAdjacent post

/-- The block has room for links, or a free neighbour it will be merged with. -/
def HasRoom (pre : List Block) (b : Block) (post : List Block) : Prop :=
  32 ≤ b.size ∨ (∃ c ∈ pre.getLast?, c.used = false) ∨ ∃ c ∈ post.head?, c.used = false

variable {A : Arena} {least : Nat} {s : State} {pre post bs : List Block} {b c : Block} {fl : List Nat}
  {listed : Bool}

/-- Changes inside a free block and the free block behind it are changes of free bytes. -/
theorem freeOnly_pair {m m' : Mem} (hb : b.used = false) (hc : c.used = false)
    (hm : ∀ i, ¬ b.Contains i → ¬ c.Contains i → m' i = m i) :
    FreeOnly m m' (pre ++ b :: c :: post) :=
  fun i hi => hm i (hi b (by simp) hb) (hi c (by simp) hc)

/-- Writing the tags of two merged blocks changes bytes of these blocks only. -/
theorem tagMem_pair {m : Mem} {i : Nat} {used : Bool} (hnext : c.addr = b.addr + b.size)
    (h8 : 8 ≤ b.size) (hb : ¬ b.Contains i) (hc : ¬ c.Contains i) :
    tagMem m b.addr (b.size + c.size) used i = m i := by
  unfold Block.Contains at hb hc
  exact tagMem_outside (by omega) (by omega)

/-- Reading the tags of a block of the heap. -/
theorem Layout.getSize_mem (h : Layout A least s bs fl) (hb : b ∈ bs) :
    getSize A b.addr s = some b.size := by
  have hbs := h.size_ge hb
  have hbnd := h.bounds hb
  exact getSize_eq h.brk_le (h.tagged b hb) (by omega) hbnd.2 (by omega) (by omega)

theorem Layout.isAllocated_mem (h : Layout A least s bs fl) (hb : b ∈ bs) :
    isAllocated A b.addr s = some b.used := by
  have hbs := h.size_ge hb
  have hbnd := h.bounds hb
  exact isAllocated_eq h.brk_le (h.tagged b hb) (by omega) hbnd.2 (by omega) (by omega)

/-- The footer of the block before a block. -/
theorem Layout.footer_before (h : Layout A least s (pre ++ c :: b :: post) fl) :
    load A (b.addr - 8) s.toMemlib = some c.word := by
  have hc : c ∈ pre ++ c :: b :: post := by simp
  have hcs := h.size_ge hc
  have hbnd := h.bounds hc
  have hnext : b.addr = c.addr + c.size := h.tiles.next_addr
  rw [hnext]
  exact footer_eq h.brk_le (h.tagged c hc) (by omega) hbnd.2 (by omega) (by omega)

/-- **The first half** merges with a free block before and leaves the left side
in order. -/
theorem coalesceLeft_spec (h : Loose A least s pre b post fl false) (hroom : HasRoom pre b post) :
    ∃ pre' b' listed t, coalesceLeft A b.addr s = some (b'.addr, listed, t) ∧
      Loose A least t pre' b' post fl listed ∧ NoAdjacent (pre' ++ [b']) ∧
      (32 ≤ b'.size ∨ ∃ c ∈ post.head?, c.used = false) ∧
      SameUsed (pre ++ b :: post) (pre' ++ b' :: post) ∧
      FreeOnly s.mem t.mem (pre ++ b :: post) ∧ t.memBrk = s.memBrk := by
  have hS := h.shape
  rcases List.eq_nil_or_concat pre with rfl | ⟨pre, c, rfl⟩
  · -- the first block of the heap
    have hroom' : 32 ≤ b.size ∨ ∃ c ∈ post.head?, c.used = false := by
      simpa [HasRoom] using hroom
    refine ⟨[], b, false, s, ?_, h, by simp, hroom', .refl _, .refl _ _, rfl⟩
    have : b.addr = s.mmHeapFirst := hS.first_eq.symm
    simp [coalesceLeft, this]
  · simp only [List.concat_eq_append, List.append_assoc, List.singleton_append] at *
    have hc : c ∈ pre ++ c :: b :: post := by simp
    have hb : b ∈ pre ++ c :: b :: post := by simp
    have hcs := hS.size_ge hc
    have hcb := hS.bounds hc
    have hbrk := hS.brk_le
    have hlow := A.heap_low
    have hnext : b.addr = c.addr + c.size := hS.tiles.next_addr
    have hfirst : b.addr ≠ s.mmHeapFirst := by
      rw [hS.first_eq]
      intro he
      have htiles : TileHeap (A.heap + 8) ((pre ++ [c]) ++ b :: post) s.memBrk := by
        simpa using hS.tiles
      have := (eq_firstAddr_iff htiles (by simpa using hS.pos)).mp (by simpa using he)
      simp at this
    have hword : wordSize c.word = c.size := wordSize_add (by omega) (by omega)
    have hleft : b.addr - c.size = c.addr := by omega
    cases hu : c.used with
    | true =>
        have hroom' : 32 ≤ b.size ∨ ∃ c ∈ post.head?, c.used = false := by
          simpa [HasRoom, hu] using hroom
        refine ⟨pre ++ [c], b, false, s, ?_, by simpa using h, ?_, hroom',
          by simpa using SameUsed.refl _, .refl _ _, rfl⟩
        · simp [coalesceLeft, hfirst, hS.footer_before, hword, hleft, hS.isAllocated_mem hc, hu]
        · exact List.isChain_append.mpr ⟨h.left, by simp, by simp [hu]⟩
    | false =>
        have hnew : b.addr ∉ fl := fun hm => by have := h.listed_iff.mpr hm; cases this
        obtain ⟨hrun, hshape⟩ := hS.merge (c := b) hu hnew
        have hmem := h.others c (by simp) hu
        have hbs := hS.size_ge hb
        refine ⟨pre, ⟨c.addr, c.size + b.size, false⟩, true, _, ?_, ⟨hshape, rfl, by simpa using hmem,
          fun d hd => h.others d (by simp at hd ⊢; tauto), h.left.of_append.1, h.right⟩, ?_,
          Or.inl (by dsimp only; omega), sameUsed_merge hu h.free, ?_, rfl⟩
        · simp only [coalesceLeft, hfirst, hS.footer_before, hword, hleft, hS.isAllocated_mem hc, hu,
            hS.getSize_mem hc, hS.getSize_mem hb, hrun, ne_eq, not_false_eq_true, if_true,
            Option.bind_eq_bind, Option.bind_some]
          split <;> simp_all
        · -- the block before a free block is in use
          exact List.isChain_append.mpr ⟨h.left.of_append.1, by simp, fun d hd e he => by
            obtain rfl : _ = e := by simpa using he
            have := (List.isChain_append.mp h.left).2.2 d hd c (by simp)
            exact Or.inl (this.resolve_right (by simp [hu]))⟩
        · exact freeOnly_pair hu h.free fun i hci hbi =>
            tagMem_pair hnext (by omega) hci hbi

/-- **The second half** merges with a free block behind, which leaves the list. -/
theorem coalesceRight_spec (h : Loose A least s pre b post fl listed)
    (hl : NoAdjacent (pre ++ [b])) (hroom : 32 ≤ b.size ∨ ∃ c ∈ post.head?, c.used = false) :
    ∃ b' post' fl' t, coalesceRight A b.addr s = some t ∧ b'.addr = b.addr ∧
      Loose A least t pre b' post' fl' listed ∧ NoAdjacent (pre ++ b' :: post') ∧
      32 ≤ b'.size ∧
      SameUsed (pre ++ b :: post) (pre ++ b' :: post') ∧
      FreeOnly s.mem t.mem (pre ++ b :: post) ∧ t.memBrk = s.memBrk := by
  have hS := h.shape
  have hlast : b.addr < s.mmHeapLast ↔ post ≠ [] := hS.last_eq ▸ lt_lastAddr_iff hS.tiles hS.pos
  cases post with
  | nil =>
      refine ⟨b, [], fl, s, ?_, rfl, h, hl, by simpa using hroom, .refl _, .refl _ _, rfl⟩
      simp [coalesceRight, hlast]
  | cons c post =>
      have hc : c ∈ pre ++ b :: c :: post := by simp
      have hb : b ∈ pre ++ b :: c :: post := by simp
      have hcs := hS.size_ge hc
      have hbs := hS.size_ge hb
      have hnext : b.addr + b.size = c.addr := hS.tiles.next_addr.symm
      have hbmem := hS.getSize_mem hb
      have hcmem := hS.isAllocated_mem hc
      have hlt : b.addr < s.mmHeapLast := hlast.mpr (by simp)
      cases hu : c.used with
      | true =>
          refine ⟨b, c :: post, fl, s, ?_, rfl, h, ?_, by simpa [hu] using hroom, .refl _, .refl _ _,
            rfl⟩
          · simp [coalesceRight, hlt, hbmem, hnext, hcmem, hu]
          · rw [List.append_cons]
            exact List.isChain_append.mpr ⟨hl, h.right, by simp [hu]⟩
      | false =>
          obtain ⟨before, after, rfl⟩ := List.append_of_mem (h.others c (by simp) hu)
          obtain ⟨m, hrun1, hS1, hm1⟩ := hS.removeNode
          have hout : c.addr ∉ before ++ after :=
            (List.nodup_cons.mp (List.nodup_middle.mp hS.nodup)).1
          obtain ⟨hrun2, hS2⟩ := hS1.merge h.free hout
          have hne : b.addr ≠ c.addr := by omega
          have hsub (a : Nat) (ha : a ≠ c.addr) :
              a ∈ before ++ c.addr :: after ↔ a ∈ before ++ after := by simp [ha]
          have hright := List.isChain_cons.mp h.right
          refine ⟨⟨b.addr, b.size + c.size, false⟩, post, before ++ after, _, ?_, rfl,
            ⟨hS2, rfl, h.listed_iff.trans (hsub _ hne), fun d hd hud => ?_, h.left, hright.2⟩, ?_,
            by dsimp only; omega, sameUsed_merge h.free hu, ?_, rfl⟩
          · simp only [coalesceRight, hlt, hbmem, hnext, hcmem, hu, hrun1, hS1.getSize_mem hb,
              hS1.getSize_mem hc, hrun2, if_true, Option.bind_eq_bind, Option.bind_some]
            split <;> simp_all
          · refine (hsub _ ?_).mp (h.others d (by simp at hd ⊢; tauto) hud)
            have htiles : TileHeap (A.heap + 8) ((pre ++ [b]) ++ c :: post) s.memBrk := by
              simpa using hS.tiles
            exact htiles.addr_ne (by simpa using hS.pos) (by simp at hd ⊢; tauto)
          · have hpost : ∀ d ∈ post.head?, d.used = true :=
              fun d hd => (hright.1 d hd).resolve_left (by simp [hu])
            refine List.isChain_append.mpr ⟨h.left, List.isChain_cons.mpr
              ⟨fun d hd => Or.inr (hpost d hd), hright.2⟩, fun d hd e he => ?_⟩
            have := (List.isChain_append.mp hl).2.2 d hd b (by simp)
            exact Or.inl (this.resolve_right (by simp [h.free]))
          · refine fun i hi => ?_
            have htag : tagMem m b.addr (b.size + c.size) false i = m i :=
              tagMem_pair hnext.symm (by omega) (hi b hb h.free) (hi c hc hu)
            exact htag.trans (hm1 i hi)

/-- **`coalesce`** restores the heap invariant and keeps the blocks in use. -/
theorem coalesce_spec (h : Loose A least s pre b post fl false) (hroom : HasRoom pre b post) :
    ∃ bs fl' t, coalesce A b.addr s = some t ∧ Settled A least t bs fl' ∧
      SameUsed (pre ++ b :: post) bs ∧ FreeOnly s.mem t.mem (pre ++ b :: post) ∧
      t.memBrk = s.memBrk := by
  obtain ⟨pre1, b1, listed, s1, hrun1, h1, hleft1, hroom1, hsame1, hkeep1, hbrk1⟩ :=
    coalesceLeft_spec h hroom
  obtain ⟨b2, post2, fl2, s2, hrun2, haddr, h2, hchain, hroom2, hsame2, hkeep2, hbrk2⟩ :=
    coalesceRight_spec h1 hleft1 hroom1
  have hb2 : b2 ∈ pre1 ++ b2 :: post2 := by simp
  have htiles1 : TileHeap (A.heap + 8) (pre1 ++ b1 :: post) s.memBrk := hbrk1 ▸ h1.shape.tiles
  have htiles2 : TileHeap (A.heap + 8) (pre1 ++ b2 :: post2) s.memBrk :=
    (hbrk2.trans hbrk1) ▸ h2.shape.tiles
  have hkeep : FreeOnly s.mem s2.mem (pre ++ b :: post) :=
    hkeep1.trans_same hsame1 h.shape.tiles htiles1 hkeep2
  cases listed with
  | true =>
      refine ⟨_, fl2, s2, ?_, ⟨h2.shape, fun c hc hu => ?_, hchain⟩, hsame1.trans hsame2, hkeep,
        hbrk2.trans hbrk1⟩
      · simp [coalesce, hrun1, hrun2]
      · by_cases hcb : c = b2
        · exact hcb ▸ h2.listed_iff.mp rfl
        · exact h2.others c (by simp at hc ⊢; tauto) hu
  | false =>
      have hnew : b2.addr ∉ fl2 := fun hm => by have := h2.listed_iff.mpr hm; cases this
      obtain ⟨m, hrun3, hS3, hm3⟩ := h2.shape.addNode hb2 h2.free hroom2 hnew
      refine ⟨_, _, _, ?_, ⟨hS3, fun c hc hu => ?_, hchain⟩, hsame1.trans hsame2,
        hkeep.trans_same (hsame1.trans hsame2) h.shape.tiles htiles2 hm3, hbrk2.trans hbrk1⟩
      · rw [haddr] at hrun3
        simp [coalesce, hrun1, hrun2, haddr, hrun3]
      · by_cases hcb : c = b2
        · simp [hcb]
        · exact List.mem_cons_of_mem _ (h2.others c (by simp at hc ⊢; tauto) hu)

end Malloc.Explicit
