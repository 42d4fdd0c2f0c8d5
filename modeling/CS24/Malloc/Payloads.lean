import CS24.Malloc.Blocks
import CS24.Malloc.Client

/-!
# Blocks in use and the payloads in them

A payload starts behind the header word; a block has `overhead` bytes that are
not payload.  The payloads of a block list depend only on the blocks in use,
and they are preserved by whatever changes only bytes of free blocks.
-/

namespace Malloc

open Bytes Tiling

/-- The same blocks are in use. -/
def SameUsed (bs bs' : List Block) : Prop := ∀ c, c.used = true → (c ∈ bs ↔ c ∈ bs')

/-- The blocks in use are the same when nothing happens, -/
theorem SameUsed.refl (bs : List Block) : SameUsed bs bs := fun _ _ => Iff.rfl

/-- and after two steps that leave them. -/
theorem SameUsed.trans {bs bs' bs'' : List Block} (h : SameUsed bs bs')
    (h' : SameUsed bs' bs'') : SameUsed bs bs'' := fun c hc => (h c hc).trans (h' c hc)

/-- Merging free blocks leaves the blocks in use as they are. -/
theorem sameUsed_merge {n : Nat} (hb : b.used = false) (hc : c.used = false) :
    SameUsed (pre ++ b :: c :: post) (pre ++ ⟨b.addr, n, false⟩ :: post) := by
  intro d hd
  have hdb : d ≠ b := fun he => by rw [he, hb] at hd; cases hd
  have hdc : d ≠ c := fun he => by rw [he, hc] at hd; cases hd
  have hdn : d ≠ ⟨b.addr, n, false⟩ := fun he => by rw [he] at hd; cases hd
  simp [hdb, hdc, hdn]

/-- The payload in a block, with its capacity. -/
def Block.payload (overhead : Nat) (b : Block) : Nat × Nat := (b.addr + 8, b.size - overhead)

/-- The payloads of the blocks in use. -/
def payloads (overhead : Nat) (bs : List Block) : Payloads :=
  {e | ∃ b ∈ bs, b.used = true ∧ b.payload overhead = e}

variable {k lo hi : Nat} {bs bs' cs pre post : List Block} {b : Block} {m m' : Mem}

/-- The free bytes depend only on the blocks in use. -/
theorem SameUsed.freeByte_iff (h : SameUsed bs cs) (hb : TileHeap lo bs hi)
    (hc : TileHeap lo cs hi) (i : Nat) : FreeByte bs i ↔ FreeByte cs i := by
  have hused : Within Block.addr Block.size (fun b => b.used = true) bs i ↔
      Within Block.addr Block.size (fun b => b.used = true) cs i := by
    constructor
    · rintro ⟨b, hm, hu, hi⟩
      exact ⟨b, (h b hu).mp hm, hu, hi⟩
    · rintro ⟨b, hm, hu, hi⟩
      exact ⟨b, (h b hu).mpr hm, hu, hi⟩
  unfold FreeByte
  rw [hb.within_not, hc.within_not, hused]

/-- Changes of free bytes, one after the other, while the blocks in use stay. -/
theorem FreeOnly.trans_same {m'' : Mem} (h : FreeOnly m m' bs) (hsame : SameUsed bs cs)
    (hb : TileHeap lo bs hi) (hc : TileHeap lo cs hi) (h' : FreeOnly m' m'' cs) :
    FreeOnly m m'' bs := by
  refine h.trans (h'.mono fun b hm hu i hi => ?_)
  exact freeByte_iff.mp ((hsame.freeByte_iff hb hc i).mpr (freeByte_iff.mpr ⟨b, hm, hu, hi⟩))

/-- So are the payloads. -/
theorem SameUsed.payloads_eq (h : SameUsed bs bs') : payloads k bs = payloads k bs' := by
  ext e
  constructor
  · rintro ⟨b, hb, hu, rfl⟩
    exact ⟨b, (h b hu).mp hb, hu, rfl⟩
  · rintro ⟨b, hb, hu, rfl⟩
    exact ⟨b, (h b hu).mpr hb, hu, rfl⟩

@[simp] theorem payloads_nil : payloads k [] = ∅ := by simp [payloads]

/-- A block in use adds its payload. -/
theorem payloads_used (hu : b.used = true) :
    payloads k (pre ++ b :: post) = insert (b.payload k) (payloads k (pre ++ post)) := by
  ext e
  simp only [payloads, List.mem_append, List.mem_cons, Set.mem_ofPred_eq, Set.mem_insert_iff]
  constructor
  · rintro ⟨c, hc | rfl | hc, huc, rfl⟩
    · exact Or.inr ⟨c, Or.inl hc, huc, rfl⟩
    · exact Or.inl rfl
    · exact Or.inr ⟨c, Or.inr hc, huc, rfl⟩
  · rintro (rfl | ⟨c, hc | hc, huc, rfl⟩)
    · exact ⟨b, Or.inr (Or.inl rfl), hu, rfl⟩
    · exact ⟨c, Or.inl hc, huc, rfl⟩
    · exact ⟨c, Or.inr (Or.inr hc), huc, rfl⟩

/-- A free block adds nothing. -/
theorem payloads_free (hu : b.used = false) :
    payloads k (pre ++ b :: post) = payloads k (pre ++ post) := by
  refine SameUsed.payloads_eq fun c hc => ?_
  have hne : c ≠ b := fun he => by rw [he, hu] at hc; cases hc
  simp [hne]

/-- No byte differs outside the heap and in the blocks of the payloads `U`, headers
included. -/
def KeepsBlocks (A : Arena) (overhead : Nat) (U : Payloads) (lib lib' : Memlib) : Prop :=
  ∀ i, (i < A.heap + 8 ∨ lib'.memBrk ≤ i ∨ ∃ e ∈ U, e.1 ≤ i + 8 ∧ i + 8 < e.1 + e.2 + overhead) →
    lib'.mem i = lib.mem i

/-- The payloads that a call with the pointer `p` does not give up. -/
def others (p : Nat) (U : Payloads) : Payloads := {e ∈ U | e.1 ≠ p}

/-- The other payloads are payloads, -/
theorem others_subset {p : Nat} {U : Payloads} : others p U ⊆ U := fun _ he => he.1

/-- without the one that is taken out. -/
theorem others_subset_sdiff {p cap : Nat} {U : Payloads} : others p U ⊆ U \ {(p, cap)} :=
  fun _ he => ⟨he.1, fun heq => he.2 (congrArg Prod.fst (Set.mem_singleton_iff.mp heq))⟩

namespace KeepsBlocks

variable {A : Arena} {U V : Payloads} {l l' l'' : Memlib}

/-- Nothing happens to the blocks, -/
theorem refl (U : Payloads) (l : Memlib) : KeepsBlocks A k U l l := fun _ _ => rfl

/-- nor to fewer of them, -/
theorem mono (h : KeepsBlocks A k U l l') (hsub : V ⊆ U) : KeepsBlocks A k V l l' := by
  rintro i (hi | hi | ⟨e, he, hi⟩)
  · exact h i (Or.inl hi)
  · exact h i (Or.inr (Or.inl hi))
  · exact h i (Or.inr (Or.inr ⟨e, hsub he, hi⟩))

/-- nor in two steps, if the heap does not shrink. -/
theorem trans (h : KeepsBlocks A k U l l') (h' : KeepsBlocks A k U l' l'')
    (hbrk : l'.memBrk ≤ l''.memBrk) : KeepsBlocks A k U l l'' := by
  intro i hi
  refine (h' i hi).trans (h i (hi.imp_right (Or.imp_left fun hi => ?_)))
  omega

/-- Their payloads keep their contents. -/
theorem preserves (h : KeepsBlocks A k U l l') (hk : 8 ≤ k) : Preserves U l.mem l'.mem :=
  fun e he i hi => h _ (Or.inr (Or.inr ⟨e, he, by omega, by omega⟩))

end KeepsBlocks

/-- Changes of free bytes keep the blocks in use and everything outside the heap. -/
theorem FreeOnly.keepsBlocks {A : Arena} {l l' : Memlib} (hm : FreeOnly l.mem l'.mem bs)
    (h : TileHeap (A.heap + 8) bs l'.memBrk) (hs : ∀ b ∈ bs, k ≤ b.size) :
    KeepsBlocks A k (payloads k bs) l l' := by
  intro i hi
  refine hm i fun d hd hud hdi => ?_
  have hbnd := h.bounds hd
  unfold Block.Contains at hdi
  rcases hi with hi | hi | ⟨e, ⟨b, hb, hu, rfl⟩, hlo, hhi⟩
  · omega
  · omega
  · have hne : b ≠ d := fun he => by rw [he, hud] at hu; cases hu
    have := h.apart hb hd hne
    have := hs b hb
    dsimp only [Block.payload] at hlo hhi
    omega

/-- Writes inside one block in use keep the others and everything outside the heap. -/
theorem keepsBlocks_of_inside {A : Arena} {l l' : Memlib}
    (h : TileHeap (A.heap + 8) bs l'.memBrk) (hs : ∀ b ∈ bs, k ≤ b.size) (hb : b ∈ bs)
    (hm : ∀ i, ¬ b.Contains i → l'.mem i = l.mem i) :
    KeepsBlocks A k (payloads k bs \ {b.payload k}) l l' := by
  intro i hi
  refine hm i fun hbi => ?_
  have hbnd := h.bounds hb
  unfold Block.Contains at hbi
  rcases hi with hi | hi | ⟨e, ⟨⟨c, hc, hu, rfl⟩, hne⟩, hlo, hhi⟩
  · omega
  · omega
  · have hcb : c ≠ b := fun he => hne (by rw [he]; rfl)
    have := h.apart hc hb hcb
    have := hs c hc
    dsimp only [Block.payload] at hlo hhi
    omega

/-- Writes inside the bytes that extend the heap keep the blocks and everything outside. -/
theorem keepsBlocks_of_new {A : Arena} {l l' : Memlib} {n : Nat}
    (h : TileHeap (A.heap + 8) bs l.memBrk) (hs : ∀ b ∈ bs, k ≤ b.size)
    (hbrk : l'.memBrk = l.memBrk + n)
    (hm : ∀ i, i < l.memBrk ∨ l.memBrk + n ≤ i → l'.mem i = l.mem i) :
    KeepsBlocks A k (payloads k bs) l l' := by
  intro i hi
  refine hm i ?_
  have hle := h.le
  rcases hi with hi | hi | ⟨e, ⟨c, hc, hu, rfl⟩, hlo, hhi⟩
  · omega
  · omega
  · have := h.bounds hc
    have := hs c hc
    dsimp only [Block.payload] at hlo hhi
    omega

/-- Moving the payload `e` to the new payload `f`: what allocating, copying and freeing keep
one after the other. -/
theorem KeepsBlocks.moved {A : Arena} {U : Payloads} {e f : Nat × Nat}
    {l l1 l2 l3 : Memlib} (hmalloc : KeepsBlocks A k U l l1)
    (hcopy : KeepsBlocks A k (insert f U \ {f}) l1 l2)
    (hfree : KeepsBlocks A k (insert f U \ {e}) l2 l3) (hf : f ∉ U)
    (hbrk : l1.memBrk = l2.memBrk) (hbrk' : l3.memBrk = l2.memBrk) :
    KeepsBlocks A k (U \ {e}) l l3 := by
  have h1 : KeepsBlocks A k (U \ {e}) l l1 := hmalloc.mono Set.sdiff_subset
  have h2 : KeepsBlocks A k (U \ {e}) l1 l2 := hcopy.mono fun d hd =>
    ⟨Or.inr hd.1, fun he => hf (Set.mem_singleton_iff.mp he ▸ hd.1)⟩
  have h3 : KeepsBlocks A k (U \ {e}) l2 l3 := hfree.mono fun d hd => ⟨Or.inr hd.1, hd.2⟩
  exact (h1.trans h2 hbrk.le).trans h3 hbrk'.ge

section Tiled

variable (h : TileHeap lo bs hi)
include h

/-- Payloads are aligned and between the ends of the blocks, -/
theorem payloads_placed (hs : ∀ b ∈ bs, b.size % 16 = 0 ∧ k ≤ b.size) (hlo : lo % 16 = 8)
    (hk : 8 ≤ k) : ∀ e ∈ payloads k bs, e.1 % ALIGNMENT = 0 ∧ lo ≤ e.1 ∧ e.1 + e.2 ≤ hi := by
  rintro e ⟨b, hb, -, rfl⟩
  have hmod := h.start_mod (fun c hc => (hs c hc).1) hb
  have := h.bounds hb
  have := (hs b hb).2
  dsimp only [Block.payload, ALIGNMENT]
  omega

/-- and apart from each other. -/
theorem payloads_apart (hs : ∀ b ∈ bs, k ≤ b.size) (hk : 8 ≤ k) : ∀ e ∈ payloads k bs,
    ∀ f ∈ payloads k bs, e = f ∨ (e.1 ≠ f.1 ∧ Apart e.1 e.2 f.1 f.2) := by
  rintro e ⟨b, hb, -, rfl⟩ f ⟨c, hc, -, rfl⟩
  by_cases hbc : b = c
  · exact Or.inl (by rw [hbc])
  · have := h.apart hb hc hbc
    have := hs b hb
    have := hs c hc
    refine Or.inr ?_
    dsimp only [Block.payload, Apart]
    omega

end Tiled

/-- The payloads of the other blocks start elsewhere. -/
theorem payloads_ne (h : TileHeap lo (pre ++ b :: post) hi)
    (hpos : ∀ c ∈ pre ++ b :: post, 0 < c.size) :
    ∀ e ∈ payloads k (pre ++ post), e.1 ≠ b.addr + 8 := by
  rintro e ⟨c, hc, -, rfl⟩
  have := h.addr_ne hpos hc
  dsimp only [Block.payload]
  omega

/-- Freeing a block removes its payload. -/
theorem payloads_diff (h : TileHeap lo (pre ++ b :: post) hi)
    (hpos : ∀ c ∈ pre ++ b :: post, 0 < c.size) (hu : b.used = true) :
    payloads k (pre ++ b :: post) \ {b.payload k} = payloads k (pre ++ post) := by
  rw [payloads_used hu]
  exact Set.insert_sdiff_self_of_notMem fun hmem => payloads_ne h hpos _ hmem rfl

end Malloc
