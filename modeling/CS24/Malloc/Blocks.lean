import CS24.Lib.Tiling
import CS24.Malloc.Memlib

/-!
# Blocks

What both allocators keep in the heap: a list of blocks that tiles the bytes
from the first header, eight bytes into the arena, to the break.
-/

namespace Malloc

open Bytes Tiling

/-- A block of the heap: where its header is, its whole size, its state. -/
structure Block where
  addr : Nat
  size : Nat
  used : Bool
  deriving DecidableEq, Repr

namespace Block

/-- The header word of the block. -/
def word (b : Block) : Nat := b.size + b.used.toNat

/-- The byte at `i` lies in the block. -/
def Contains (b : Block) (i : Nat) : Prop := b.addr ≤ i ∧ i < b.addr + b.size

end Block

/-- The blocks tile `[lo, hi)`. -/
abbrev TileHeap (lo : Nat) (bs : List Block) (hi : Nat) : Prop :=
  Tiles Block.addr Block.size lo bs hi

/-- Where the first block starts; `NULL` when there is none. -/
def firstAddr (bs : List Block) : Nat := (bs.head?.map Block.addr).getD NULL

/-- Where the last block starts; `NULL` when there is none. -/
def lastAddr (bs : List Block) : Nat := (bs.getLast?.map Block.addr).getD NULL

@[simp] theorem firstAddr_nil : firstAddr [] = NULL := rfl

@[simp] theorem lastAddr_nil : lastAddr [] = NULL := rfl

@[simp] theorem firstAddr_cons (b : Block) (bs : List Block) : firstAddr (b :: bs) = b.addr := rfl

@[simp] theorem lastAddr_append_singleton (bs : List Block) (b : Block) :
    lastAddr (bs ++ [b]) = b.addr := by simp [lastAddr]

@[simp] theorem lastAddr_append_cons (pre : List Block) (b c : Block) (bs : List Block) :
    lastAddr (pre ++ b :: c :: bs) = lastAddr (c :: bs) := by
  simp [lastAddr, List.getLast?_append, List.getLast?_cons]

/-- The last of more blocks is the last one behind them. -/
theorem lastAddr_append_of_ne_nil {pre post : List Block} (h : post ≠ []) :
    lastAddr (pre ++ post) = lastAddr post := by
  obtain ⟨init, b, rfl⟩ : ∃ init b, post = init ++ [b] :=
    ⟨post.dropLast, post.getLast h, (List.dropLast_append_getLast h).symm⟩
  rw [← List.append_assoc, lastAddr_append_singleton, lastAddr_append_singleton]

/-- The last block is one of the blocks. -/
theorem lastAddr_mem {bs : List Block} (h : bs ≠ []) : ∃ b ∈ bs, lastAddr bs = b.addr := by
  refine ⟨bs.getLast h, List.getLast_mem h, ?_⟩
  simp [lastAddr, List.getLast?_eq_some_getLast h]

/-- No two neighbours are free. -/
abbrev NoAdjacent (bs : List Block) : Prop :=
  bs.IsChain fun b c => b.used = true ∨ c.used = true

/-- Both parts of such blocks are such blocks. -/
theorem NoAdjacent.of_append {as cs : List Block} (h : NoAdjacent (as ++ cs)) :
    NoAdjacent as ∧ NoAdjacent cs :=
  ⟨(List.isChain_append.mp h).1, (List.isChain_append.mp h).2.1⟩

/-- How much of a free block `b` a fit of `n` bytes takes, and what it leaves: a
rest shorter than `least` stays with the block. -/
def Taken (least n : Nat) (b : Block) (k : Nat) (rest : List Block) : Prop :=
  (k = b.size ∧ rest = [] ∧ n ≤ b.size ∧ b.size < n + least) ∨
    (k = n ∧ rest = [⟨b.addr + n, b.size - n, false⟩] ∧ n + least ≤ b.size)

/-- What is taken is as large as asked for, and not larger than the block. -/
theorem Taken.bounds {least n k : Nat} {b : Block} {rest : List Block}
    (h : Taken least n b k rest) : n ≤ k ∧ k ≤ b.size := by
  rcases h with ⟨rfl, -, hle, -⟩ | ⟨rfl, -, hle⟩ <;> omega

/-- What is left of the block is free. -/
theorem Taken.rest_free {least n k : Nat} {b : Block} {rest : List Block}
    (h : Taken least n b k rest) : ∀ c ∈ rest, c.used = false := by
  rcases h with ⟨-, rfl, -⟩ | ⟨-, rfl, -⟩ <;> simp

/-- The byte at `i` lies in a block that is not allocated. -/
def FreeByte (bs : List Block) (i : Nat) : Prop :=
  Within Block.addr Block.size (fun b => ¬ b.used = true) bs i

/-- A free byte is in a free block. -/
theorem freeByte_iff {bs : List Block} {i : Nat} :
    FreeByte bs i ↔ ∃ b ∈ bs, b.used = false ∧ b.Contains i := by
  simp only [FreeByte, Within, Bool.not_eq_true]
  rfl

/-- Only bytes of blocks that are free in `bs` differ between the memories. -/
def FreeOnly (m m' : Mem) (bs : List Block) : Prop :=
  ∀ i, (∀ c ∈ bs, c.used = false → ¬ c.Contains i) → m' i = m i

/-- Nothing changes the bytes in use when nothing happens, -/
theorem FreeOnly.refl (m : Mem) (bs : List Block) : FreeOnly m m bs := fun _ _ => rfl

/-- nor do two changes of free bytes. -/
theorem FreeOnly.trans {m m' m'' : Mem} {bs : List Block} (h : FreeOnly m m' bs)
    (h' : FreeOnly m' m'' bs) : FreeOnly m m'' bs :=
  fun i hi => (h' i hi).trans (h i hi)

/-- A coarser list of free bytes allows more changes. -/
theorem FreeOnly.mono {m m' : Mem} {bs cs : List Block} (h : FreeOnly m m' bs)
    (hsub : ∀ b ∈ bs, b.used = false → ∀ i, b.Contains i →
      ∃ c ∈ cs, c.used = false ∧ c.Contains i) : FreeOnly m m' cs := by
  intro i hi
  refine h i fun b hb hu hc => ?_
  obtain ⟨c, hmem, hcu, hci⟩ := hsub b hb hu i hc
  exact hi c hmem hcu hci

/-- What all blocks have, one block has and those around it. -/
theorem forall_mem_middle {P : Block → Prop} {pre post : List Block} {b : Block} :
    (∀ c ∈ pre ++ b :: post, P c) ↔ P b ∧ ∀ c ∈ pre ++ post, P c := by
  rw [← List.forall_mem_cons]
  exact forall_congr' fun c => by rw [List.perm_middle.mem_iff]

section Tiled

variable {lo hi : Nat} {pre post : List Block} {b c : Block}

/-- A block in the middle of a tiling is the last one exactly when it starts at
the last start. -/
theorem eq_lastAddr_iff (h : TileHeap lo (pre ++ b :: post) hi)
    (hpos : ∀ c ∈ pre ++ b :: post, 0 < c.size) :
    b.addr = lastAddr (pre ++ b :: post) ↔ post = [] := by
  constructor
  · intro heq
    by_contra hne
    rw [List.append_cons, lastAddr_append_of_ne_nil hne] at heq
    obtain ⟨c, hc, hlast⟩ := lastAddr_mem hne
    have hp := (List.pairwise_append.mp h.pairwise).2.1
    have := (List.pairwise_cons.mp hp).1 c hc
    have := hpos b (by simp)
    omega
  · rintro rfl
    simp

/-- A block that is not the last one starts before the last start. -/
theorem lt_lastAddr_iff (h : TileHeap lo (pre ++ b :: post) hi)
    (hpos : ∀ c ∈ pre ++ b :: post, 0 < c.size) :
    b.addr < lastAddr (pre ++ b :: post) ↔ post ≠ [] := by
  constructor
  · rintro hlt rfl
    simp at hlt
  · intro hne
    rw [List.append_cons, lastAddr_append_of_ne_nil hne]
    obtain ⟨c, hc, hlast⟩ := lastAddr_mem hne
    have hp := (List.pairwise_append.mp h.pairwise).2.1
    have := (List.pairwise_cons.mp hp).1 c hc
    have := hpos b (by simp)
    omega

/-- The last block after a block was merged with the one behind it. -/
theorem lastAddr_merge {n : Nat} {u : Bool} (h : TileHeap lo (pre ++ b :: c :: post) hi)
    (hpos : ∀ d ∈ pre ++ b :: c :: post, 0 < d.size) :
    (if c.addr = lastAddr (pre ++ b :: c :: post) then b.addr else lastAddr (pre ++ b :: c :: post)) =
      lastAddr (pre ++ ⟨b.addr, n, u⟩ :: post) := by
  rw [List.append_cons] at h hpos ⊢
  have hiff := eq_lastAddr_iff h hpos
  by_cases hp : post = []
  · rw [if_pos (hiff.mpr hp), hp, lastAddr_append_singleton]
  · rw [if_neg (mt hiff.mp hp), List.append_cons, lastAddr_append_of_ne_nil hp, List.append_cons,
      lastAddr_append_of_ne_nil hp]

/-- The last block after a block was split at `n` bytes. -/
theorem lastAddr_split {n : Nat} {u v : Bool} (h : TileHeap lo (pre ++ b :: post) hi) (hn : 0 < n)
    (hle : n ≤ b.size) :
    (if lastAddr (pre ++ b :: post) < b.addr + n then b.addr + n else lastAddr (pre ++ b :: post)) =
      lastAddr (pre ++ ⟨b.addr, n, u⟩ :: ⟨b.addr + n, b.size - n, v⟩ :: post) := by
  by_cases hp : post = []
  · subst hp
    rw [lastAddr_append_singleton, if_pos (by omega), List.append_cons, lastAddr_append_singleton]
  · -- the last block starts behind the whole of `b`
    have hlast : lastAddr (pre ++ b :: post) = lastAddr post := by
      rw [List.append_cons, lastAddr_append_of_ne_nil hp]
    obtain ⟨c, hc, he⟩ := lastAddr_mem hp
    have hbehind := (List.pairwise_cons.mp (List.pairwise_append.mp h.pairwise).2.1).1 c hc
    rw [hlast, if_neg (by omega), List.append_cons, List.append_cons _ _ post,
      lastAddr_append_of_ne_nil hp]

/-- What follows a block tiles the bytes behind it. -/
theorem TileHeap.rest (h : TileHeap lo (pre ++ b :: post) hi) :
    TileHeap (b.addr + b.size) post hi := by
  obtain ⟨mid, -, h1, h2⟩ := tiles_append.mp h
  rwa [h1]

/-- Neighbours touch. -/
theorem TileHeap.next_addr (h : TileHeap lo (pre ++ b :: c :: post) hi) :
    c.addr = b.addr + b.size := by
  obtain ⟨mid, -, h1, h2, -⟩ := tiles_append.mp h
  rw [h2, h1]

/-- The block at the low end of the heap is the first of the list. -/
theorem eq_firstAddr_iff (h : TileHeap lo (pre ++ b :: post) hi)
    (hpos : ∀ c ∈ pre ++ b :: post, 0 < c.size) :
    b.addr = firstAddr (pre ++ b :: post) ↔ pre = [] := by
  constructor
  · intro heq
    cases pre with
    | nil => rfl
    | cons c pre =>
        have hc : c.addr + c.size ≤ b.addr :=
          (List.pairwise_cons.mp h.pairwise).1 b (by simp)
        have := hpos c (by simp)
        simp at heq
        omega
  · rintro rfl
    rfl

/-- The other blocks start elsewhere. -/
theorem TileHeap.addr_ne (h : TileHeap lo (pre ++ b :: post) hi)
    (hpos : ∀ c ∈ pre ++ b :: post, 0 < c.size) (hc : c ∈ pre ++ post) : c.addr ≠ b.addr := by
  obtain ⟨-, htail, hcross⟩ := List.pairwise_append.mp h.pairwise
  have hb := hpos b (by simp)
  have hcpos := hpos c (by simp at hc ⊢; tauto)
  rcases List.mem_append.mp hc with hc | hc
  · have := hcross c hc b (by simp)
    omega
  · have := (List.pairwise_cons.mp htail).1 c hc
    omega

/-- Splitting a block keeps the tiling. -/
theorem TileHeap.split {n : Nat} {u v : Bool} (h : TileHeap lo (pre ++ b :: post) hi)
    (hn : n ≤ b.size) :
    TileHeap lo (pre ++ ⟨b.addr, n, u⟩ :: ⟨b.addr + n, b.size - n, v⟩ :: post) hi := by
  obtain ⟨mid, h1, h2, h3⟩ := tiles_append.mp h
  refine tiles_append.mpr ⟨mid, h1, h2, by simp [h2], ?_⟩
  have : mid + n + (b.size - n) = mid + b.size := by omega
  simpa [this] using h3

/-- Merging two neighbours keeps the tiling. -/
theorem TileHeap.merge {u : Bool} (h : TileHeap lo (pre ++ b :: c :: post) hi) :
    TileHeap lo (pre ++ ⟨b.addr, b.size + c.size, u⟩ :: post) hi := by
  obtain ⟨mid, h1, h2, -, h3⟩ := tiles_append.mp h
  refine tiles_append.mpr ⟨mid, h1, h2, ?_⟩
  simpa [Nat.add_assoc] using h3

/-- Changing the state of a block keeps the tiling. -/
theorem TileHeap.setUsed {u : Bool} (h : TileHeap lo (pre ++ b :: post) hi) :
    TileHeap lo (pre ++ ⟨b.addr, b.size, u⟩ :: post) hi := by
  obtain ⟨mid, h1, h2, h3⟩ := tiles_append.mp h
  exact tiles_append.mpr ⟨mid, h1, h2, h3⟩

/-- A new block at the end extends the tiling. -/
theorem TileHeap.extend {bs : List Block} {n : Nat} {u : Bool} (h : TileHeap lo bs hi) :
    TileHeap lo (bs ++ [⟨hi, n, u⟩]) (hi + n) :=
  tiles_append.mpr ⟨hi, h, by simp⟩

end Tiled

end Malloc
