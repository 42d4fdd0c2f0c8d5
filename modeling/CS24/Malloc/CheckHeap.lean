import CS24.Malloc.FreeOrder

/-!
# The heap checker

`mm_checkheap` of `mm-explicit.c` compares the header of every block with its
footer, counts the free blocks, and compares the count with the length of the
free list.  At the first difference it prints a message and exits.  In the heaps
that clients can reach there is none.
-/

namespace Malloc.Explicit

open Bytes Tiling

/-- What `mm_checkheap` prints before it exits. -/
inductive HeapError
  | tags (index header footer size : Nat)
  | listLength (listed free : Nat)
  deriving DecidableEq, Repr

variable (A : Arena)

/-- The loop over the blocks, which counts the free ones. -/
def checkBlocks : Nat → Nat → Nat → Nat → State → Option (Except HeapError Nat)
  | 0, _, _, _, _ => none
  | fuel + 1, curr, index, freeBlocks, s =>
    if s.mmHeapLast ≠ NULL ∧ curr ≤ s.mmHeapLast then do
      let size ← getSize A curr s
      let header ← load A curr s.toMemlib
      let footer ← load A (curr + size - 8) s.toMemlib
      if header ≠ footer then some (.error (.tags index header footer size))
      else do
        let used ← isAllocated A curr s
        checkBlocks fuel (curr + size) (index + 1) (if used then freeBlocks else freeBlocks + 1) s
    else some (.ok freeBlocks)

/-- Checks the heap. -/
def mmCheckheap (s : State) : Option (Except HeapError Unit) := do
  match ← checkBlocks A (s.memBrk + 1) s.mmHeapFirst 0 0 s with
  | .error e => some (.error e)
  | .ok freeBlocks => do
    let nodes ← freeNodes A s
    if nodes.length ≠ freeBlocks then some (.error (.listLength nodes.length freeBlocks))
    else some (.ok ())

variable {A} {least curr fuel : Nat} {s : State} {U : Payloads} {bs pre post : List Block}
  {b : Block} {fl : List Nat}

/-- The free blocks of a heap. -/
def freeBlocks (bs : List Block) : List Block := bs.filter fun b => !b.used

theorem Layout.le_lastAddr (h : Layout A least s bs fl) (hb : b ∈ bs) : b.addr ≤ s.mmHeapLast := by
  obtain ⟨pre, post, rfl⟩ := List.append_of_mem hb
  rw [h.last_eq]
  cases post with
  | nil => simp
  | cons c post =>
      obtain ⟨d, hd, hlast⟩ := lastAddr_mem (List.cons_ne_nil c post)
      obtain ⟨-, htail, -⟩ := List.pairwise_append.mp h.tiles.pairwise
      have := (List.pairwise_cons.mp htail).1 d hd
      rw [lastAddr_append_cons, hlast]
      omega

/-- The loop finds the tags of all blocks in order.  By induction on those still to come. -/
theorem Layout.checkBlocks_eq (h : Layout A least s (pre ++ post) fl)
    (hcurr : TileHeap curr post s.memBrk) (hfuel : post.length < fuel) (index count : Nat) :
    checkBlocks A fuel curr index count s = some (.ok (count + (freeBlocks post).length)) := by
  obtain ⟨fuel, rfl⟩ : ∃ k, fuel = k + 1 := ⟨fuel - 1, by omega⟩
  induction post generalizing pre curr fuel index count with
  | nil =>
      obtain rfl : curr = s.memBrk := hcurr
      have hstop : ¬ (s.mmHeapLast ≠ NULL ∧ s.memBrk ≤ s.mmHeapLast) := by
        rintro ⟨hne, hle⟩
        rw [h.last_eq] at hne hle
        have hbs : pre ++ [] ≠ [] := fun he => hne (by rw [he]; rfl)
        obtain ⟨b, hb, hlast⟩ := lastAddr_mem hbs
        have := h.bounds hb
        have := h.pos b hb
        omega
      rw [checkBlocks, if_neg hstop]
      simp [freeBlocks]
  | cons b post ih =>
      have hb : b ∈ pre ++ b :: post := by simp
      obtain ⟨rfl, hrest⟩ := tiles_cons.mp hcurr
      have hbnd := h.bounds hb
      have hsize := h.size_ge hb
      have hle := h.le_lastAddr hb
      have hgo : s.mmHeapLast ≠ NULL ∧ b.addr ≤ s.mmHeapLast :=
        ⟨fun he => h.ne_null hb (by unfold NULL at *; omega), hle⟩
      have hheader : load A b.addr s.toMemlib = some b.word := by
        rw [load_in h.brk_le (by omega) (by omega), (h.tagged b hb).1]
      have hfooter : load A (b.addr + b.size - 8) s.toMemlib = some b.word :=
        footer_eq h.brk_le (h.tagged b hb) (by omega) hbnd.2 (by omega) (by omega)
      obtain ⟨fuel, rfl⟩ : ∃ k, fuel = k + 1 := ⟨fuel - 1, by simp at hfuel; omega⟩
      have h' : Layout A least s ((pre ++ [b]) ++ post) fl := by simpa using h
      have hrun := ih h' hrest (index + 1) (if b.used then count else count + 1) fuel
        (by simpa using hfuel)
      rw [checkBlocks, if_pos hgo]
      simp only [h.getSize_mem hb, hheader, hfooter, h.isAllocated_mem hb, hrun, ne_eq,
        not_true_eq_false, if_false, Option.bind_eq_bind, Option.bind_some]
      cases hu : b.used with
      | false => simp [freeBlocks, hu]; omega
      | true => simp [freeBlocks, hu]

/-- The list has as many nodes as the heap has free blocks. -/
theorem Settled.length_list (h : Settled A least s bs fl) : fl.length = (freeBlocks bs).length := by
  have hnodup : ((freeBlocks bs).map Block.addr).Nodup := by
    have hpairwise := h.tiles.pairwise.sublist (List.filter_sublist (p := fun b : Block => !b.used))
    refine List.pairwise_map.mpr (hpairwise.imp_of_mem fun {b c} hb hc hle he => ?_)
    have := h.pos b (List.mem_of_mem_filter hb)
    omega
  have hperm : fl.Perm ((freeBlocks bs).map Block.addr) := by
    rw [List.perm_ext_iff_of_nodup h.nodup hnodup]
    intro a
    constructor
    · intro ha
      obtain ⟨b, hb, haddr, hu, -⟩ := h.free_of_mem a ha
      exact List.mem_map.mpr ⟨b, List.mem_filter.mpr ⟨hb, by simp [hu]⟩, haddr⟩
    · intro ha
      obtain ⟨b, hb, rfl⟩ := List.mem_map.mp ha
      obtain ⟨hb, hu⟩ := List.mem_filter.mp hb
      exact h.mem_of_free b hb (by simpa using hu)
  rw [hperm.length_eq, List.length_map]

/-- A heap that is in order passes the check. -/
theorem Settled.mmCheckheap_eq (h : Settled A least s bs fl) :
    mmCheckheap A s = some (.ok ()) := by
  have hall : Layout A least s ([] ++ bs) fl := h.toLayout
  have hrun : checkBlocks A (s.memBrk + 1) s.mmHeapFirst 0 0 s =
      some (.ok (freeBlocks bs).length) := by
    cases bs with
    | nil => simp [checkBlocks, h.last_eq, freeBlocks]
    | cons b bs =>
        have haddr : b.addr = A.heap + 8 := h.tiles.1
        have hlength := h.tiles.length_le h.pos
        rw [h.first_eq, firstAddr_cons, haddr, hall.checkBlocks_eq h.tiles (by omega)]
        simp
  rw [mmCheckheap, hrun]
  simp [h.freeNodes_eq, h.length_list]

/-- **No heap that a client can reach fails the check**, with calls of all four functions.  Sizes are
positive and small enough that `mm_malloc` does not wrap around. -/
theorem checkheap_passes {c : Client State} (h : CallocReachable A (allocator A) RequestOk c) :
    mmCheckheap A c.heap = some (.ok ()) := by
  have hreach := h.reachable (lawful A) fun _ => RequestOk.le_max
  obtain ⟨U, ⟨bs, fl, hinv, -⟩, -⟩ := (contract A).reachable_inv hreach
  exact (settled_iff.mpr hinv).mmCheckheap_eq

/-- A heap with a free block. -/
theorem freedBlock_passes : mmCheckheap lowArena freedBlock = some (.ok ()) :=
  checkheap_passes reachable_freedBlock.calloc

end Malloc.Explicit
