import CS24.Malloc.Implicit
import CS24.Malloc.Payloads

/-!
# The heap invariant of the implicit allocator

`mm_heap_last` need not be the start of a block: when a merge absorbs the last
block, it goes on pointing into the interior of the merged block.  What every
traversal needs is weaker and survives: no block starts behind `mm_heap_last`,
and `mm_heap_last` lies below the break.  So the walk from `mm_heap_first`
visits every block and stops at the break.
-/

namespace Malloc.Implicit

open Bytes Tiling

/-- Memory represents the blocks `bs`. -/
structure Shape (A : Arena) (s : State) (bs : List Block) : Prop where
  brk_le : s.memBrk ≤ A.heap + MAX_HEAP
  tiles : TileHeap (A.heap + 8) bs s.memBrk
  sizes : ∀ b ∈ bs, b.size % 16 = 0 ∧ 16 ≤ b.size
  first_eq : s.mmHeapFirst = firstAddr bs
  last_null : s.mmHeapLast = NULL ↔ bs = []
  le_last : ∀ b ∈ bs, b.addr ≤ s.mmHeapLast
  last_lt : s.mmHeapLast < s.memBrk
  tagged : ∀ b ∈ bs, load64 s.mem b.addr = b.word

/-- The memory after a header was set. -/
def tagMem (m : Mem) (addr size : Nat) (used : Bool) : Mem :=
  store64 m addr (sizeWord size used)

variable {A : Arena} {s : State} {m : Mem} {bs pre post : List Block} {b c : Block}
  {addr n i : Nat} {used : Bool}

/-- Setting a header changes only the header. -/
theorem tagMem_other (h : i < addr ∨ addr + 8 ≤ i) : tagMem m addr n used i = m i :=
  store64_other h

theorem tagMem_same (h2 : n % 2 = 0) (hlt : n < 2 ^ 63) :
    load64 (tagMem m addr n used) addr = (Block.mk addr n used).word := by
  have hw : sizeWord n used = n + used.toNat := sizeWord_eq h2
  have := used.toNat_le
  rw [tagMem, load64_store64_same (by omega), hw]
  rfl

/-- Setting a header inside the bytes handed out. -/
theorem setHeader_eq (hbrk : s.memBrk ≤ A.heap + MAX_HEAP) (hlo : A.heap ≤ addr)
    (hhi : addr + 8 ≤ s.memBrk) :
    setHeader A addr n used s = some { s with mem := tagMem s.mem addr n used } := by
  have h : Accessible A addr 8 s.toMemlib := accessible_of_le_brk hbrk hlo hhi
  simp [setHeader, store_eq h, tagMem]

namespace Shape

theorem pos (h : Shape A s bs) : ∀ b ∈ bs, 0 < b.size :=
  fun b hb => by have := h.sizes b hb; omega

theorem bounds (h : Shape A s bs) (hb : b ∈ bs) :
    A.heap + 8 ≤ b.addr ∧ b.addr + b.size ≤ s.memBrk ∧ b.size < 2 ^ 62 := by
  have := h.tiles.bounds hb
  have := h.brk_le
  have := A.heap_low
  omega

theorem load_mem (h : Shape A s bs) (hb : b ∈ bs) : load A b.addr s.toMemlib = some b.word := by
  have hs := h.sizes b hb
  have hbnd := h.bounds hb
  rw [load_eq (accessible_of_le_brk h.brk_le (by omega) (by omega)), h.tagged b hb]

theorem getSize_mem (h : Shape A s bs) (hb : b ∈ bs) : getSize A b.addr s = some b.size := by
  have hs := h.sizes b hb
  have hbnd := h.bounds hb
  have hword : wordSize b.word = b.size := wordSize_add (by omega) (by omega)
  simp [getSize, h.load_mem hb, hword]

theorem isAllocated_mem (h : Shape A s bs) (hb : b ∈ bs) :
    isAllocated A b.addr s = some b.used := by
  have hs := h.sizes b hb
  have hword : wordUsed b.word = b.used := wordUsed_add (by omega)
  simp [isAllocated, h.load_mem hb, hword]

/-- The word at the break can be read: the break is never closer than eight
bytes to the end of the mapping. -/
theorem isAllocated_brk (h : Shape A s bs) (hA : A.Mapped) :
    ∃ u, isAllocated A s.memBrk s = some u := by
  have hlim := hA s.memBrk
  have hle := h.tiles.le
  have hbrk := h.brk_le
  have halign := A.heap_aligned
  have hmod : s.memBrk % 16 = 8 := by
    have := h.tiles.end_mod fun b hb => (h.sizes b hb).1
    unfold ALIGNMENT at halign
    omega
  have hacc : Accessible A s.memBrk 8 s.toMemlib := by
    refine ⟨by omega, le_trans ?_ hlim⟩
    unfold ALIGNMENT MAX_HEAP at *
    omega
  exact ⟨wordUsed (load64 s.mem s.memBrk), by simp [isAllocated, load_eq hacc]⟩

/-- Setting a header inside a block does not touch the headers of the others. -/
theorem tagged_around (h : Shape A s (pre ++ b :: post)) (hm : ∀ i, ¬ b.Contains i → m i = s.mem i) :
    ∀ c ∈ pre ++ post, load64 m c.addr = c.word := by
  intro c hc
  have hmem : c ∈ pre ++ b :: post := by simp at hc ⊢; tauto
  have hne := h.tiles.addr_ne h.pos hc
  have hap := h.tiles.apart hmem (c := b) (by simp) (fun he => hne (by rw [he]))
  have := h.sizes c hmem
  rw [← h.tagged c hmem]
  refine load64_congr fun i h1 h2 => hm i fun hi => ?_
  unfold Block.Contains at hi
  omega

/-- **Retagging** a block changes its state. -/
theorem setUsed (h : Shape A s (pre ++ b :: post)) (used : Bool) :
    setHeader A b.addr b.size used s =
        some { s with mem := tagMem s.mem b.addr b.size used } ∧
      Shape A { s with mem := tagMem s.mem b.addr b.size used }
        (pre ++ ⟨b.addr, b.size, used⟩ :: post) := by
  have hb : b ∈ pre ++ b :: post := by simp
  have hbnd := h.bounds hb
  have hsize := h.sizes b hb
  have haround := h.tagged_around (m := tagMem s.mem b.addr b.size used)
    fun i hi => tagMem_other (by unfold Block.Contains at hi; omega)
  refine ⟨setHeader_eq h.brk_le (by omega) (by omega),
    ⟨h.brk_le, h.tiles.setUsed, ?_, ?_, ?_, ?_, h.last_lt, ?_⟩⟩
  · exact forall_mem_middle.mpr (forall_mem_middle.mp h.sizes)
  · rw [h.first_eq]
    cases pre <;> rfl
  · simpa using h.last_null
  · exact forall_mem_middle.mpr (forall_mem_middle.mp h.le_last)
  · exact forall_mem_middle.mpr ⟨tagMem_same (by omega) (by omega), haround⟩

/-- **Merging** a block with the one behind it; `mm_heap_last` stays where it is. -/
theorem merge (h : Shape A s (pre ++ b :: c :: post)) :
    setHeader A b.addr ((b.size + c.size) % 2 ^ 64) false s =
        some { s with mem := tagMem s.mem b.addr (b.size + c.size) false } ∧
      Shape A { s with mem := tagMem s.mem b.addr (b.size + c.size) false }
        (pre ++ ⟨b.addr, b.size + c.size, false⟩ :: post) := by
  have hb : b ∈ pre ++ b :: c :: post := by simp
  have hc : c ∈ pre ++ b :: c :: post := by simp
  have hbb := h.bounds hb
  have hcb := h.bounds hc
  have hbs := h.sizes b hb
  have hcs := h.sizes c hc
  have hsum : (b.size + c.size) % 2 ^ 64 = b.size + c.size := by omega
  have haround := h.tagged_around (m := tagMem s.mem b.addr (b.size + c.size) false)
    fun i hi => tagMem_other (by unfold Block.Contains at hi; omega)
  refine ⟨?_, ⟨h.brk_le, h.tiles.merge, ?_, ?_, ?_, ?_, h.last_lt, ?_⟩⟩
  · rw [hsum]
    exact setHeader_eq h.brk_le (by omega) (by omega)
  · obtain ⟨-, hsizes⟩ := forall_mem_middle.mp h.sizes
    exact forall_mem_middle.mpr
      ⟨⟨by dsimp only; omega, by dsimp only; omega⟩, (forall_mem_middle.mp hsizes).2⟩
  · rw [h.first_eq]
    cases pre <;> rfl
  · simpa using h.last_null
  · obtain ⟨hfirst, hrest⟩ := forall_mem_middle.mp h.le_last
    exact forall_mem_middle.mpr ⟨hfirst, (forall_mem_middle.mp hrest).2⟩
  · obtain ⟨-, hafter⟩ := forall_mem_middle.mp haround
    exact forall_mem_middle.mpr ⟨tagMem_same (by omega) (by omega), hafter⟩

/-- **Splitting** a block in two free blocks; `mm_heap_last` moves when the rest
starts behind it. -/
theorem split (h : Shape A s (pre ++ b :: post)) (hn16 : n % 16 = 0) (hn : 16 ≤ n)
    (hfit : n + 16 ≤ b.size) :
    ∃ t, splitFit A b.addr b.size n s = some t ∧
      Shape A t (pre ++ ⟨b.addr, n, false⟩ :: ⟨b.addr + n, b.size - n, false⟩ :: post) ∧
      t.memBrk = s.memBrk ∧ ∀ i, ¬ b.Contains i → t.mem i = s.mem i := by
  have hb : b ∈ pre ++ b :: post := by simp
  have hbnd := h.bounds hb
  have hsize := h.sizes b hb
  let m1 := tagMem s.mem b.addr n false
  let m2 := tagMem m1 (b.addr + n) (b.size - n) false
  let last := if s.mmHeapLast < b.addr + n then b.addr + n else s.mmHeapLast
  have hout (i : Nat) (hi : ¬ b.Contains i) : m2 i = s.mem i := by
    unfold Block.Contains at hi
    rw [show m2 i = m1 i from tagMem_other (by omega)]
    exact tagMem_other (by omega)
  have hfirst : load64 m1 b.addr = (Block.mk b.addr n false).word :=
    tagMem_same (by omega) (by omega)
  have hfirst2 : load64 m2 b.addr = (Block.mk b.addr n false).word := by
    rw [← hfirst]
    exact load64_store64_apart (by unfold Apart; omega)
  have haround := h.tagged_around hout
  refine ⟨{ s with mem := m2, mmHeapLast := last }, ?_,
    ⟨h.brk_le, h.tiles.split (by omega), ?_, ?_, ?_, ?_, ?_, ?_⟩, rfl, hout⟩
  · have hset1 : setHeader A b.addr n false s = some { s with mem := m1 } :=
      setHeader_eq h.brk_le (by omega) (by omega)
    have hget : getSize A b.addr { s with mem := m1 } = some n := by
      have hacc : Accessible A b.addr 8 ⟨m1, s.memBrk⟩ :=
        accessible_of_le_brk h.brk_le (by omega) (by dsimp only; omega)
      have hn2 : n % 2 = 0 ∧ n < 2 ^ 64 := by omega
      have hword : wordSize (Block.mk b.addr n false).word = n := wordSize_add hn2.1 hn2.2
      simp [getSize, load_eq hacc, hfirst, hword]
    have hset2 : setHeader A (b.addr + n) (b.size - n) false { s with mem := m1 } =
        some { s with mem := m2 } := setHeader_eq h.brk_le (by omega) (by dsimp only; omega)
    simp only [splitFit, hset1, hget, hset2, Option.bind_eq_bind, Option.bind_some]
    simp only [last]
    split <;> rfl
  · obtain ⟨-, hsizes⟩ := forall_mem_middle.mp h.sizes
    exact forall_mem_middle.mpr ⟨⟨hn16, hn⟩,
      forall_mem_middle.mpr ⟨⟨by dsimp only; omega, by dsimp only; omega⟩, hsizes⟩⟩
  · rw [h.first_eq]
    cases pre <;> rfl
  · have hlast : last ≠ NULL := by
      simp only [last]
      unfold NULL
      split <;> omega
    simp [hlast]
  · have hle : s.mmHeapLast ≤ last ∧ b.addr + n ≤ last := by
      simp only [last]
      split <;> omega
    obtain ⟨hfirst, hrest⟩ := forall_mem_middle.mp h.le_last
    exact forall_mem_middle.mpr ⟨hfirst.trans hle.1,
      forall_mem_middle.mpr ⟨hle.2, fun c hc => (hrest c hc).trans hle.1⟩⟩
  · have := h.last_lt
    simp only [last]
    split <;> omega
  · exact forall_mem_middle.mpr
      ⟨hfirst2, forall_mem_middle.mpr ⟨tagMem_same (by omega) (by omega), haround⟩⟩

/-- **Extending** the heap by a block of the bytes that `mem_sbrk` returned. -/
theorem extend (h : Shape A s bs) (hn16 : n % 16 = 0) (hn : 16 ≤ n)
    (hfit : s.memBrk + n ≤ A.heap + MAX_HEAP) (used : Bool) :
    let m := tagMem s.mem s.memBrk n used
    let hf := if s.mmHeapFirst = NULL then s.memBrk else s.mmHeapFirst
    setHeader A s.memBrk n used ⟨⟨s.mem, s.memBrk + n⟩, hf, s.memBrk⟩ =
        some ⟨⟨m, s.memBrk + n⟩, hf, s.memBrk⟩ ∧
      Shape A ⟨⟨m, s.memBrk + n⟩, hf, s.memBrk⟩ (bs ++ [⟨s.memBrk, n, used⟩]) ∧
      ∀ i, i < s.memBrk ∨ s.memBrk + n ≤ i → m i = s.mem i := by
  intro m hf
  have hle := h.tiles.le
  have hpos := A.heap_pos
  have hout (i : Nat) (hi : i < s.memBrk ∨ s.memBrk + n ≤ i) : m i = s.mem i :=
    tagMem_other (by omega)
  refine ⟨?_, ⟨hfit, h.tiles.extend, ?_, ?_, ?_, ?_, ?_, ?_⟩, hout⟩
  · exact setHeader_eq hfit (by omega) (by dsimp only; omega)
  · intro c hc
    simp only [List.mem_append, List.mem_singleton] at hc
    rcases hc with hc | rfl
    · exact h.sizes c hc
    · exact ⟨hn16, hn⟩
  · cases bs with
    | nil => simp [hf, h.first_eq]
    | cons b bs =>
        have hb := h.bounds (b := b) (by simp)
        have : s.mmHeapFirst ≠ NULL := by
          rw [h.first_eq]
          simp only [firstAddr_cons]
          unfold NULL
          omega
        exact (if_neg this).trans h.first_eq
  · have : s.memBrk ≠ NULL := by unfold NULL; omega
    simp [this]
  · intro c hc
    simp only [List.mem_append, List.mem_singleton] at hc
    rcases hc with hc | rfl
    · have := h.bounds hc
      dsimp only
      omega
    · exact le_refl _
  · dsimp only
    omega
  · intro c hc
    simp only [List.mem_append, List.mem_singleton] at hc
    rcases hc with hc | rfl
    · have := h.sizes c hc
      have hbnd := h.bounds hc
      rw [← h.tagged c hc]
      exact load64_congr fun i h1 h2 => hout i (by omega)
    · exact tagMem_same (by omega) (by unfold MAX_HEAP at *; omega)

end Shape

end Malloc.Implicit
