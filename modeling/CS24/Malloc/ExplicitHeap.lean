import CS24.Malloc.Blocks
import CS24.Malloc.ExplicitList

/-!
# The heap invariant of the explicit allocator

`Shape A s bs fl` says that memory represents the block list `bs` and the free
list `fl`, where every listed node is a free block.  `HeapInvariant` adds what
holds between calls: every free block is listed, and no two neighbours are
free.  `Layout` and `Settled` say the same of heaps that may also hold blocks
too short for links.  `Layout` is what every single step inside a call
preserves: retagging a block, splitting one, merging two, adding and removing
list nodes.
-/

namespace Malloc.Explicit

open Bytes Links Tiling

/-- Header and footer of the block hold its size and state. -/
def Tagged (m : Mem) (b : Block) : Prop :=
  load64 m b.addr = b.word ∧ load64 m (b.addr + b.size - 8) = b.word

/-- Memory represents the blocks `bs` and the free list `fl`. -/
structure Shape (A : Arena) (s : State) (bs : List Block) (fl : List Nat) : Prop where
  brk_le : s.memBrk ≤ A.heap + MAX_HEAP
  tiles : TileHeap (A.heap + 8) bs s.memBrk
  sizes : ∀ b ∈ bs, b.size % 16 = 0 ∧ 32 ≤ b.size
  first_eq : s.mmHeapFirst = firstAddr bs
  last_eq : s.mmHeapLast = lastAddr bs
  tagged : ∀ b ∈ bs, Tagged s.mem b
  list : FreeList s.mem s.freeListFirst fl
  nodup : fl.Nodup
  free_of_mem : ∀ a ∈ fl, ∃ b ∈ bs, b.addr = a ∧ b.used = false

/-- `Shape` for heaps that may also hold shorter blocks, of `least` bytes: such a
block has no room for links, so it is never listed. -/
structure Layout (A : Arena) (least : Nat) (s : State) (bs : List Block) (fl : List Nat) :
    Prop where
  least_ok : 16 ≤ least ∧ least ≤ 32
  brk_le : s.memBrk ≤ A.heap + MAX_HEAP
  tiles : TileHeap (A.heap + 8) bs s.memBrk
  sizes : ∀ b ∈ bs, b.size % 16 = 0 ∧ least ≤ b.size
  first_eq : s.mmHeapFirst = firstAddr bs
  last_eq : s.mmHeapLast = lastAddr bs
  tagged : ∀ b ∈ bs, Tagged s.mem b
  list : FreeList s.mem s.freeListFirst fl
  nodup : fl.Nodup
  free_of_mem : ∀ a ∈ fl, ∃ b ∈ bs, b.addr = a ∧ b.used = false ∧ 32 ≤ b.size

/-- The whole heap invariant: the free list holds exactly the free blocks, and
no two adjacent blocks are free. -/
structure HeapInvariant (A : Arena) (s : State) (bs : List Block) (fl : List Nat) : Prop
    extends Shape A s bs fl where
  mem_of_free : ∀ b ∈ bs, b.used = false → b.addr ∈ fl
  no_adjacent : NoAdjacent bs

/-- The heap invariant of heaps that may hold blocks of `least` bytes. -/
structure Settled (A : Arena) (least : Nat) (s : State) (bs : List Block) (fl : List Nat) : Prop
    extends Layout A least s bs fl where
  mem_of_free : ∀ b ∈ bs, b.used = false → b.addr ∈ fl
  no_adjacent : NoAdjacent bs

/-- With blocks of at least 32 bytes it is the heap invariant. -/
theorem settled_iff {A : Arena} {s : State} {bs : List Block} {fl : List Nat} :
    Settled A 32 s bs fl ↔ HeapInvariant A s bs fl := by
  constructor
  · intro h
    refine ⟨⟨h.brk_le, h.tiles, h.sizes, h.first_eq, h.last_eq, h.tagged, h.list, h.nodup, ?_⟩,
      h.mem_of_free, h.no_adjacent⟩
    intro a ha
    obtain ⟨b, hb, haddr, hu, -⟩ := h.free_of_mem a ha
    exact ⟨b, hb, haddr, hu⟩
  · intro h
    refine ⟨⟨by omega, h.brk_le, h.tiles, h.sizes, h.first_eq, h.last_eq, h.tagged, h.list,
      h.nodup, ?_⟩, h.mem_of_free, h.no_adjacent⟩
    intro a ha
    obtain ⟨b, hb, haddr, hu⟩ := h.free_of_mem a ha
    exact ⟨b, hb, haddr, hu, (h.sizes b hb).2⟩

/-- Set the header and footer words of a block. -/
def tagMem (m : Mem) (addr size : Nat) (used : Bool) : Mem :=
  store64 (store64 m addr (sizeWord size used)) (addr + size - 8) (sizeWord size used)

section Tags

variable {m m' : Mem} {b : Block} {addr size i : Nat} {used : Bool}

/-- Tags change nothing beside them. -/
theorem tagMem_other (h1 : i < addr ∨ addr + 8 ≤ i)
    (h2 : i < addr + size - 8 ∨ addr + size ≤ i) : tagMem m addr size used i = m i := by
  unfold tagMem
  rw [store64_other (by omega), store64_other h1]

/-- Writing the tags of a block changes only bytes of the block. -/
theorem tagMem_outside (hs : 8 ≤ size) (h : i < addr ∨ addr + size ≤ i) :
    tagMem m addr size used i = m i :=
  tagMem_other (by omega) (by omega)

/-- A block is tagged when its tags have been written. -/
theorem tagMem_tagged (h2 : size % 2 = 0) (h16 : 16 ≤ size) (hlt : size < 2 ^ 63) :
    Tagged (tagMem m addr size used) ⟨addr, size, used⟩ := by
  have hw : sizeWord size used = size + used.toNat := sizeWord_eq h2
  have hlt' : size + used.toNat < 2 ^ 64 := by have := used.toNat_le; omega
  constructor
  · rw [tagMem, load64_store64_apart (by unfold Apart; dsimp only; omega),
      load64_store64_same (by omega), hw]
    rfl
  · rw [tagMem, load64_store64_same (by omega), hw]
    rfl

/-- Tags depend only on the two tag words. -/
theorem Tagged.congr (h : Tagged m b)
    (h1 : ∀ i, b.addr ≤ i → i < b.addr + 8 → m' i = m i)
    (h2 : ∀ i, b.addr + b.size - 8 ≤ i → i < b.addr + b.size → m' i = m i)
    (h8 : 8 ≤ b.size) : Tagged m' b := by
  refine ⟨(load64_congr h1).trans h.1, (load64_congr fun i hi hi' => ?_).trans h.2⟩
  exact h2 i hi (by omega)

end Tags

section Execution

variable {A : Arena} {mem : Mem} {brk hf hl free : Nat} {b : Block}
variable (hbrk : brk ≤ A.heap + MAX_HEAP)
include hbrk

/-- Both tags of a block in the heap can be written. -/
theorem setHeader_eq {addr size : Nat} {used : Bool} (hlo : A.heap ≤ addr)
    (hhi : addr + size ≤ brk) (h8 : 8 ≤ size) :
    setHeader A addr size used ⟨⟨mem, brk⟩, hf, hl, free⟩ =
      some ⟨⟨tagMem mem addr size used, brk⟩, hf, hl, free⟩ := by
  simp only [setHeader, tagMem]
  rw [put_in hbrk hlo (by omega)]
  exact put_in hbrk (by omega) (by omega)

variable (hb : Tagged mem b) (hlo : A.heap ≤ b.addr) (hhi : b.addr + b.size ≤ brk)
  (h2 : b.size % 2 = 0) (h8 : 8 ≤ b.size)
include hb hlo hhi h2 h8

/-- The size in the header is that of the block, -/
theorem getSize_eq : getSize A b.addr ⟨⟨mem, brk⟩, hf, hl, free⟩ = some b.size := by
  have := A.heap_low
  simp only [getSize]
  rw [load_in hbrk hlo (by omega), hb.1]
  simp [Block.word, wordSize_add h2 (by omega)]

/-- and so is the bit. -/
theorem isAllocated_eq : isAllocated A b.addr ⟨⟨mem, brk⟩, hf, hl, free⟩ = some b.used := by
  simp only [isAllocated]
  rw [load_in hbrk hlo (by omega), hb.1]
  simp [Block.word, wordUsed_add h2]

/-- The footer of a block, read from the block behind it. -/
theorem footer_eq : load A (b.addr + b.size - 8) ⟨mem, brk⟩ = some b.word := by
  rw [load_in hbrk (by omega) (by omega), hb.2]

end Execution

/-- Link words of listed nodes lie in free blocks, between the tags. -/
theorem linkArea_free {bs : List Block} {nodes : List Nat} {i : Nat}
    (hn : ∀ x ∈ nodes, ∃ b ∈ bs, b.addr = x ∧ b.used = false ∧ 32 ≤ b.size)
    (hi : LinkArea nodes i) :
    ∃ b ∈ bs, b.used = false ∧ b.addr + 8 ≤ i ∧ i < b.addr + b.size - 8 := by
  obtain ⟨x, hx, h1, h2⟩ := hi
  obtain ⟨b, hb, rfl, hu, h32⟩ := hn x hx
  exact ⟨b, hb, hu, h1, by omega⟩

/-- Link words of listed nodes are bytes of free blocks. -/
theorem freeOnly_of_links {bs : List Block} {m m' : Mem} {nodes : List Nat}
    (hn : ∀ x ∈ nodes, ∃ b ∈ bs, b.addr = x ∧ b.used = false ∧ 32 ≤ b.size)
    (hm : ∀ i, ¬ LinkArea nodes i → m' i = m i) : FreeOnly m m' bs := by
  intro i hi
  refine hm i fun hla => ?_
  obtain ⟨b, hb, hu, h1, h2⟩ := linkArea_free hn hla
  exact hi b hb hu ⟨by omega, by omega⟩

namespace Layout

variable {A : Arena} {least : Nat} {s : State} {bs : List Block} {fl : List Nat}

/-- Sizes are multiples of 16, -/
theorem size_ge (h : Layout A least s bs fl) {b : Block} (hb : b ∈ bs) :
    b.size % 16 = 0 ∧ 16 ≤ b.size :=
  ⟨(h.sizes b hb).1, h.least_ok.1.trans (h.sizes b hb).2⟩

/-- and positive. -/
theorem pos (h : Layout A least s bs fl) : ∀ b ∈ bs, 0 < b.size :=
  fun b hb => by have := h.size_ge hb; omega

/-- Blocks lie in the heap, -/
theorem bounds (h : Layout A least s bs fl) {b : Block} (hb : b ∈ bs) :
    A.heap + 8 ≤ b.addr ∧ b.addr + b.size ≤ s.memBrk :=
  h.tiles.bounds hb

/-- and none of them at `NULL`. -/
theorem ne_null (h : Layout A least s bs fl) {b : Block} (hb : b ∈ bs) : b.addr ≠ NULL := by
  have := h.bounds hb
  unfold NULL
  omega

/-- A block with room for its links can be a node, -/
theorem nodeIn (h : Layout A least s bs fl) {b : Block} (hb : b ∈ bs) (h32 : 32 ≤ b.size) :
    NodeIn A s.memBrk b.addr := by
  have := h.bounds hb
  exact ⟨by omega, by omega⟩

/-- and the nodes of the free list are in the heap. -/
theorem list_nodeIn (h : Layout A least s bs fl) {x : Nat} (hx : x ∈ fl) : NodeIn A s.memBrk x := by
  obtain ⟨b, hb, rfl, -, h32⟩ := h.free_of_mem x hx
  exact h.nodeIn hb h32

/-- Different blocks with room for links start at least that far apart. -/
theorem far (h : Layout A least s bs fl) {b c : Block} (hb : b ∈ bs) (hc : c ∈ bs)
    (hb32 : 32 ≤ b.size) (hc32 : 32 ≤ c.size) (hne : b.addr ≠ c.addr) :
    Far b.addr c.addr := by
  have := h.tiles.apart hb hc (fun he => hne (by rw [he]))
  unfold Far
  omega

/-- Two blocks at one address are one block. -/
theorem eq_of_addr (h : Layout A least s bs fl) {b c : Block} (hb : b ∈ bs) (hc : c ∈ bs)
    (he : b.addr = c.addr) : b = c :=
  h.tiles.eq_of_start h.pos hb hc he

/-- The nodes of the free list are apart. -/
theorem spaced (h : Layout A least s bs fl) : Spaced fl := by
  refine List.Pairwise.imp_of_mem ?_ h.nodup
  intro x y hx hy hne
  obtain ⟨b, hb, rfl, -, hb32⟩ := h.free_of_mem x hx
  obtain ⟨c, hc, rfl, -, hc32⟩ := h.free_of_mem y hy
  exact h.far hb hc hb32 hc32 hne

/-- A memory that differs only in link words of listed nodes keeps all tags. -/
theorem tagged_of_links (h : Layout A least s bs fl) {m : Mem} {nodes : List Nat}
    (hn : ∀ x ∈ nodes, ∃ b ∈ bs, b.addr = x ∧ b.used = false ∧ 32 ≤ b.size)
    (hm : ∀ i, ¬ LinkArea nodes i → m i = s.mem i) : ∀ b ∈ bs, Tagged m b := by
  intro b hb
  have hsize := h.size_ge hb
  have hout (i : Nat) (hi : b.Contains i) (htag : i < b.addr + 8 ∨ b.addr + b.size - 8 ≤ i) :
      m i = s.mem i := by
    refine hm i fun hla => ?_
    obtain ⟨c, hc, -, h1, h2⟩ := linkArea_free hn hla
    have hci : c.Contains i := ⟨by omega, by omega⟩
    have hbc : b = c := by
      by_contra hne
      have := h.tiles.apart hb hc hne
      unfold Block.Contains at hi hci
      omega
    subst hbc
    omega
  refine (h.tagged b hb).congr (fun i h1 h2 => ?_) (fun i h1 h2 => ?_) (by omega)
  · exact hout i ⟨h1, by omega⟩ (Or.inl h2)
  · exact hout i ⟨by omega, h2⟩ (Or.inr h1)

/-- Taking a node out of the list. -/
theorem removeNode {before after : List Nat} {x : Nat}
    (h : Layout A least s bs (before ++ x :: after)) :
    ∃ m, removeFreeNode A x s =
        some { s with mem := m, freeListFirst := first NULL (before ++ after) } ∧
      Layout A least { s with mem := m, freeListFirst := first NULL (before ++ after) } bs
        (before ++ after) ∧
      FreeOnly s.mem m bs := by
  obtain ⟨⟨mem, brk⟩, hf, hl, free⟩ := s
  obtain ⟨m, hrun, hlist, hm⟩ := removeFreeNode_spec hf hl h.brk_le h.list h.spaced
    (fun z hz => h.list_nodeIn hz)
  have hsub : (before ++ after).Sublist (before ++ x :: after) := by simp
  refine ⟨m, hrun, ⟨h.least_ok, h.brk_le, h.tiles, h.sizes, h.first_eq, h.last_eq,
    h.tagged_of_links h.free_of_mem hm, hlist, h.nodup.sublist hsub,
    fun a ha => h.free_of_mem a (hsub.subset ha)⟩, freeOnly_of_links h.free_of_mem hm⟩

/-- Putting an unlisted free block with room for links into the list. -/
theorem addNode (h : Layout A least s bs fl) {b : Block} (hb : b ∈ bs) (hu : b.used = false)
    (h32 : 32 ≤ b.size) (hnew : b.addr ∉ fl) :
    ∃ m, addFreeNode A b.addr s = some { s with mem := m, freeListFirst := b.addr } ∧
      Layout A least { s with mem := m, freeListFirst := b.addr } bs (b.addr :: fl) ∧
      FreeOnly s.mem m bs := by
  obtain ⟨⟨mem, brk⟩, hf, hl, free⟩ := s
  have hn : ∀ x ∈ b.addr :: fl, ∃ c ∈ bs, c.addr = x ∧ c.used = false ∧ 32 ≤ c.size := by
    intro x hx
    rcases List.mem_cons.mp hx with rfl | hx
    · exact ⟨b, hb, rfl, hu, h32⟩
    · exact h.free_of_mem x hx
  have hspaced : Spaced (b.addr :: fl) := by
    refine List.pairwise_cons.mpr ⟨fun y hy => ?_, h.spaced⟩
    obtain ⟨c, hc, rfl, -, hc32⟩ := h.free_of_mem y hy
    exact h.far hb hc h32 hc32 (fun he => hnew (he ▸ hy))
  obtain ⟨m, hrun, hlist, hm⟩ := addFreeNode_spec hf hl h.brk_le h.list hspaced
    (fun z hz => by obtain ⟨c, hc, rfl, -, hc32⟩ := hn z hz; exact h.nodeIn hc hc32)
  exact ⟨m, hrun, ⟨h.least_ok, h.brk_le, h.tiles, h.sizes, h.first_eq, h.last_eq,
    h.tagged_of_links hn hm, hlist, List.nodup_cons.mpr ⟨hnew, h.nodup⟩, hn⟩,
    freeOnly_of_links hn hm⟩

/-- A block whose tags were not touched keeps them. -/
theorem Tagged_of_eq {m m' : Mem} {b : Block} (h : Tagged m b) (h8 : 8 ≤ b.size)
    (hm : ∀ i, b.Contains i → m' i = m i) : Tagged m' b :=
  h.congr (fun i h1 h2 => hm i ⟨h1, by omega⟩) (fun i h1 h2 => hm i ⟨by omega, h2⟩) h8

/-- A list whose nodes were not touched is still the list. -/
theorem freeList_congr {m m' : Mem} {head : Nat} (h : FreeList m head fl)
    (hm : ∀ i, LinkArea fl i → m' i = m i) : FreeList m' head fl := by
  refine ⟨h.head_eq, h.links.congr (fun x hx => ?_) (fun x hx => ?_)⟩
  · exact load64_congr fun i h1 h2 => hm i ⟨x, hx, by omega, by omega⟩
  · exact load64_congr fun i h1 h2 => hm i ⟨x, List.mem_of_mem_tail hx, by omega, by omega⟩

variable {pre post : List Block} {b : Block}

/-- Blocks before and after `b` keep their bytes when only bytes of `b` change. -/
theorem tagged_around (h : Layout A least s (pre ++ b :: post) fl) {m : Mem}
    (hm : ∀ i, ¬ b.Contains i → m i = s.mem i) : ∀ c ∈ pre ++ post, Tagged m c := by
  intro c hc
  have hmem : c ∈ pre ++ b :: post := by simp at hc ⊢; tauto
  have hsize := h.size_ge hmem
  refine Tagged_of_eq (h.tagged c hmem) (by omega) fun i hi => hm i fun hbi => ?_
  have hp := h.tiles.pairwise
  obtain ⟨-, htail, hcross⟩ := List.pairwise_append.mp hp
  unfold Block.Contains at hi hbi
  rcases List.mem_append.mp hc with hc | hc
  · have := hcross c hc b (by simp)
    omega
  · have := (List.pairwise_cons.mp htail).1 c hc
    omega

/-- The links are untouched when only tags, or bytes of a block outside the
list, are. -/
theorem links_outside (h : Layout A least s bs fl) (hb : b ∈ bs) {i : Nat} (hla : LinkArea fl i)
    (hi : b.Contains i) : b.addr ∈ fl ∧ b.addr + 8 ≤ i ∧ i < b.addr + 24 := by
  obtain ⟨x, hx, h1, h2⟩ := hla
  obtain ⟨c, hc, rfl, -, hc32⟩ := h.free_of_mem x hx
  have hcb : c = b := by
    by_contra hne
    have := h.tiles.apart hc hb hne
    unfold Block.Contains at hi
    omega
  subst hcb
  exact ⟨hx, h1, h2⟩

/-- **Retagging** an unlisted block changes its state. -/
theorem setUsed (h : Layout A least s (pre ++ b :: post) fl) (hnew : b.addr ∉ fl) (used : Bool) :
    setHeader A b.addr b.size used s =
        some { s with mem := tagMem s.mem b.addr b.size used } ∧
      Layout A least { s with mem := tagMem s.mem b.addr b.size used }
        (pre ++ ⟨b.addr, b.size, used⟩ :: post) fl := by
  have hb : b ∈ pre ++ b :: post := by simp
  have hbnd := h.bounds hb
  have hsize := h.size_ge hb
  have hlow := A.heap_low
  have hbrk := h.brk_le
  have hout (i : Nat) (hi : ¬ b.Contains i) :
      tagMem s.mem b.addr b.size used i = s.mem i :=
    tagMem_outside (by omega) (by unfold Block.Contains at hi; omega)
  refine ⟨?_, ⟨h.least_ok, h.brk_le, h.tiles.setUsed, ?_, ?_, ?_, ?_, ?_, h.nodup, ?_⟩⟩
  · obtain ⟨⟨mem, brk⟩, hf, hl, free⟩ := s
    exact setHeader_eq hbrk (by omega) hbnd.2 (by omega)
  · exact forall_mem_middle.mpr (forall_mem_middle.mp h.sizes)
  · rw [h.first_eq]
    cases pre <;> rfl
  · rw [h.last_eq]
    cases post <;> simp
  · exact forall_mem_middle.mpr
      ⟨tagMem_tagged (by omega) (by omega) (by omega), h.tagged_around hout⟩
  · exact freeList_congr h.list fun i hla => hout i fun hi => hnew (h.links_outside hb hla hi).1
  · intro a ha
    obtain ⟨c, hc, rfl, hu, h32⟩ := h.free_of_mem a ha
    simp only [List.mem_append, List.mem_cons] at hc
    rcases hc with hc | rfl | hc
    · exact ⟨c, by simp [hc], rfl, hu, h32⟩
    · exact absurd ha hnew
    · exact ⟨c, by simp [hc], rfl, hu, h32⟩

/-- **Merging** a free block with the unlisted block behind it. -/
theorem merge {c : Block} (h : Layout A least s (pre ++ b :: c :: post) fl) (hu : b.used = false)
    (hnew : c.addr ∉ fl) :
    let m := tagMem s.mem b.addr (b.size + c.size) false
    let last := if c.addr = s.mmHeapLast then b.addr else s.mmHeapLast
    setHeader A b.addr ((b.size + c.size) % 2 ^ 64) false s = some { s with mem := m } ∧
      Layout A least { s with mem := m, mmHeapLast := last }
        (pre ++ ⟨b.addr, b.size + c.size, false⟩ :: post) fl := by
  intro m last
  have hb : b ∈ pre ++ b :: c :: post := by simp
  have hc : c ∈ pre ++ b :: c :: post := by simp
  have hnext : c.addr = b.addr + b.size := h.tiles.next_addr
  have hbb := h.bounds hb
  have hcb := h.bounds hc
  have hbs := h.size_ge hb
  have hcs := h.size_ge hc
  have hleast := h.least_ok
  have hlow := A.heap_low
  have hbrk := h.brk_le
  have hsum : (b.size + c.size) % 2 ^ 64 = b.size + c.size := by omega
  -- only the header of `b` and the footer of `c` are written
  have hout (i : Nat) (hi : ¬ b.Contains i) (hci : ¬ c.Contains i) : m i = s.mem i :=
    tagMem_outside (by omega) (by unfold Block.Contains at hi hci; omega)
  have haround : ∀ d ∈ pre ++ post, Tagged m d := by
    intro d hd
    have hmem : d ∈ pre ++ b :: c :: post := by simp at hd ⊢; tauto
    have hsize := h.size_ge hmem
    obtain ⟨-, htail, hcross⟩ := List.pairwise_append.mp h.tiles.pairwise
    obtain ⟨hbt, htail'⟩ := List.pairwise_cons.mp htail
    refine Tagged_of_eq (h.tagged d hmem) (by omega) fun i hi => ?_
    unfold Block.Contains at hi
    rcases List.mem_append.mp hd with hd | hd
    · have := hcross d hd b (by simp)
      exact tagMem_outside (by omega) (by omega)
    · have := (List.pairwise_cons.mp htail').1 d hd
      exact tagMem_outside (by omega) (by omega)
  refine ⟨?_, ⟨h.least_ok, h.brk_le, h.tiles.merge, ?_, ?_, ?_, ?_, ?_, h.nodup, ?_⟩⟩
  · obtain ⟨⟨mem, brk⟩, hf, hl, free⟩ := s
    rw [hsum]
    exact setHeader_eq hbrk (by omega) (by dsimp only at hcb ⊢; omega) (by omega)
  · obtain ⟨-, hsizes⟩ := forall_mem_middle.mp h.sizes
    exact forall_mem_middle.mpr
      ⟨⟨by dsimp only; omega, by dsimp only; omega⟩, (forall_mem_middle.mp hsizes).2⟩
  · rw [h.first_eq]
    cases pre <;> rfl
  · have hlast := lastAddr_merge (n := b.size + c.size) (u := false) h.tiles h.pos
    rwa [← h.last_eq] at hlast
  · exact forall_mem_middle.mpr ⟨tagMem_tagged (by omega) (by omega) (by omega), haround⟩
  · refine freeList_congr h.list fun i hla => ?_
    by_cases hi : b.Contains i
    · obtain ⟨-, h1, h2⟩ := h.links_outside hb hla hi
      exact tagMem_other (by omega) (by omega)
    · exact hout i hi fun hci => hnew (h.links_outside hc hla hci).1
  · intro a ha
    obtain ⟨d, hd, rfl, hud, h32⟩ := h.free_of_mem a ha
    simp only [List.mem_append, List.mem_cons] at hd
    rcases hd with hd | rfl | rfl | hd
    · exact ⟨d, by simp [hd], rfl, hud, h32⟩
    · exact ⟨⟨d.addr, d.size + c.size, false⟩, by simp, rfl, rfl, by dsimp only; omega⟩
    · exact absurd ha hnew
    · exact ⟨d, by simp [hd], rfl, hud, h32⟩

/-- **Splitting** a free block in two free blocks. -/
theorem split {n : Nat} (h : Layout A least s (pre ++ b :: post) fl) (hu : b.used = false)
    (hn16 : n % 16 = 0) (hn : 32 ≤ n) (hfit : n + 32 ≤ b.size) :
    let m1 := tagMem s.mem b.addr n false
    let m2 := tagMem m1 (b.addr + n) (b.size - n) false
    let last := if s.mmHeapLast < b.addr + n then b.addr + n else s.mmHeapLast
    setHeader A b.addr n false s = some { s with mem := m1 } ∧
      setHeader A (b.addr + n) (b.size - n) false { s with mem := m1 } =
        some { s with mem := m2 } ∧
      Layout A least { s with mem := m2, mmHeapLast := last }
        (pre ++ ⟨b.addr, n, false⟩ :: ⟨b.addr + n, b.size - n, false⟩ :: post) fl ∧
      ∀ i, ¬ b.Contains i → m2 i = s.mem i := by
  intro m1 m2 last
  have hb : b ∈ pre ++ b :: post := by simp
  have hbnd := h.bounds hb
  have hsize := h.size_ge hb
  have hleast := h.least_ok
  have hlow := A.heap_low
  have hbrk := h.brk_le
  have hout (i : Nat) (hi : ¬ b.Contains i) : m2 i = s.mem i := by
    unfold Block.Contains at hi
    rw [show m2 i = m1 i from tagMem_outside (by omega) (by omega)]
    exact tagMem_outside (by omega) (by omega)
  have hfirst : Tagged m2 ⟨b.addr, n, false⟩ :=
    Tagged_of_eq (tagMem_tagged (by omega) (by omega) (by omega)) (by dsimp only; omega)
      fun i hi => tagMem_outside (by omega) (by unfold Block.Contains at hi; dsimp only at hi; omega)
  refine ⟨?_, ?_, ⟨h.least_ok, h.brk_le, h.tiles.split (by omega), ?_, ?_, ?_, ?_, ?_, h.nodup, ?_⟩, hout⟩
  · obtain ⟨⟨mem, brk⟩, hf, hl, free⟩ := s
    exact setHeader_eq hbrk (by omega) (by dsimp only at hbnd ⊢; omega) (by omega)
  · obtain ⟨⟨mem, brk⟩, hf, hl, free⟩ := s
    exact setHeader_eq hbrk (by omega) (by dsimp only at hbnd ⊢; omega) (by omega)
  · obtain ⟨-, hsizes⟩ := forall_mem_middle.mp h.sizes
    exact forall_mem_middle.mpr ⟨⟨hn16, by dsimp only; omega⟩,
      forall_mem_middle.mpr ⟨⟨by dsimp only; omega, by dsimp only; omega⟩, hsizes⟩⟩
  · rw [h.first_eq]
    cases pre <;> rfl
  · have hlast := lastAddr_split (n := n) (u := false) (v := false) h.tiles (by omega) (by omega)
    rwa [← h.last_eq] at hlast
  · exact forall_mem_middle.mpr ⟨hfirst, forall_mem_middle.mpr
      ⟨tagMem_tagged (by omega) (by omega) (by omega), h.tagged_around hout⟩⟩
  · refine freeList_congr h.list fun i hla => ?_
    by_cases hi : b.Contains i
    · obtain ⟨-, h1, h2⟩ := h.links_outside hb hla hi
      have hm2 : m2 i = m1 i := tagMem_outside (by omega) (by omega)
      exact hm2.trans (tagMem_other (by omega) (by omega))
    · exact hout i hi
  · intro a ha
    obtain ⟨c, hc, rfl, huc, h32⟩ := h.free_of_mem a ha
    simp only [List.mem_append, List.mem_cons] at hc
    rcases hc with hc | rfl | hc
    · exact ⟨c, by simp [hc], rfl, huc, h32⟩
    · exact ⟨⟨c.addr, n, false⟩, by simp, rfl, rfl, hn⟩
    · exact ⟨c, by simp [hc], rfl, huc, h32⟩

/-- **Extending** the heap by a block of the bytes that `mem_sbrk` returned. -/
theorem extend {n : Nat} (h : Layout A least s bs fl) (hn16 : n % 16 = 0) (hn : least ≤ n)
    (hfit : s.memBrk + n ≤ A.heap + MAX_HEAP) (used : Bool) :
    let m := tagMem s.mem s.memBrk n used
    let hf := if s.mmHeapFirst = NULL then s.memBrk else s.mmHeapFirst
    setHeader A s.memBrk n used ⟨⟨s.mem, s.memBrk + n⟩, hf, s.memBrk, s.freeListFirst⟩ =
        some ⟨⟨m, s.memBrk + n⟩, hf, s.memBrk, s.freeListFirst⟩ ∧
      Layout A least ⟨⟨m, s.memBrk + n⟩, hf, s.memBrk, s.freeListFirst⟩
        (bs ++ [⟨s.memBrk, n, used⟩]) fl ∧
      ∀ i, i < s.memBrk ∨ s.memBrk + n ≤ i → m i = s.mem i := by
  intro m hf
  have hle := h.tiles.le
  have hleast := h.least_ok
  have hout (i : Nat) (hi : i < s.memBrk ∨ s.memBrk + n ≤ i) : m i = s.mem i :=
    tagMem_outside (by omega) hi
  refine ⟨?_, ⟨h.least_ok, hfit, h.tiles.extend, ?_, ?_, ?_, ?_, ?_, h.nodup, ?_⟩, hout⟩
  · exact setHeader_eq hfit (by omega) (by omega) (by omega)
  · intro c hc
    simp only [List.mem_append, List.mem_singleton] at hc
    rcases hc with hc | rfl
    · exact h.sizes c hc
    · exact ⟨hn16, hn⟩
  · cases bs with
    | nil => simp [hf, h.first_eq]
    | cons b bs =>
        have : s.mmHeapFirst ≠ NULL := by
          rw [h.first_eq]
          exact h.ne_null (b := b) (by simp)
        exact (if_neg this).trans h.first_eq
  · simp
  · intro c hc
    simp only [List.mem_append, List.mem_singleton] at hc
    rcases hc with hc | rfl
    · have := h.size_ge hc
      refine Tagged_of_eq (h.tagged c hc) (by omega) fun i hi => hout i ?_
      have := (h.bounds hc).2
      unfold Block.Contains at hi
      omega
    · exact tagMem_tagged (by omega) (by omega) (by unfold MAX_HEAP at *; omega)
  · refine freeList_congr h.list fun i hla => hout i ?_
    obtain ⟨x, hx, h1, h2⟩ := hla
    have := (h.list_nodeIn hx).le_brk
    omega
  · intro a ha
    obtain ⟨c, hc, rfl, hu, h32⟩ := h.free_of_mem a ha
    exact ⟨c, by simp [hc], rfl, hu, h32⟩

end Layout

end Malloc.Explicit
