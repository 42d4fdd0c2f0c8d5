import CS24.Malloc.ImplicitHeap

/-!
# The implicit allocator keeps its contract

The walks of `coalesce` and `find_fit` visit exactly the blocks, in order, so
they end and do what they should; then each call changes the set of payloads as
a client expects.  With the client layer, the client's guarantee holds in every
state clients can reach, although `mm_heap_last` may be stale in it.
-/

namespace Malloc.Implicit

open Bytes Tiling

variable {A : Arena} {s : State} {U : Payloads} {bs pre post : List Block} {b : Block}
  {n fuel curr : Nat}

/-- A block has 16 bytes at least. -/
theorem minBlockSize_eq : minBlockSize = 16 := by decide

/-- So there are fewer blocks than bytes. -/
theorem Shape.length_lt (h : Shape A s bs) : bs.length < s.memBrk + 1 := by
  have := h.tiles.length_le h.pos
  omega

/-! ## Traversing -/

/-- The walk from a block on meets the blocks behind it. -/
theorem traversalFrom_spec (h : Shape A s (pre ++ post)) (hcurr : TileHeap curr post s.memBrk)
    (hfuel : post.length < fuel) :
    traversal A fuel curr s = some (post.map Block.addr) := by
  obtain ⟨fuel, rfl⟩ : ∃ k, fuel = k + 1 := ⟨fuel - 1, by omega⟩
  induction post generalizing pre curr fuel with
  | nil =>
      have hlt := h.last_lt
      obtain rfl : curr = s.memBrk := hcurr
      have hstop : ¬ s.memBrk ≤ s.mmHeapLast := by omega
      simp [traversal, hstop]
  | cons b post ih =>
      have hb : b ∈ pre ++ b :: post := by simp
      obtain ⟨rfl, hrest⟩ := tiles_cons.mp hcurr
      have hlast : s.mmHeapLast ≠ NULL := fun he => by simpa using h.last_null.mp he
      obtain ⟨fuel, rfl⟩ : ∃ k, fuel = k + 1 := ⟨fuel - 1, by simp at hfuel; omega⟩
      have h' : Shape A s ((pre ++ [b]) ++ post) := by simpa using h
      have hrun := ih h' hrest fuel (by simpa using hfuel)
      rw [traversal]
      simp [hlast, h.le_last b hb, h.getSize_mem hb, hrun]

/-- **A traversal visits exactly the blocks**, in order. -/
theorem traversal_spec (h : Shape A s bs) :
    traversal A (s.memBrk + 1) s.mmHeapFirst s = some (bs.map Block.addr) := by
  cases bs with
  | nil =>
      have hlast := h.last_null.mpr rfl
      simp [traversal, hlast]
  | cons b bs =>
      have hfirst : s.mmHeapFirst = b.addr := h.first_eq
      obtain ⟨haddr, -⟩ := tiles_cons.mp h.tiles
      have hall : Shape A s ([] ++ b :: bs) := h
      refine traversalFrom_spec hall ?_ h.length_lt
      rw [hfirst, haddr]
      exact h.tiles

/-! ## Coalescing -/

/-- **The inner loop** merges a free block with all free blocks behind it.  By
induction on the blocks behind. -/
theorem absorb_spec (hA : A.Mapped) (h : Shape A s (pre ++ b :: post)) (hu : b.used = false)
    (hfuel : post.length < fuel) :
    ∃ n post' t, absorb A b.addr fuel (b.addr + b.size) s = some t ∧
      Shape A t (pre ++ ⟨b.addr, n, false⟩ :: post') ∧ (∀ c ∈ post'.head?, c.used = true) ∧
      post'.length ≤ post.length ∧
      SameUsed (pre ++ b :: post) (pre ++ ⟨b.addr, n, false⟩ :: post') ∧
      FreeOnly s.mem t.mem (pre ++ b :: post) ∧ t.memBrk = s.memBrk := by
  obtain ⟨fuel, rfl⟩ : ∃ k, fuel = k + 1 := ⟨fuel - 1, by omega⟩
  have hb' : b = ⟨b.addr, b.size, false⟩ := by rw [← hu]
  induction post generalizing b s fuel with
  | nil =>
      -- the word at the break is read, but the break lies behind `mm_heap_last`
      obtain ⟨u, hread⟩ := h.isAllocated_brk hA
      have hnxt : b.addr + b.size = s.memBrk := h.tiles.last_end
      have hlt := h.last_lt
      refine ⟨b.size, [], s, ?_, hb' ▸ h, by simp, le_refl _, hb' ▸ .refl _, .refl _ _, rfl⟩
      have hstop : ¬ s.memBrk ≤ s.mmHeapLast := by omega
      simp [absorb, hnxt, hread, hstop]
  | cons c post ih =>
      have hc : c ∈ pre ++ b :: c :: post := by simp
      have hb : b ∈ pre ++ b :: c :: post := by simp
      have hnxt : b.addr + b.size = c.addr := h.tiles.next_addr.symm
      cases huc : c.used with
      | true =>
          refine ⟨b.size, c :: post, s, ?_, hb' ▸ h, by simpa using huc, le_refl _, hb' ▸ .refl _,
            .refl _ _, rfl⟩
          simp [absorb, hnxt, h.isAllocated_mem hc, huc]
      | false =>
          obtain ⟨hrun, hS⟩ := h.merge
          have hlast : s.mmHeapLast ≠ NULL := fun he => by simpa using h.last_null.mp he
          have hle := h.le_last c hc
          obtain ⟨fuel, rfl⟩ : ∃ k, fuel = k + 1 := ⟨fuel - 1, by simp at hfuel; omega⟩
          obtain ⟨n, post', t, hrun', hS', hhead, hlen, hsame, hkeep, hbrk⟩ :=
            ih hS rfl fuel (by simpa using hfuel) rfl
          have hsize := hS.getSize_mem (b := ⟨b.addr, b.size + c.size, false⟩) (by simp)
          refine ⟨n, post', t, ?_, hS', hhead, by simp; omega,
            (sameUsed_merge hu huc).trans hsame, ?_, hbrk⟩
          · rw [absorb]
            simp only [hnxt, h.isAllocated_mem hc, huc, hle, ne_eq, hlast, not_false_eq_true,
              and_self, if_true, h.getSize_mem hb, h.getSize_mem hc, hrun, hsize,
              Option.bind_eq_bind, Option.bind_some]
            exact hrun'
          · refine FreeOnly.trans_same (fun i hi => tagMem_other ?_) (sameUsed_merge hu huc)
              h.tiles hS.tiles hkeep
            have := hi b hb hu
            have := (h.sizes b hb).2
            unfold Block.Contains at *
            omega

/-- **The outer loop** merges all free neighbours from `curr` on.  By induction on
the fuel: merging shortens what is left of the walk. -/
theorem coalesceFrom_spec (hA : A.Mapped) (h : Shape A s (pre ++ post))
    (hcurr : TileHeap curr post s.memBrk) (hadj : NoAdjacent (pre ++ post.head?.toList))
    (hfuel : post.length < fuel) :
    ∃ bs t, coalesceFrom A fuel curr s = some t ∧ Shape A t bs ∧ NoAdjacent bs ∧
      SameUsed (pre ++ post) bs ∧ FreeOnly s.mem t.mem (pre ++ post) ∧
      t.memBrk = s.memBrk := by
  induction fuel generalizing pre post s curr with
  | zero => omega
  | succ fuel ih =>
      cases post with
      | nil =>
          have hlt := h.last_lt
          obtain rfl : curr = s.memBrk := hcurr
          have hstop : ¬ s.memBrk ≤ s.mmHeapLast := by omega
          refine ⟨pre ++ [], s, ?_, h, by simpa using hadj, .refl _, .refl _ _, rfl⟩
          simp [coalesceFrom, hstop]
      | cons b post =>
          have hb : b ∈ pre ++ b :: post := by simp
          obtain ⟨rfl, hrest⟩ := tiles_cons.mp hcurr
          have hlast : s.mmHeapLast ≠ NULL := fun he => by simpa using h.last_null.mp he
          have hle := h.le_last b hb
          have hhead : NoAdjacent (pre ++ [b]) := by simpa using hadj
          cases hu : b.used with
          | true =>
              have hadj' : NoAdjacent ((pre ++ [b]) ++ post.head?.toList) := by
                refine List.isChain_append.mpr ⟨hhead, by cases post <;> simp, ?_⟩
                simp [hu]
              have h' : Shape A s ((pre ++ [b]) ++ post) := by simpa using h
              obtain ⟨bs, t, hrun, hS, hno, hsame, hkeep, hbrk⟩ :=
                ih h' hrest hadj' (by simpa using hfuel)
              refine ⟨bs, t, ?_, hS, hno, by simpa using hsame, by simpa using hkeep, hbrk⟩
              simp [coalesceFrom, hlast, hle, h.isAllocated_mem hb, hu, h.getSize_mem hb, hrun]
          | false =>
              have hlen : post.length < s.memBrk + 1 := by
                have := h.length_lt
                simp at this
                omega
              obtain ⟨n, post', t, hrun1, hS1, hused, hshort, hsame1, hkeep1, hbrk1⟩ :=
                absorb_spec hA h hu hlen
              have hadj' : NoAdjacent ((pre ++ [⟨b.addr, n, false⟩]) ++ post'.head?.toList) := by
                have hpre : NoAdjacent (pre ++ [⟨b.addr, n, false⟩]) := by
                  refine List.isChain_append.mpr ⟨hhead.of_append.1, by simp, ?_⟩
                  intro d hd e he
                  obtain rfl : _ = e := by simpa using he
                  have := (List.isChain_append.mp hhead).2.2 d hd b (by simp)
                  exact Or.inl (this.resolve_right (by simp [hu]))
                refine List.isChain_append.mpr ⟨hpre, by cases post' <;> simp, ?_⟩
                intro d _ e he
                exact Or.inr (hused e (by simpa using he))
              have hS1' : Shape A t ((pre ++ [⟨b.addr, n, false⟩]) ++ post') := by simpa using hS1
              obtain ⟨bs, u, hrun2, hS2, hno, hsame2, hkeep2, hbrk2⟩ :=
                ih hS1' hS1.tiles.rest hadj' (by simp at hfuel; omega)
              simp only [List.append_assoc, List.singleton_append] at hsame2 hkeep2
              refine ⟨bs, u, ?_, hS2, hno, hsame1.trans hsame2,
                hkeep1.trans_same hsame1 h.tiles (hbrk1 ▸ hS1.tiles) hkeep2,
                hbrk2.trans hbrk1⟩
              have hsize := hS1.getSize_mem (b := ⟨b.addr, n, false⟩) (by simp)
              simp [coalesceFrom, hlast, hle, h.isAllocated_mem hb, hu, h.getSize_mem hb, hrun1,
                hsize, hrun2]

/-- **`coalesce`** leaves no two free neighbours and keeps the blocks in use. -/
theorem coalesce_spec (hA : A.Mapped) (h : Shape A s bs) :
    ∃ bs' t, coalesce A s = some t ∧ Shape A t bs' ∧ NoAdjacent bs' ∧ SameUsed bs bs' ∧
      FreeOnly s.mem t.mem bs ∧ t.memBrk = s.memBrk := by
  cases bs with
  | nil =>
      have hlast := h.last_null.mpr rfl
      exact ⟨[], s, by simp [coalesce, coalesceFrom, hlast], h, by simp, .refl _, .refl _ _, rfl⟩
  | cons b bs =>
      have hfirst : s.mmHeapFirst = b.addr := h.first_eq
      obtain ⟨haddr, hrest⟩ := tiles_cons.mp h.tiles
      have hall : Shape A s ([] ++ b :: bs) := h
      refine coalesceFrom_spec hA hall ?_ (by simp) h.length_lt
      rw [hfirst, haddr]
      exact h.tiles

/-! ## Searching -/

/-- The result of `find_fit`: nothing, when every free block is too small; or a
free block, with the rest of it split off. -/
inductive FitResult (A : Arena) (s : State) (bs : List Block) (n : Nat) : Nat → State → Prop
  | none : (∀ b ∈ bs, b.used = false → b.size < n) → FitResult A s bs n NULL s
  | found {pre post rest : List Block} {b : Block} {k : Nat} {t : State} :
      bs = pre ++ b :: post → b.used = false → Taken minBlockSize n b k rest →
      Shape A t (pre ++ ⟨b.addr, k, false⟩ :: (rest ++ post)) →
      t.memBrk = s.memBrk → (∀ i, ¬ b.Contains i → t.mem i = s.mem i) →
      FitResult A s bs n b.addr t

/-- The loop of `find_fit`, by induction on the blocks still to be visited. -/
theorem findFitFrom_spec (h : Shape A s (pre ++ post)) (hcurr : TileHeap curr post s.memBrk)
    (hn16 : n % 16 = 0) (hn : 16 ≤ n) (hsmall : ∀ b ∈ pre, b.used = false → b.size < n)
    (hfuel : post.length < fuel) :
    ∃ q t, findFitFrom A n fuel curr s = some (q, t) ∧ FitResult A s (pre ++ post) n q t := by
  obtain ⟨fuel, rfl⟩ : ∃ k, fuel = k + 1 := ⟨fuel - 1, by omega⟩
  induction post generalizing pre curr fuel with
  | nil =>
      have hlt := h.last_lt
      obtain rfl : curr = s.memBrk := hcurr
      have hstop : ¬ s.memBrk ≤ s.mmHeapLast := by omega
      exact ⟨NULL, s, by simp [findFitFrom, hstop], .none (by simpa using hsmall)⟩
  | cons b post ih =>
      have hb : b ∈ pre ++ b :: post := by simp
      have hbnd := h.bounds hb
      obtain ⟨rfl, hrest⟩ := tiles_cons.mp hcurr
      have hlast : s.mmHeapLast ≠ NULL := fun he => by simpa using h.last_null.mp he
      have hle := h.le_last b hb
      by_cases hfit : b.used = false ∧ n ≤ b.size
      · obtain ⟨hu, hfit⟩ := hfit
        by_cases hsplit : n + 16 ≤ b.size
        · obtain ⟨t, hrun, hS, hbrk, hm⟩ := h.split hn16 hn hsplit
          have htaken : Taken minBlockSize n b n [⟨b.addr + n, b.size - n, false⟩] :=
            Or.inr ⟨rfl, rfl, by rw [minBlockSize_eq]; omega⟩
          refine ⟨b.addr, t, ?_, .found rfl hu htaken hS hbrk hm⟩
          have hsplit' : minBlockSize ≤ b.size - n := by rw [minBlockSize_eq]; omega
          simp [findFitFrom, hlast, hle, h.isAllocated_mem hb, h.getSize_mem hb, hu, hfit, hsplit',
            hrun]
        · have htaken : Taken minBlockSize n b b.size [] :=
            Or.inl ⟨rfl, rfl, hfit, by rw [minBlockSize_eq]; omega⟩
          have hb' : b = ⟨b.addr, b.size, false⟩ := by rw [← hu]
          refine ⟨b.addr, s, ?_, .found rfl hu htaken (hb' ▸ h) rfl fun _ _ => rfl⟩
          have hsplit' : ¬ minBlockSize ≤ b.size - n := by rw [minBlockSize_eq]; omega
          simp [findFitFrom, hlast, hle, h.isAllocated_mem hb, h.getSize_mem hb, hu, hfit, hsplit']
      · obtain ⟨fuel, rfl⟩ : ∃ k, fuel = k + 1 := ⟨fuel - 1, by simp at hfuel; omega⟩
        have h' : Shape A s ((pre ++ [b]) ++ post) := by simpa using h
        have hsmall' : ∀ c ∈ pre ++ [b], c.used = false → c.size < n := by
          intro c hc huc
          rcases List.mem_append.mp hc with hc | hc
          · exact hsmall c hc huc
          · obtain rfl : c = b := by simpa using hc
            have := mt (And.intro huc) hfit
            omega
        obtain ⟨q, t, hrun, hres⟩ := ih h' hrest hsmall' fuel (by simpa using hfuel)
        refine ⟨q, t, ?_, by simpa using hres⟩
        rw [findFitFrom]
        simpa [hlast, hle, h.isAllocated_mem hb, h.getSize_mem hb, hfit] using hrun

/-- **`find_fit`** ends and visits every block. -/
theorem findFit_spec (h : Shape A s bs) (hn16 : n % 16 = 0) (hn : 16 ≤ n) :
    ∃ q t, findFit A n s = some (q, t) ∧ FitResult A s bs n q t := by
  cases bs with
  | nil =>
      have hlast := h.last_null.mpr rfl
      exact ⟨NULL, s, by simp [findFit, findFitFrom, hlast], .none (by simp)⟩
  | cons b bs =>
      have hfirst : s.mmHeapFirst = b.addr := h.first_eq
      obtain ⟨haddr, -⟩ := tiles_cons.mp h.tiles
      have hall : Shape A s ([] ++ b :: bs) := h
      refine findFitFrom_spec hall ?_ hn16 hn (by simp) h.length_lt
      rw [hfirst, haddr]
      exact h.tiles

/-! ## The calls -/

/-- The header. -/
def OVERHEAD : Nat := 8

/-- The sizes a client may request: adding the header and rounding up does not
overflow. -/
def RequestOk (n : Nat) : Prop := n ≤ SIZE_MAX - 31

instance (n : Nat) : Decidable (RequestOk n) := by unfold RequestOk; infer_instance

/-- The functions of `mm-implicit.c` as a client sees them. -/
def allocator (A : Arena) : Allocator State where
  lib := State.toMemlib
  withMem s m := { s with mem := m }
  init := mmInit A
  malloc := mmMalloc A
  free := mmFree A
  realloc := mmRealloc A

/-- Memory represents some blocks, and `U` are the payloads in use. -/
def Inv (A : Arena) (s : State) (U : Payloads) : Prop :=
  ∃ bs, Shape A s bs ∧ U = payloads OVERHEAD bs

/-- A block has room for its tags. -/
theorem Shape.overhead_le (h : Shape A s bs) : ∀ b ∈ bs, OVERHEAD ≤ b.size := fun b hb => by
  have := h.sizes b hb
  unfold OVERHEAD
  omega

/-- The sizes that the arithmetic of the allocator can serve. -/
def SizeOk (n : Nat) : Prop := n ≤ SIZE_MAX - 23

/-- These sizes are allowed. -/
theorem RequestOk.sizeOk (hn : RequestOk n) : SizeOk n := by
  unfold RequestOk at hn
  unfold SizeOk
  omega

/-- The rounded block size for a request of `n` bytes. -/
def blockSize (n : Nat) : Nat := roundUp ((8 + n) % 2 ^ 64) ALIGNMENT

/-- The size of the block for a request. -/
theorem blockSize_spec (hn : SizeOk n) :
    blockSize n % 16 = 0 ∧ 16 ≤ blockSize n ∧ n + 8 ≤ blockSize n ∧ blockSize n < n + 24 := by
  unfold SizeOk SIZE_MAX at hn
  have hmod : (8 + n) % 2 ^ 64 = 8 + n := by omega
  have := roundUp_spec (show 8 + n + 15 < 2 ^ 64 by omega)
  simp only [blockSize, hmod]
  omega

/-- `mm_init` on an empty arena gives the empty heap. -/
theorem mmInit_spec {refuse : Bool} {t : State} (hbrk : s.memBrk = A.heap)
    (h : mmInit A refuse s = (true, t)) : Shape A t [] := by
  unfold mmInit at h
  rcases memSbrk_cases A (ALIGNMENT - 8) refuse s.toMemlib with ⟨he, -⟩ | ⟨he, -, hle, hne⟩
  · simp [he] at h
  · simp only [he, hne, if_false, Prod.mk.injEq, true_and] at h
    subst h
    exact ⟨hle, by simp [hbrk, ALIGNMENT], by simp, rfl, by simp, by simp,
      by simp [NULL, ALIGNMENT], by simp⟩

/-- **Taking a found block into use.** -/
theorem useFound_spec {k : Nat} {rest : List Block} {t : State} (hu : b.used = false)
    (hk : Taken minBlockSize n b k rest)
    (hS : Shape A t (pre ++ ⟨b.addr, k, false⟩ :: (rest ++ post))) :
    ∃ u, (getSize A b.addr t).bind (fun k => setHeader A b.addr k true t) = some u ∧
      Inv A u (insert (b.addr + 8, k - 8) (payloads OVERHEAD (pre ++ b :: post))) ∧
      (∀ e ∈ payloads OVERHEAD (pre ++ b :: post), e.1 ≠ b.addr + 8) ∧
      (∀ i, ¬ b.Contains i → u.mem i = t.mem i) ∧ u.memBrk = t.memBrk := by
  obtain ⟨hrun, hS'⟩ := hS.setUsed true
  have hks := hS.sizes ⟨b.addr, k, false⟩ (by simp)
  have hkb : k ≤ b.size := hk.bounds.2
  have hpay : payloads OVERHEAD (pre ++ b :: post) = payloads OVERHEAD (pre ++ (rest ++ post)) := by
    refine SameUsed.payloads_eq fun c hc => ?_
    have hcb : c ≠ b := fun he => by rw [he, hu] at hc; cases hc
    have hcr : c ∉ rest := fun hr => by rw [hk.rest_free c hr] at hc; cases hc
    simp [hcb, hcr]
  refine ⟨_, ?_, ⟨_, hS', ?_⟩, ?_, fun i hi => ?_, rfl⟩
  · rw [hS.getSize_mem (b := ⟨b.addr, k, false⟩) (by simp)]
    exact hrun
  · rw [payloads_used (b := ⟨b.addr, k, true⟩) rfl, hpay]
    rfl
  · rw [hpay]
    exact payloads_ne (b := ⟨b.addr, k, false⟩) hS.tiles hS.pos
  · refine tagMem_other ?_
    unfold Block.Contains at hi
    dsimp only at hks ⊢
    omega

/-- **Taking new bytes into use** at the end of the heap. -/
theorem useNew_spec (h : Shape A s bs) (hn16 : n % 16 = 0) (hn : 16 ≤ n)
    (hfit : s.memBrk + n ≤ A.heap + MAX_HEAP) :
    let hf := if s.mmHeapFirst = NULL then s.memBrk else s.mmHeapFirst
    ∃ u, setHeader A s.memBrk n true ⟨⟨s.mem, s.memBrk + n⟩, hf, s.memBrk⟩ = some u ∧
      Inv A u (insert (s.memBrk + 8, n - 8) (payloads OVERHEAD bs)) ∧
      (∀ e ∈ payloads OVERHEAD bs, e.1 ≠ s.memBrk + 8) ∧
      (∀ i, i < s.memBrk ∨ s.memBrk + n ≤ i → u.mem i = s.mem i) ∧ u.memBrk = s.memBrk + n := by
  obtain ⟨hrun, hS, hout⟩ := h.extend hn16 hn hfit true
  refine ⟨_, hrun, ⟨_, hS, ?_⟩, ?_, hout, rfl⟩
  · rw [payloads_used (b := ⟨s.memBrk, n, true⟩) rfl, List.append_nil]
    rfl
  · have := payloads_ne (k := OVERHEAD) hS.tiles hS.pos
    simpa using this

/-- `find_fit` finds nothing in the coalesced heap, so `mm_malloc` calls `mem_sbrk`. -/
def CallsSbrk (A : Arena) (n : Nat) (s : State) : Prop :=
  ∃ c t, coalesce A s = some c ∧ findFit A (blockSize n) c = some (NULL, t)

/-- What `mm_malloc` returns from a heap that coalesces to the blocks `bs`: nothing, when
every free block is too small and `mem_sbrk` fails; a new block behind the others; or a
free block, or the front of one. -/
inductive MallocResult (A : Arena) (s : State) (bs : List Block) (n : Nat) (refuse : Bool) :
    Nat → State → Prop
  | refused {t : State} : CallsSbrk A n s → (∀ b ∈ bs, b.used = false → b.size < blockSize n) →
      SbrkFails A (blockSize n) refuse s.toMemlib → Inv A t (payloads OVERHEAD bs) →
      MallocResult A s bs n refuse NULL t
  | extended {t : State} : CallsSbrk A n s →
      (∀ b ∈ bs, b.used = false → b.size < blockSize n) →
      ¬ SbrkFails A (blockSize n) refuse s.toMemlib →
      Inv A t (insert (s.memBrk + 8, blockSize n - 8) (payloads OVERHEAD bs)) →
      MallocResult A s bs n refuse (s.memBrk + 8) t
  | fitted {b : Block} {k : Nat} {t : State} : ¬ CallsSbrk A n s → b ∈ bs → b.used = false →
      blockSize n ≤ k → k ≤ b.size → t.memBrk = s.memBrk →
      Inv A t (insert (b.addr + 8, k - 8) (payloads OVERHEAD bs)) →
      MallocResult A s bs n refuse (b.addr + 8) t

/-- **`mm_malloc`** returns, and a payload that it returns is new. -/
theorem Shape.malloc (hA : A.Mapped) (h0 : Shape A s bs) (refuse : Bool) (hn : SizeOk n) :
    ∃ cs q t, TileHeap (A.heap + 8) cs s.memBrk ∧ (∀ b ∈ cs, 0 < b.size) ∧ NoAdjacent cs ∧
      SameUsed bs cs ∧ mmMalloc A n refuse s = some (q, t) ∧ MallocResult A s cs n refuse q t ∧
      KeepsBlocks A OVERHEAD (payloads OVERHEAD cs) s.toMemlib t.toMemlib ∧
      (q ≠ NULL → ∀ e ∈ payloads OVERHEAD cs, e.1 ≠ q) := by
  obtain ⟨hn16, hn32, hsize, -⟩ := blockSize_spec hn
  have hround : roundUp ((8 + n) % 2 ^ 64) ALIGNMENT = blockSize n := rfl
  obtain ⟨cs, c, hcoal, h, hno, hsame, hkeep0, hbrk0⟩ := coalesce_spec hA h0
  have htiles : TileHeap (A.heap + 8) cs s.memBrk := hbrk0 ▸ h.tiles
  -- coalescing has not touched the payloads, so `c` may stand for `s`
  have hkeepc : KeepsBlocks A OVERHEAD (payloads OVERHEAD cs) s.toMemlib c.toMemlib := by
    rw [← hsame.payloads_eq]
    exact hkeep0.keepsBlocks (hbrk0.symm ▸ h0.tiles) h0.overhead_le
  obtain ⟨q, t, hfind, hfit⟩ := findFit_spec h hn16 hn32
  cases hfit with
  | none hsmall =>
      have hcalls : CallsSbrk A n s := ⟨c, c, hcoal, hfind⟩
      have hsbrk : SbrkFails A (blockSize n) refuse c.toMemlib ↔
          SbrkFails A (blockSize n) refuse s.toMemlib := by simp only [SbrkFails, hbrk0]
      rcases memSbrk_cases A (blockSize n) refuse c.toMemlib with
        ⟨he, hfails⟩ | ⟨he, hfails, hle, hne⟩
      · refine ⟨cs, NULL, c, htiles, h.pos, hno, hsame, ?_,
          .refused hcalls hsmall (hsbrk.mp hfails) ⟨cs, h, rfl⟩, hkeepc, absurd rfl⟩
        rw [mmMalloc, hround]
        simp [hcoal, hfind, he]
      · obtain ⟨u, hrun, hinv, hnew, hm, hbrk⟩ := useNew_spec h hn16 hn32 hle
        have hkeepu := keepsBlocks_of_new h.tiles h.overhead_le hbrk hm
        rw [hbrk0] at hinv hnew
        refine ⟨cs, s.memBrk + 8, u, htiles, h.pos, hno, hsame, ?_,
          .extended hcalls hsmall (mt hsbrk.mpr hfails) hinv,
          hkeepc.trans hkeepu (by omega), fun _ => hnew⟩
        · rw [mmMalloc, hround]
          simp only [hcoal, hfind, he, hne, if_false, Option.bind_eq_bind, Option.bind_some,
            ne_eq, not_true_eq_false]
          split <;> simp_all
  | @found pre post rest b k t hbs hu hk hS hbrk hm0 =>
      subst hbs
      obtain ⟨u, hrun, hinv, hnew, hm, hbrk'⟩ := useFound_spec hu hk hS
      have hb : b ∈ pre ++ b :: post := by simp
      have hne : b.addr ≠ NULL := by
        have := h.bounds hb
        unfold NULL
        omega
      have hcalls : ¬ CallsSbrk A n s := by
        rintro ⟨c', t', hcoal', hfind'⟩
        rw [hcoal] at hcoal'
        obtain rfl := Option.some.inj hcoal'
        rw [hfind] at hfind'
        exact hne (congrArg Prod.fst (Option.some.inj hfind'))
      refine ⟨_, b.addr + 8, u, htiles, h.pos, hno, hsame, ?_, .fitted hcalls hb hu hk.bounds.1
        hk.bounds.2 ((hbrk'.trans hbrk).trans hbrk0) hinv, hkeepc.trans ?_ (by omega),
        fun _ => hnew⟩
      · obtain ⟨k', hk', hset⟩ := Option.bind_eq_some_iff.mp hrun
        rw [mmMalloc, hround]
        simp [hcoal, hfind, hne, hk', hset]
      · have htilesu : TileHeap (A.heap + 8) (pre ++ b :: post) u.memBrk :=
          (hbrk'.trans hbrk).symm ▸ h.tiles
        refine FreeOnly.keepsBlocks (fun i hi => ?_) htilesu h.overhead_le
        have hi' := hi b hb hu
        exact (hm i hi').trans (hm0 i hi')

/-- `mm_malloc` returns `NULL`, or a new payload with room for the request. -/
theorem mmMalloc_spec (hA : A.Mapped) (h : Inv A s U) (refuse : Bool) (hn : SizeOk n) :
    ∃ q t, mmMalloc A n refuse s = some (q, t) ∧
      KeepsBlocks A OVERHEAD U s.toMemlib t.toMemlib ∧
      ((q = NULL ∧ Inv A t U) ∨
        ∃ cap, n ≤ cap ∧ (∀ e ∈ U, e.1 ≠ q) ∧ Inv A t (insert (q, cap) U)) := by
  obtain ⟨bs, h, rfl⟩ := h
  obtain ⟨-, -, hsize, -⟩ := blockSize_spec hn
  obtain ⟨cs, q, t, -, -, -, hsame, hrun, hres, hpres, hnew⟩ := h.malloc hA refuse hn
  rw [hsame.payloads_eq]
  refine ⟨q, t, hrun, hpres, ?_⟩
  cases hres with
  | refused _ _ _ ht => exact Or.inl ⟨rfl, ht⟩
  | extended _ _ _ ht =>
      exact Or.inr ⟨blockSize n - 8, by omega, hnew (by unfold NULL; omega), ht⟩
  | @fitted b k _ _ _ _ hk _ _ ht =>
      exact Or.inr ⟨k - 8, by omega, hnew (by unfold NULL; omega), ht⟩

/-- **`mm_free`** gives up exactly one payload, and no byte of the heap. -/
theorem mmFree_spec (h : Inv A s U) {e : Nat × Nat} (he : e ∈ U) :
    ∃ t, mmFree A e.1 s = some t ∧ Inv A t (U \ {e}) ∧
      KeepsBlocks A OVERHEAD (U \ {e}) s.toMemlib t.toMemlib ∧ t.memBrk = s.memBrk := by
  obtain ⟨bs, h, rfl⟩ := h
  obtain ⟨b, hb, hu, rfl⟩ := he
  obtain ⟨pre, post, rfl⟩ := List.append_of_mem hb
  obtain ⟨hrun, hS⟩ := h.setUsed false
  have hpay : payloads OVERHEAD (pre ++ b :: post) \ {b.payload OVERHEAD} =
      payloads OVERHEAD (pre ++ ⟨b.addr, b.size, false⟩ :: post) := by
    rw [payloads_diff h.tiles h.pos hu, payloads_free (b := ⟨b.addr, b.size, false⟩) rfl]
  refine ⟨_, ?_, ⟨_, hS, hpay⟩, ?_, rfl⟩
  · have hne : b.addr + 8 ≠ NULL := by unfold NULL; omega
    simp [mmFree, Block.payload, hne, h.getSize_mem hb, hrun]
  · rw [hpay]
    refine FreeOnly.keepsBlocks (fun i hi => tagMem_other ?_) hS.tiles hS.overhead_le
    have := hi ⟨b.addr, b.size, false⟩ (by simp) rfl
    have := (h.sizes b hb).2
    unfold Block.Contains at *
    dsimp only at *
    omega

/-- A client's write into its payload keeps the invariant. -/
theorem Inv.write (h : Inv A s U) {e : Nat × Nat} (he : e ∈ U) {m : Mem}
    (hm : ∀ i, i < e.1 ∨ e.1 + e.2 ≤ i → m i = s.mem i) : Inv A { s with mem := m } U := by
  obtain ⟨bs, h, rfl⟩ := h
  obtain ⟨b, hb, hu, rfl⟩ := he
  have hbs := h.sizes b hb
  refine ⟨bs, ⟨h.brk_le, h.tiles, h.sizes, h.first_eq, h.last_null, h.le_last, h.last_lt,
    fun c hc => ?_⟩, rfl⟩
  have hcs := h.sizes c hc
  rw [← h.tagged c hc]
  refine load64_congr fun i h1 h2 => hm i ?_
  simp only [Block.payload, OVERHEAD]
  by_cases hcb : c = b
  · subst hcb
    omega
  · have := h.tiles.apart hc hb hcb
    omega

/-- All but reallocation. -/
theorem basicContract (hA : A.Mapped) : BasicContract A (allocator A) SizeOk (Inv A) where
  init := by
    intro r s t hbrk ht
    exact ⟨[], mmInit_spec hbrk ht, by simp⟩
  brk_le := by
    rintro s U ⟨bs, h, -⟩
    exact h.brk_le
  placed := by
    rintro s U ⟨bs, h, rfl⟩ e he
    have hheap := A.heap_aligned
    have hpos := A.heap_pos
    obtain ⟨h1, h2, h3⟩ := payloads_placed h.tiles
      (fun b hb => ⟨(h.sizes b hb).1, by have := h.sizes b hb; unfold OVERHEAD; omega⟩)
      (by unfold ALIGNMENT at hheap; omega) (by decide) e he
    exact ⟨by unfold NULL; omega, h1, by omega, h3⟩
  apart := by
    rintro s U ⟨bs, h, rfl⟩
    exact payloads_apart h.tiles
      (fun b hb => by have := h.sizes b hb; unfold OVERHEAD; omega) (by decide)
  lib_withMem := fun _ _ => rfl
  write := fun s U h e he m hm => h.write he hm
  malloc := by
    intro s U h n r hn
    obtain ⟨q, t, hrun, hkeep, hres⟩ := mmMalloc_spec hA h r hn
    exact ⟨q, t, hrun, hkeep.preserves (by decide), hres⟩
  free_null := fun s => rfl
  free := by
    intro s U h e he
    obtain ⟨t, hrun, hinv, hkeep, -⟩ := mmFree_spec h he
    exact ⟨t, hrun, hinv, hkeep.preserves (by decide)⟩

/-- The header of a payload in use gives its capacity. -/
theorem Inv.getSize_payload (h : Inv A s U) {e : Nat × Nat} (he : e ∈ U) :
    ∃ k, getSize A (e.1 - 8) s = some k ∧ k - 8 = e.2 ∧ k % 16 = 0 ∧ 16 ≤ k := by
  obtain ⟨bs, h, rfl⟩ := h
  obtain ⟨b, hb, hu, rfl⟩ := he
  have hbs := h.sizes b hb
  exact ⟨b.size, h.getSize_mem hb, rfl, hbs.1, hbs.2⟩

/-- `mm_realloc` of a payload keeps a block that is large enough, and otherwise moves. -/
theorem mmRealloc_eq (hA : A.Mapped) (h : Inv A s U) {e : Nat × Nat} (he : e ∈ U)
    (refuse : Bool) (hn : SizeOk n) (hn0 : n ≠ 0) :
    mmRealloc A e.1 n refuse s =
      if blockSize n ≤ e.2 + 8 then some (e.1, s)
      else (allocator A).move A e.1 n e.2 refuse s := by
  have C := basicContract hA
  obtain ⟨k, hk, hcap, hk16, hk32⟩ := h.getSize_payload he
  have hne : e.1 ≠ NULL := (C.placed s U h e he).1
  have hround : roundUp ((8 + n) % 2 ^ 64) ALIGNMENT = blockSize n := rfl
  obtain rfl : k = e.2 + 8 := by omega
  by_cases hfit : blockSize n ≤ e.2 + 8
  · simp only [mmRealloc, hne, hn0, if_false, hk, hround, Option.bind_eq_bind, Option.bind_some,
      hfit, if_true]
  · obtain ⟨p, u, hmalloc, -, hres⟩ := mmMalloc_spec hA h refuse hn
    simp only [mmRealloc, hne, hn0, if_false, hk, hround, Option.bind_eq_bind, Option.bind_some,
      hfit, hmalloc, Allocator.move, allocator]
    rcases hres with ⟨rfl, -⟩ | ⟨cap, -, hnew, hu⟩
    · simp
    · -- the old header is as it was, and the new block's payload is the new one
      obtain ⟨k', hk', hcap', -, hk32'⟩ := hu.getSize_payload (Or.inr he)
      have hp := C.placed u _ hu _ (Or.inl rfl)
      have hp8 : p - 8 + 8 = p := by
        have := A.heap_aligned
        have := A.heap_pos
        unfold ALIGNMENT at *
        dsimp only at hp
        omega
      simp only [hp.1, hk', hcap', hp8, if_false, Option.bind_some]
      unfold memcpy
      split <;> rfl

/-- **`mm_realloc`** of a payload stays in place or moves. -/
theorem mmRealloc_spec (hA : A.Mapped) (h : Inv A s U) {e : Nat × Nat} (he : e ∈ U)
    (refuse : Bool) (hn : SizeOk n) (hn0 : n ≠ 0) :
    ∃ q t, mmRealloc A e.1 n refuse s = some (q, t) ∧
      ((q = e.1 ∧ n ≤ e.2 ∧ Inv A t U ∧ Preserves U s.mem t.mem) ∨
        Moved (allocator A) (Inv A) U e n s q t) := by
  have C := basicContract hA
  obtain ⟨hn16, hn32, hsize, hsize'⟩ := blockSize_spec hn
  obtain ⟨k, -, hcap, hk16, -⟩ := h.getSize_payload he
  rw [mmRealloc_eq hA h he refuse hn hn0]
  by_cases hfit : blockSize n ≤ e.2 + 8
  · exact ⟨e.1, s, if_pos hfit, Or.inl ⟨rfl, by omega, h, fun _ _ _ _ => rfl⟩⟩
  · obtain ⟨q, t, hrun, hmoved⟩ := C.move h he refuse hn (by omega)
    exact ⟨q, t, by rw [if_neg hfit, hrun], Or.inr hmoved⟩

/-- **The implicit allocator keeps its contract** for all sizes that do not overflow. -/
theorem sizeContract (hA : A.Mapped) : Contract A (allocator A) SizeOk (Inv A) where
  toBasicContract := basicContract hA
  realloc_null := fun s n r => rfl
  realloc_zero := by
    intro s p r hp
    simp only [allocator, mmRealloc, hp, if_false, if_true]
    cases mmFree A p s <;> rfl
  realloc := fun s U h e he n r hn hn0 => mmRealloc_spec hA h he r hn hn0

/-- **The implicit allocator keeps the contract.** -/
theorem contract (hA : A.Mapped) : Contract A (allocator A) RequestOk (Inv A) :=
  (sizeContract hA).mono fun _ hn => hn.sizeOk

/-- **Every reachable client is served**, and the traversals in a reachable heap
visit exactly the blocks that tile it. -/
theorem served_and_traversed {c : Client State} (hA : A.Mapped)
    (h : Reachable A (allocator A) RequestOk c) :
    Served A (allocator A) RequestOk c ∧ ∃ bs, Shape A c.heap bs ∧
      traversal A (c.heap.memBrk + 1) c.heap.mmHeapFirst c.heap = some (bs.map Block.addr) := by
  obtain ⟨U, ⟨bs, hS, -⟩, -⟩ := (contract hA).reachable_inv h
  exact ⟨(contract hA).served h, bs, hS, traversal_spec hS⟩

/-- The statics before `mm_init`, over zeroed memory. -/
def resetState : State := ⟨⟨fun _ => 0, 4096⟩, NULL, NULL⟩

/-- A heap with one block of 32 bytes, in use. -/
def oneBlock : State := ⟨⟨tagMem (fun _ => 0) 4104 32 true, 4136⟩, 4104, 4104⟩

/-- `mm_init(); mm_malloc(24)` leads there. -/
theorem reachable_oneBlock :
    Reachable lowArena (allocator lowArena) RequestOk ⟨oneBlock, [(4112, 24)]⟩ := by
  have hinit : mmInit lowArena false resetState = (true, ⟨⟨fun _ => 0, 4104⟩, NULL, NULL⟩) := by
    simp [mmInit, memSbrk, resetState, lowArena, Arena.mapped, ALIGNMENT, MAX_HEAP, SBRK_FAILED]
  have hstart : Starts lowArena (allocator lowArena) ⟨⟨⟨fun _ => 0, 4104⟩, NULL, NULL⟩, []⟩ := by
    refine ⟨resetState, false, rfl, ?_, rfl⟩
    simp only [allocator]
    exact hinit
  have hallowed : Allowed RequestOk [] (.malloc 24) :=
    ⟨Or.inl rfl, fun n hn => by obtain rfl := Option.some.inj hn; decide⟩
  have hsize : roundUp 32 ALIGNMENT = 32 := by decide
  have hbrk : memSbrk lowArena 32 false ⟨fun _ => 0, 4104⟩ = (4104, ⟨fun _ => 0, 4136⟩) := by
    simp [memSbrk, lowArena, Arena.mapped, MAX_HEAP]
  have hset : setHeader lowArena 4104 32 true ⟨⟨fun _ => 0, 4136⟩, 4104, 4104⟩ =
      some oneBlock := setHeader_eq (by decide) (by decide) (by decide)
  have hrun : (allocator lowArena).run (.malloc 24) false ⟨⟨fun _ => 0, 4104⟩, NULL, NULL⟩ =
      some (4112, oneBlock) := by
    simp [Allocator.run, allocator, mmMalloc, coalesce, coalesceFrom, hsize, findFit,
      findFitFrom, hbrk, SBRK_FAILED, hset, oneBlock]
  have hstep : Moves (allocator lowArena) RequestOk ⟨⟨⟨fun _ => 0, 4104⟩, NULL, NULL⟩, []⟩
      ⟨oneBlock, liveAfter [] (.malloc 24) 4112⟩ := .call hallowed hrun
  have hlive : liveAfter [] (.malloc 24) 4112 = [(4112, 24)] := by decide
  rw [hlive] at hstep
  exact .step (.init hstart) hstep

/-- The heap with the block given back. -/
def freedBlock : State := (mmFree lowArena 4112 oneBlock).getD oneBlock

/-- `mm_free` leads there. -/
theorem reachable_freedBlock : Reachable lowArena (allocator lowArena) RequestOk ⟨freedBlock, []⟩ := by
  have hallowed : Allowed RequestOk [(4112, 24)] (.free 4112) :=
    ⟨Or.inr ⟨24, List.mem_singleton.mpr rfl⟩, fun n hn => by cases hn⟩
  have hsome : (mmFree lowArena 4112 oneBlock).isSome = true := by decide +kernel
  obtain ⟨s, hfree⟩ := Option.isSome_iff_exists.mp hsome
  have hrun : (allocator lowArena).run (.free 4112) false oneBlock = some (NULL, freedBlock) := by
    rw [freedBlock, hfree]
    exact congrArg (Option.map fun s => (NULL, s)) hfree
  have hstep : Moves (allocator lowArena) RequestOk ⟨oneBlock, [(4112, 24)]⟩
      ⟨freedBlock, liveAfter [(4112, 24)] (.free 4112) NULL⟩ := .call hallowed hrun
  have hlive : liveAfter [(4112, 24)] (.free 4112) NULL = [] := by decide
  rw [hlive] at hstep
  exact .step reachable_oneBlock hstep

/-- A heap of one block, which is in use. -/
theorem served_and_traversed_oneBlock :
    Served lowArena (allocator lowArena) RequestOk ⟨oneBlock, [(4112, 24)]⟩ ∧
      ∃ bs, Shape lowArena oneBlock bs ∧
        traversal lowArena (oneBlock.memBrk + 1) oneBlock.mmHeapFirst oneBlock =
          some (bs.map Block.addr) :=
  served_and_traversed (Arena.mapped_mapped _ _ _) reachable_oneBlock

end Malloc.Implicit
