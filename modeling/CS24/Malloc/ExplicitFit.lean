import CS24.Malloc.ExplicitHeap

/-!
# `find_fit` of the explicit allocator

The search always ends, because the free list is shorter than the heap.  It
either finds every free block too small, or takes a free block off the list,
whole or split in two; the rest of a split block goes back on the list.
-/

namespace Malloc.Explicit

open Bytes Links Tiling

variable {A : Arena} {least : Nat} {s : State} {bs pre post : List Block} {fl before after : List Nat}
  {b : Block} {n : Nat}

/-- The result of `find_fit`: nothing, when every free block is too small; or a
free block, off the list, with the rest of it back on the list. -/
inductive FitResult (A : Arena) (least : Nat) (s : State) (bs : List Block) (n : Nat) :
    Nat → State → Prop
  | none : (∀ b ∈ bs, b.used = false → b.size < n) → FitResult A least s bs n NULL s
  | found {pre post rest : List Block} {b : Block} {k : Nat} {t : State} {fl : List Nat} :
      bs = pre ++ b :: post → b.used = false → Taken minBlockSize n b k rest →
      Layout A least t (pre ++ ⟨b.addr, k, false⟩ :: (rest ++ post)) fl → b.addr ∉ fl →
      (∀ c ∈ pre ++ (rest ++ post), c.used = false → c.addr ∈ fl) →
      t.memBrk = s.memBrk → FreeOnly s.mem t.mem bs → FitResult A least s bs n b.addr t

theorem minBlockSize_eq : minBlockSize = 32 := by decide

/-- Bytes of a free block may be said to belong to a larger free block. -/
theorem FreeOnly.of_inside {m m' : Mem} (hb : b ∈ bs) (hu : b.used = false)
    (h : ∀ i, ¬ b.Contains i → m' i = m i) : FreeOnly m m' bs :=
  fun i hi => h i (hi b hb hu)

theorem splitFit_spec (h : Layout A least s (pre ++ b :: post) (before ++ b.addr :: after))
    (hu : b.used = false) (hn16 : n % 16 = 0) (hn : 32 ≤ n) (hfit : n + 32 ≤ b.size) :
    ∃ t, splitFit A b.addr b.size n s = some t ∧
      Layout A least t (pre ++ ⟨b.addr, n, false⟩ :: ⟨b.addr + n, b.size - n, false⟩ :: post)
        ((b.addr + n) :: (before ++ after)) ∧
      t.memBrk = s.memBrk ∧ FreeOnly s.mem t.mem (pre ++ b :: post) := by
  obtain ⟨hrun1, hrun2, hshape, hout⟩ := h.split hu hn16 hn hfit
  obtain ⟨m3, hrun3, hshape3, hm3⟩ := hshape.removeNode
  have hnxt : (⟨b.addr + n, b.size - n, false⟩ : Block) ∈
      pre ++ ⟨b.addr, n, false⟩ :: ⟨b.addr + n, b.size - n, false⟩ :: post := by simp
  -- the rest of the block is not a block of the old heap, so it is not listed
  have hnew : b.addr + n ∉ before ++ after := by
    intro hmem
    obtain ⟨c, hc, haddr, -, hcs⟩ := h.free_of_mem (b.addr + n) (by simp at hmem ⊢; tauto)
    have hne : c ≠ b := fun he => by rw [he] at haddr; omega
    have := h.tiles.apart hc (c := b) (by simp) hne
    omega
  obtain ⟨m4, hrun4, hshape4, hm4⟩ := hshape3.addNode hnxt rfl (by dsimp only; omega) hnew
  have hsub : ∀ c ∈ pre ++ ⟨b.addr, n, false⟩ :: ⟨b.addr + n, b.size - n, false⟩ :: post,
      c.used = false → ∀ i, c.Contains i →
        ∃ d ∈ pre ++ b :: post, d.used = false ∧ d.Contains i := by
    intro c hc huc i hi
    simp only [List.mem_append, List.mem_cons] at hc
    rcases hc with hc | rfl | rfl | hc
    · exact ⟨c, by simp [hc], huc, hi⟩
    · exact ⟨b, by simp, hu, hi.1, by have := hi.2; dsimp only at this; omega⟩
    · exact ⟨b, by simp, hu, by have := hi.1; dsimp only at this; omega,
        by have := hi.2; dsimp only at this; omega⟩
    · exact ⟨c, by simp [hc], huc, hi⟩
  refine ⟨_, ?_, hshape4, rfl, ?_⟩
  · simp only [splitFit, hrun1, hrun2, Option.bind_eq_bind, Option.bind_some]
    split <;> simp_all
  · have hsplit : FreeOnly s.mem _ (pre ++ b :: post) :=
      FreeOnly.of_inside (by simp) hu hout
    exact hsplit.trans ((hm3.trans hm4).mono hsub)

theorem takeFit_spec {x : Nat} (h : Layout A least s bs (before ++ x :: after)) :
    ∃ t, takeFit A x s = some t ∧ Layout A least t bs (before ++ after) ∧
      t.memBrk = s.memBrk ∧ FreeOnly s.mem t.mem bs := by
  have hx := h.list_nodeIn (x := x) (by simp)
  have hright : rightOf s.mem x = first NULL after := h.list.links.right_mid
  have hbrk := h.brk_le
  have hsub : (before ++ after).Sublist (before ++ x :: after) := by simp
  rcases List.eq_nil_or_concat before with rfl | ⟨before, y, rfl⟩
  · -- the new head keeps its stale `left`
    have hhead : s.freeListFirst = x := h.list.head_eq
    refine ⟨{ s with freeListFirst := first NULL after }, ?_, ?_, rfl, FreeOnly.refl _ _⟩
    · have hr : right A s.freeListFirst s = some (first NULL after) := by
        rw [hhead, ← hright]
        exact right_eq hbrk hx
      simp [takeFit, ← hhead, hr]
    · exact ⟨h.least_ok, h.brk_le, h.tiles, h.sizes, h.first_eq, h.last_eq, h.tagged,
        ⟨rfl, (threaded_cons.mp h.list.links).2.2⟩, h.nodup.sublist hsub,
        fun a ha => h.free_of_mem a (hsub.subset ha)⟩
  · simp only [List.concat_eq_append, List.append_assoc, List.singleton_append] at *
    have hy := h.list_nodeIn (x := y) (by simp)
    have hleft : leftOf s.mem x = y := h.list.links.left_mid
    have hyx : Far y x := h.spaced.far_others (by simp)
    have hne : x ≠ s.freeListFirst := by
      rw [h.list.head_eq]
      have hnd := h.nodup
      cases before with
      | nil => unfold Far at hyx; simp; omega
      | cons z before => simp at hnd ⊢; grind
    have hm : ∀ i, ¬ LinkArea (before ++ y :: x :: after) i →
        cutMem s.mem y (first NULL after) i = s.mem i :=
      fun i hi => cutMem_other (by simp) (fun z hz => by simp [hz]) hi
    have hlist := cutMem_freeList hbrk h.list h.spaced (fun z hz => h.list_nodeIn hz)
    refine ⟨{ s with mem := cutMem s.mem y (first NULL after) }, ?_, ?_, rfl, ?_⟩
    · have hleft1 : leftOf (store64 s.mem (y + 16) (first NULL after)) x = y := by
        rw [leftOf_setRight (Or.inr hyx), hleft]
      have hright1 : rightOf (store64 s.mem (y + 16) (first NULL after)) x = first NULL after := by
        rw [rightOf_setRight_far hyx, hright]
      have hf : after ≠ [] → NodeIn A s.memBrk (first NULL after) := by
        intro hne
        obtain ⟨f, after, rfl⟩ := List.exists_cons_of_ne_nil hne
        exact h.list_nodeIn (x := f) (by simp)
      obtain ⟨⟨mem, brk⟩, hf', hl, free⟩ := s
      dsimp only at *
      cases after with
      | nil =>
          simp only [first_nil] at hright hright1
          simp [takeFit, hne, left_eq hbrk hx, hleft, right_eq hbrk hx, hright,
            setRight_eq hbrk hy, hright1, cutMem]
      | cons f after =>
          have hf := hf (by simp)
          simp only [first_cons] at hright hright1 hleft1 hf
          simp [takeFit, hne, left_eq hbrk hx, hleft, right_eq hbrk hx, hright,
            setRight_eq hbrk hy, hright1, hleft1, cutMem, hf.ne_null, setLeft_eq hbrk hf]
    · exact ⟨h.least_ok, h.brk_le, h.tiles, h.sizes, h.first_eq, h.last_eq,
        h.tagged_of_links h.free_of_mem hm, hlist, h.nodup.sublist hsub,
        fun a ha => h.free_of_mem a (hsub.subset ha)⟩
    · exact freeOnly_of_links h.free_of_mem hm

/-- Without duplicates below the break, the list is shorter than the heap. -/
theorem Layout.length_lt {fl : List Nat} (h : Layout A least s bs fl) : fl.length < s.memBrk + 1 := by
  have hsub : fl ⊆ List.range s.memBrk := by
    intro x hx
    have := (h.list_nodeIn hx).le_brk
    simp
    omega
  have := (h.nodup.subperm hsub).length_le
  simp at this
  omega

/-- The free blocks other than `b` are listed elsewhere. -/
theorem Settled.mem_others (h : Settled A least s (pre ++ b :: post)
    (before ++ b.addr :: after)) {c : Block} (hc : c ∈ pre ++ post) (hu : c.used = false) :
    c.addr ∈ before ++ after := by
  have hne := h.tiles.addr_ne h.pos hc
  have := h.mem_of_free c (by simp at hc ⊢; tauto) hu
  simp at this ⊢
  tauto

/-- The block at the head of the list may be split for a request of `n` bytes only
if both parts have room for links. -/
def SplitOk (n : Nat) (bs : List Block) (fl : List Nat) : Prop :=
  ∀ b ∈ bs, fl.head? = some b.addr → n + 32 ≤ b.size → 32 ≤ n

/-- The loop of `find_fit`, by induction on the nodes still to be visited.  A
short request is served by the first of them. -/
theorem findFitFrom_spec (h : Settled A least s bs (before ++ after)) (hn16 : n % 16 = 0)
    (hok : SplitOk n bs after) (hsmall : ∀ b ∈ bs, b.addr ∈ before → b.size < n) {fuel : Nat}
    (hfuel : after.length < fuel) :
    ∃ q t, findFitFrom A n fuel (first NULL after) s = some (q, t) ∧
      FitResult A least s bs n q t := by
  induction after generalizing before fuel with
  | nil =>
      obtain ⟨fuel, rfl⟩ : ∃ k, fuel = k + 1 := ⟨fuel - 1, by simp at hfuel; omega⟩
      refine ⟨NULL, s, by simp [findFitFrom], .none fun b hb hu => hsmall b hb ?_⟩
      simpa using h.mem_of_free b hb hu
  | cons x after ih =>
      obtain ⟨fuel, rfl⟩ : ∃ k, fuel = k + 1 := ⟨fuel - 1, by simp at hfuel; omega⟩
      obtain ⟨b, hb, rfl, hu, hb32⟩ := h.free_of_mem x (by simp)
      have hnode := h.nodeIn hb hb32
      have hbs := h.size_ge hb
      have hbnd := h.bounds hb
      have hsize : getSize A b.addr s = some b.size :=
        getSize_eq h.brk_le (h.tagged b hb) (by omega) hbnd.2 (by omega) (by omega)
      have hright : right A b.addr s = some (first NULL after) := by
        rw [← h.list.links.right_mid]
        exact right_eq h.brk_le hnode
      have hnd := h.nodup
      by_cases hfit : n ≤ b.size
      · obtain ⟨pre, post, rfl⟩ := List.append_of_mem hb
        have hout : b.addr ∉ before ++ after := by
          have := (List.nodup_middle.mp hnd)
          exact (List.nodup_cons.mp this).1
        by_cases hsplit : minBlockSize ≤ b.size - n
        · rw [minBlockSize_eq] at hsplit
          have hn : 32 ≤ n := hok b hb rfl (by omega)
          obtain ⟨t, hrun, ht, hbrk, hfree⟩ := splitFit_spec h.toLayout hu hn16 hn (by omega)
          have htaken : Taken minBlockSize n b n [⟨b.addr + n, b.size - n, false⟩] :=
            Or.inr ⟨rfl, rfl, by rw [minBlockSize_eq]; omega⟩
          refine ⟨b.addr, t, ?_, .found rfl hu htaken ht ?_ ?_ hbrk hfree⟩
          · simp [findFitFrom, hnode.ne_null, hsize, hfit, minBlockSize_eq, hsplit, hrun]
          · simp only [List.mem_cons, not_or]
            exact ⟨by omega, hout⟩
          · intro c hc huc
            simp only [List.mem_append, List.mem_singleton] at hc
            rcases hc with hc | rfl | hc
            · exact List.mem_cons_of_mem _ (h.mem_others (by simp [hc]) huc)
            · simp
            · exact List.mem_cons_of_mem _ (h.mem_others (by simp [hc]) huc)
        · rw [minBlockSize_eq] at hsplit
          obtain ⟨t, hrun, ht, hbrk, hfree⟩ := takeFit_spec h.toLayout
          have hb' : b = ⟨b.addr, b.size, false⟩ := by rw [← hu]
          have htaken : Taken minBlockSize n b b.size [] :=
            Or.inl ⟨rfl, rfl, hfit, by rw [minBlockSize_eq]; omega⟩
          refine ⟨b.addr, t, ?_, .found rfl hu htaken (hb' ▸ ht) hout
            (fun c hc => h.mem_others hc) hbrk hfree⟩
          simp [findFitFrom, hnode.ne_null, hsize, hfit, minBlockSize_eq, hsplit, hrun]
      · have hstep : findFitFrom A n (fuel + 1) b.addr s =
            findFitFrom A n fuel (first NULL after) s := by
          simp [findFitFrom, hnode.ne_null, hsize, hfit, hright]
        rw [first_cons, hstep]
        have hnext : Settled A least s bs ((before ++ [b.addr]) ++ after) := by simpa using h
        have hnextOk : SplitOk n bs after := fun _ _ _ _ => by omega
        refine ih hnext hnextOk (fun c hc hcm => ?_) (by simpa using hfuel)
        rcases List.mem_append.mp hcm with hcm | hcm
        · exact hsmall c hc hcm
        · rw [h.eq_of_addr hc hb (by simpa using hcm)]
          omega

/-- **`find_fit`** ends, on every heap that satisfies the invariant. -/
theorem findFit_spec (h : Settled A least s bs fl) (hn16 : n % 16 = 0) (hok : SplitOk n bs fl) :
    ∃ q t, findFit A n s = some (q, t) ∧ FitResult A least s bs n q t := by
  have hall : Settled A least s bs ([] ++ fl) := h
  have := findFitFrom_spec hall hn16 hok (by simp) h.length_lt
  rwa [← h.list.head_eq] at this

end Malloc.Explicit
