import CS24.Malloc.ExplicitZero
import CS24.Malloc.Reuse

/-!
# When `mm_calloc` keeps its promise

`mm_calloc` takes the product of its arguments modulo `2 ^ 64` and clears the
payload without a look at the pointer.  So it goes wrong when the product wraps
to a positive number, and when `mm_malloc` returns `NULL`; in all other calls it
does what it should.
-/

namespace Malloc

open Bytes Tiling System

/-- A block of `need` bytes can be had: the heap has a run of free bytes of that size, or
`mem_sbrk` does not fail. -/
def Servable (A : Arena) (need : Nat) (refuse : Bool) (lib : Memlib) : Prop :=
  (∃ bs lo hi, heapBlocks A lib = some bs ∧ FreeRun bs lo hi ∧ need ≤ hi - lo) ∨
    ¬ SbrkFails A need refuse lib

variable {σ : Type}

/-- What `mm_calloc` owes: it returns; no live payload changes; it returns `NULL` when the
product is zero, does not fit in `size_t` or cannot be served; and otherwise a payload of
as many bytes as the product, in the heap, all zero and apart from the live ones. -/
structure CallocOk (A : Arena) (M : Allocator σ) (blockSize : Nat → Nat) (live : Live)
    (nmemb size : Nat) (refuse : Bool) (s : σ) (q : Nat) (t : σ) : Prop where
  returns : M.calloc A nmemb size refuse s = some (q, t)
  frame : ∀ e ∈ live, SameBytes (M.lib s).mem (M.lib t).mem e
  null : nmemb * size = 0 ∨ SIZE_MAX < nmemb * size ∨
    ¬ Servable A (blockSize (nmemb * size)) refuse (M.lib s) → q = NULL
  payload : q ≠ NULL → A.heap ≤ q ∧ q + nmemb * size ≤ (M.lib t).memBrk ∧
    (∀ i < nmemb * size, (M.lib t).mem (q + i) = 0) ∧
    ∀ e ∈ live, Apart q (nmemb * size) e.1 e.2

/-- The condition: the product wraps to zero, or it is in range and can be served. -/
def CallocCondition (A : Arena) (blockSize : Nat → Nat) (nmemb size : Nat) (refuse : Bool)
    (lib : Memlib) : Prop :=
  nmemb * size % 2 ^ 64 = 0 ∨
    (nmemb * size ≤ SIZE_MAX - 31 ∧ Servable A (blockSize (nmemb * size)) refuse lib)

/-- What `mm_malloc` does for a request that it may refuse. -/
structure MallocOk (A : Arena) (M : Allocator σ) (need : Nat) (live : Live) (n : Nat)
    (refuse : Bool) (s : σ) (q : Nat) (t : σ) : Prop where
  returns : M.malloc n refuse s = some (q, t)
  null_iff : q = NULL ↔ ¬ Servable A need refuse (M.lib s)
  frame : ∀ e ∈ live, SameBytes (M.lib s).mem (M.lib t).mem e
  brk_le : (M.lib t).memBrk ≤ A.heap + MAX_HEAP
  payload : q ≠ NULL → A.heap ≤ q ∧ q + n ≤ (M.lib t).memBrk ∧ ∀ e ∈ live, Apart q n e.1 e.2

variable {A : Arena} {M : Allocator σ} {blockSize : Nat → Nat} {live : Live}
  {nmemb size q n cap : Nat} {r : Bool} {s t : σ} {U : Payloads}

/-- **`mm_calloc` over a sound `mm_malloc`** keeps its promise exactly under the condition,
on a machine where nothing behind the arena can be accessed. -/
theorem callocOk_iff (hM : M.Lawful) (hA : ∀ brk, A.limit brk ≤ A.heap + MAX_HEAP)
    (hmalloc : ∀ n, 1 ≤ n → n ≤ SIZE_MAX - 31 →
      ∃ q t, MallocOk A M (blockSize n) live n r s q t) :
    (∃ q t, CallocOk A M blockSize live nmemb size r s q t) ↔
      CallocCondition A blockSize nmemb size r (M.lib s) := by
  constructor
  · rintro ⟨q, t, h⟩
    by_cases h0 : nmemb * size % 2 ^ 64 = 0
    · exact Or.inl h0
    · obtain ⟨u, -, hq, hacc, -⟩ := calloc_some h.returns h0
      have hnull := mt h.null hq
      simp only [not_or, not_not, Nat.not_lt] at hnull
      obtain ⟨-, hmax, hserve⟩ := hnull
      -- the payload that was cleared fits in the arena
      have hend := hacc.2.trans (hA _)
      have hlow := A.heap_low
      refine Or.inr ⟨?_, hserve⟩
      unfold SIZE_MAX at hmax ⊢
      omega
  · intro h
    by_cases h0 : nmemb * size % 2 ^ 64 = 0
    · exact ⟨NULL, s, calloc_zero h0, fun _ _ _ _ => rfl, fun _ => rfl, absurd rfl⟩
    · obtain ⟨hmax, hserve⟩ := h.resolve_left h0
      have hmod : nmemb * size % 2 ^ 64 = nmemb * size := by
        unfold SIZE_MAX at hmax
        omega
      have hpos : 1 ≤ nmemb * size := by omega
      obtain ⟨q, u, hok⟩ := hmalloc _ hpos hmax
      have hq : q ≠ NULL := fun hq => hok.null_iff.mp hq hserve
      obtain ⟨hlo, hhi, hapart⟩ := hok.payload hq
      have hacc : Accessible A q (nmemb * size) (M.lib u) :=
        accessible_of_le_brk hok.brk_le hlo hhi
      refine ⟨q, M.withMem u (fill (M.lib u).mem q 0 (nmemb * size)), ?_, fun e he i hi => ?_,
        fun hn => ?_, fun _ => ⟨hlo, ?_, fun i hi => ?_, hapart⟩⟩
      · have hset : memset A q 0 (nmemb * size) (M.lib u) =
            some { M.lib u with mem := fill (M.lib u).mem q 0 (nmemb * size) } :=
          if_pos (Or.inr hacc)
        have hne : nmemb * size ≠ 0 := by omega
        simp only [Allocator.calloc, hmod, hne, if_false, hok.returns, hset,
          Option.bind_eq_bind, Option.bind_some]
      · rw [hM.lib_withMem]
        have hap := hapart e he
        unfold Apart at hap
        exact (fill_other (by omega)).trans (hok.frame e he i hi)
      · unfold SIZE_MAX at hmax hn
        rcases hn with hn | hn | hn
        · omega
        · omega
        · exact absurd hserve hn
      · rwa [hM.lib_withMem]
      · rw [hM.lib_withMem]
        exact fill_inside (by omega) (by omega)

/-- A new payload lies apart from the live ones. -/
theorem apart_of_new (hl : Covers U live) (hn : n ≤ cap) (hnew : ∀ e ∈ U, e.1 ≠ q)
    (hapart : ∀ e ∈ insert (q, cap) U, ∀ f ∈ insert (q, cap) U,
      e = f ∨ (e.1 ≠ f.1 ∧ Apart e.1 e.2 f.1 f.2)) : ∀ e ∈ live, Apart q n e.1 e.2 := by
  intro e he
  obtain ⟨c, hc, hU⟩ := hl.cap e he
  rcases hapart _ (Or.inl rfl) _ (Or.inr hU) with heq | ⟨-, hap⟩
  · exact absurd (congrArg Prod.fst heq).symm (hnew _ hU)
  · unfold Apart at hap ⊢
    dsimp only at hap
    omega

theorem servable_of_run {need lo hi : Nat} {lib : Memlib} {bs : List Block}
    (hbs : heapBlocks A lib = some bs) (hrun : FreeRun bs lo hi) (hle : need ≤ hi - lo) :
    Servable A need r lib := Or.inl ⟨bs, lo, hi, hbs, hrun, hle⟩

theorem not_servable {need : Nat} {lib : Memlib} {bs : List Block}
    (hbs : heapBlocks A lib = some bs) (hsmall : ∀ lo hi, FreeRun bs lo hi → hi - lo < need)
    (hfails : SbrkFails A need r lib) : ¬ Servable A need r lib := by
  rintro (⟨cs, lo, hi, hcs, hrun, hle⟩ | hnot)
  · obtain rfl : bs = cs := Option.some.inj (hbs.symm.trans hcs)
    have := hsmall lo hi hrun
    omega
  · exact hnot hfails

/-- The explicit `mm_malloc` in a heap that is in order. -/
theorem Explicit.Holds.mallocOk {s : Explicit.State} (h : Explicit.Holds A 16 s U)
    (hl : Covers U live) (hn : 1 ≤ n) (hmax : n ≤ SIZE_MAX - 31) :
    ∃ q t, MallocOk A (Explicit.allocator A) (Explicit.blockSize n) live n r s q t := by
  obtain ⟨bs, fl, hs, rfl⟩ := h
  have hn0 : n ≠ 0 := by omega
  obtain ⟨-, hsize, -⟩ := Explicit.blockSize_spec hmax
  obtain ⟨q, t, hrun, hres, hkeep, hnew⟩ := hs.malloc r hmax (absurd · hn0) (absurd · hn0)
  have hframe := Contract.sameBytes_live hl (hkeep.preserves (by decide))
  have hsame := SameUsed.refl bs
  have hruns := @freeRun_lt _ _ (Explicit.blockSize n) _ _ hsame hs.tiles hs.tiles hs.pos
    hs.no_adjacent
  -- what is returned besides `NULL` is a payload of the new heap
  have hpayload {cap : Nat} (hcap : n ≤ cap) (hq : q ≠ NULL)
      (ht : Explicit.Holds A 16 t (insert (q, cap) (payloads Explicit.OVERHEAD bs))) :
      A.heap ≤ q ∧ q + n ≤ t.memBrk ∧ ∀ e ∈ live, Apart q n e.1 e.2 := by
    obtain ⟨-, -, hlo, hhi⟩ := ht.placed _ (Or.inl rfl)
    exact ⟨hlo, by dsimp only at hhi; omega, apart_of_new hl hcap (hnew hq) ht.apart⟩
  refine ⟨q, t, hrun, ?_, hframe, ?_, fun hq => ?_⟩
  · cases hres with
    | refused hcalls hsmall hfails =>
        exact iff_of_true rfl (not_servable hs.heapBlocks_eq (hruns hsmall) hfails)
    | extended hcalls hsmall hfails =>
        exact iff_of_false (by unfold NULL; omega) (not_not_intro (Or.inr hfails))
    | @fitted b k t hcalls hb hu hk hkb =>
        exact iff_of_false (by unfold NULL; omega) (not_not_intro
          (servable_of_run hs.heapBlocks_eq
            (freeRun_of_mem hsame hs.tiles hs.tiles hs.pos hs.no_adjacent hb hu) (by omega)))
  · cases hres with
    | refused => exact hs.brk_le
    | extended _ _ _ ht => exact ht.brk_le
    | fitted _ _ _ _ _ _ ht => exact ht.brk_le
  · cases hres with
    | refused => exact absurd rfl hq
    | extended _ _ _ ht => exact hpayload (by omega) hq ht
    | fitted _ _ _ hk _ _ ht => exact hpayload (by omega) hq ht

/-- The implicit `mm_malloc`. -/
theorem Implicit.Inv.mallocOk (hA : A.Mapped) {s : Implicit.State} (h : Implicit.Inv A s U)
    (hl : Covers U live) (hn : Implicit.SizeOk n) :
    ∃ q t, MallocOk A (Implicit.allocator A) (Implicit.blockSize n) live n r s q t := by
  obtain ⟨bs, hs, rfl⟩ := h
  have C := Implicit.basicContract hA
  obtain ⟨-, -, hsize, -⟩ := Implicit.blockSize_spec hn
  obtain ⟨cs, q, t, htiles, hpos, hno, hsame, hrun, hres, hkeep, hnew⟩ := hs.malloc hA r hn
  rw [hsame.payloads_eq] at hl
  have hframe := Contract.sameBytes_live hl (hkeep.preserves (by decide))
  have hruns := @freeRun_lt _ _ (Implicit.blockSize n) _ _ hsame hs.tiles htiles hpos hno
  have hpayload {cap : Nat} (hcap : n ≤ cap) (hq : q ≠ NULL)
      (ht : Implicit.Inv A t (insert (q, cap) (payloads Implicit.OVERHEAD cs))) :
      A.heap ≤ q ∧ q + n ≤ t.memBrk ∧ ∀ e ∈ live, Apart q n e.1 e.2 := by
    obtain ⟨-, -, hlo, hhi⟩ := C.placed t _ ht _ (Or.inl rfl)
    exact ⟨hlo, by dsimp only [Implicit.allocator] at hhi; omega,
      apart_of_new hl hcap (hnew hq) (C.apart t _ ht)⟩
  refine ⟨q, t, hrun, ?_, hframe, ?_, fun hq => ?_⟩
  · cases hres with
    | refused hcalls hsmall hfails =>
        exact iff_of_true rfl (not_servable hs.heapBlocks_eq (hruns hsmall) hfails)
    | extended hcalls hsmall hfails =>
        exact iff_of_false (by unfold NULL; omega) (not_not_intro (Or.inr hfails))
    | @fitted b k t hcalls hb hu hk hkb =>
        exact iff_of_false (by unfold NULL; omega) (not_not_intro
          (servable_of_run hs.heapBlocks_eq
            (freeRun_of_mem hsame hs.tiles htiles hpos hno hb hu) (by omega)))
  · cases hres with
    | refused _ _ _ ht => exact C.brk_le t _ ht
    | extended _ _ _ ht => exact C.brk_le t _ ht
    | fitted _ _ _ _ _ _ ht => exact C.brk_le t _ ht
  · cases hres with
    | refused => exact absurd rfl hq
    | extended _ _ _ ht => exact hpayload (by omega) hq ht
    | fitted _ _ _ hk _ _ ht => exact hpayload (by omega) hq ht

/-- The steps of runs of the explicit allocator whose calls all meet their conditions: also
`mm_calloc` when the product wraps to zero. -/
inductive Explicit.CallocMoves (A : Arena) : Client Explicit.State → Client Explicit.State → Prop
  | careful {c d : Client Explicit.State} : Explicit.CarefulMoves A c d →
      Explicit.CallocMoves A c d
  | wrapped {c : Client Explicit.State} {nmemb size : Nat} {r : Bool} {q : Nat}
      {s : Explicit.State} : nmemb * size % 2 ^ 64 = 0 →
      Explicit.mmCalloc A nmemb size r c.heap = some (q, s) →
      Explicit.CallocMoves A c ⟨s, liveAfter c.live (.malloc (nmemb * size)) q⟩

/-- A product that wraps to zero changes nothing. -/
theorem Explicit.careful_of_calloc {c : Client Explicit.State}
    (h : Reach (Starts A (Explicit.allocator A)) (Explicit.CallocMoves A) c) :
    Reach (Starts A (Explicit.allocator A)) (Explicit.CarefulMoves A) c := by
  induction h with
  | init h => exact .init h
  | @step c _ _ hs ih =>
      cases hs with
      | careful hs => exact .step ih hs
      | wrapped h0 hrun =>
          rw [Explicit.mmCalloc_eq, calloc_zero h0] at hrun
          obtain ⟨rfl, rfl⟩ := Prod.mk.inj (Option.some.inj hrun)
          simpa [liveAfter, Call.requested] using ih

/-- **`mm_calloc` keeps its promise exactly under the condition**, on the real machine and
in every state of runs whose calls meet their conditions. -/
theorem calloc_iff {heap : Nat} (h0 : 0 < heap) (h16 : heap % ALIGNMENT = 0)
    (h47 : heap + MAX_HEAP ≤ 2 ^ 47) :
    let A := Arena.mapped heap h0 h16 h47
    (∀ c, Reach (Starts A (Explicit.allocator A)) (Explicit.CallocMoves A) c →
      ∀ nmemb size r,
        (∃ q t, CallocOk A (Explicit.allocator A) Explicit.blockSize c.live nmemb size r c.heap q t) ↔
          CallocCondition A Explicit.blockSize nmemb size r c.heap.toMemlib) ∧
    (∀ c, CallocReachable A (Implicit.allocator A) Implicit.SizeOk c →
      ∀ nmemb size r,
        (∃ q t, CallocOk A (Implicit.allocator A) Implicit.blockSize c.live nmemb size r c.heap q t) ↔
          CallocCondition A Implicit.blockSize nmemb size r c.heap.toMemlib) := by
  intro A
  have hA : A.Mapped := Arena.mapped_mapped h0 h16 h47
  have hlimit : ∀ brk, A.limit brk ≤ A.heap + MAX_HEAP := fun _ => le_refl _
  constructor
  · intro c h nmemb size r
    obtain ⟨U, hU, hl⟩ := Explicit.holds_of_careful (Explicit.careful_of_calloc h)
    exact callocOk_iff (Explicit.lawful A) hlimit fun n hn hmax => hU.mallocOk hl hn hmax
  · intro c h nmemb size r
    have hreach := h.reachable (Implicit.lawful A) fun n hn => Nat.le_trans hn (by decide)
    obtain ⟨U, hU, hl⟩ := (Implicit.sizeContract hA).reachable_inv hreach
    exact callocOk_iff (Implicit.lawful A) hlimit fun n _ hmax =>
      hU.mallocOk hA hl (Implicit.RequestOk.sizeOk hmax)

theorem calloc_iff_emptyHeap :
    (∃ q t, CallocOk lowArena (Explicit.allocator lowArena) Explicit.blockSize [] 3 8 false
        Explicit.emptyHeap q t) ↔
      CallocCondition lowArena Explicit.blockSize 3 8 false Explicit.emptyHeap.toMemlib :=
  (calloc_iff (by decide : 0 < 4096) (by decide) (by decide)).1 ⟨Explicit.emptyHeap, []⟩
    (.init Explicit.starts_emptyHeap) 3 8 false

/-- **The product wraps**: `mm_calloc(2^61 + 1, 8)` on the empty heap does not return
`NULL`.  **`NULL` is written through**: `mm_calloc(1, 2^30)` does not return. -/
theorem calloc_fails :
    (¬ ∃ q t, CallocOk lowArena (Explicit.allocator lowArena) Explicit.blockSize []
      (2 ^ 61 + 1) 8 false Explicit.emptyHeap q t) ∧
    ¬ ∃ q t, CallocOk lowArena (Explicit.allocator lowArena) Explicit.blockSize []
      1 (2 ^ 30) false Explicit.emptyHeap q t := by
  obtain ⟨U, hU, hl⟩ := Explicit.holds_of_careful (A := lowArena)
    (c := ⟨Explicit.emptyHeap, []⟩) (.init Explicit.starts_emptyHeap)
  have hiff (nmemb size : Nat) : (∃ q t, CallocOk lowArena (Explicit.allocator lowArena)
      Explicit.blockSize [] nmemb size false Explicit.emptyHeap q t) ↔
      CallocCondition lowArena Explicit.blockSize nmemb size false Explicit.emptyHeap.toMemlib :=
    callocOk_iff (Explicit.lawful lowArena) (fun _ => le_refl _) fun n hn hmax =>
      hU.mallocOk hl hn hmax
  refine ⟨fun h => ?_, fun h => ?_⟩
  · rcases (hiff _ _).mp h with h0 | ⟨hmax, -⟩
    · exact absurd h0 (by decide)
    · exact absurd hmax (by decide)
  · rcases (hiff _ _).mp h with h0 | ⟨-, hserve⟩
    · exact absurd h0 (by decide)
    · have hblocks : heapBlocks lowArena Explicit.emptyHeap.toMemlib = some [] := by
        rw [heapBlocks, blocksFrom]
        exact if_pos rfl
      refine not_servable hblocks (fun lo hi hrun => ?_) (Or.inr (by decide)) hserve
      obtain ⟨b, hb, -⟩ := hrun.all lo (le_refl _) hrun.nonempty
      cases hb

end Malloc
