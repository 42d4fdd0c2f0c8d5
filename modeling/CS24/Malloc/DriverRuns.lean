import CS24.Malloc.Driver
import CS24.Malloc.Growth

/-!
# The driver finds no fault

Between the requests of a fair trace the driver's records agree with the heap: each
block number in use has a payload of its own, with its random bytes in it, and
every range is the extent of such a payload.  Each request keeps this, or its
allocation fails.  The argument needs only what `Contract` promises, so it is made
once for both allocators.
-/

namespace Malloc.Driver

open Bytes System

variable {σ : Type} {ids : Nat} {S : Setup σ} {t : Trace} {sizes : Nat → Prop}
  {Inv : σ → Payloads → Prop} {need : Nat → Nat} {slots : Fin ids → Slot} {live : Live}
  {live' : Live} {d : State σ ids} {index : Fin ids} {n lo opnum : Nat}

/-- What the driver relies on: the allocator keeps its contract and is thrifty, and
`mm_checkheap` returns. -/
structure Reliable (S : Setup σ) (sizes : Nat → Prop) (Inv : σ → Payloads → Prop)
    (need : Nat → Nat) : Prop where
  contract : Contract S.arena S.package sizes Inv
  thrifty : Thrifty S.arena S.package sizes Inv need
  lawful : S.package.Lawful
  checkheap : ∀ s U, Inv s U → S.checkheap s = some ()
  sizes : ∀ n, 0 < n → n < 2 ^ 31 → sizes n

/-- The payload of a block holds its random bytes. -/
def Filled (S : Setup σ) (d : State σ ids) (i : Fin ids) : Prop :=
  ∀ k < d.blockSizes i,
    (S.package.lib d.heap).mem (d.blocks i + k) = randomByte S (d.blockRandBase i) k

/-- The records of the driver agree with the heap. -/
structure Tracks (S : Setup σ) (Inv : σ → Payloads → Prop) (slots : Fin ids → Slot) (live : Live)
    (d : State σ ids) : Prop where
  inv : ∃ U, Inv d.heap U ∧ Covers U live
  live : ∀ i, slots i = .used → (d.blocks i, d.blockSizes i) ∈ live ∧ 0 < d.blockSizes i
  empty : ∀ i, slots i = .empty → d.blocks i = NULL ∧ d.blockSizes i = 0
  own : ∀ i j, slots i = .used → slots j = .used → d.blocks i = d.blocks j → i = j
  ranges : ∀ r ∈ d.ranges, slots r.index = .used ∧ r.lo = d.blocks r.index ∧
    r.hi = r.lo + d.blockSizes r.index - 1
  once : d.ranges.Pairwise fun r r' => r.lo ≠ r'.lo
  errors : d.errors = []

/-- And all the payloads hold their bytes. -/
structure InOrder (S : Setup σ) (Inv : σ → Payloads → Prop) (slots : Fin ids → Slot)
    (live : Live) (d : State σ ids) : Prop extends Tracks S Inv slots live d where
  filled : S.debugMode ≠ .none → ∀ i, slots i = .used → Filled S d i

/-! ## The checks -/

section Checks

/-- Two live payloads lie apart. -/
theorem Tracks.apart (R : Reliable S sizes Inv need) (h : Tracks S Inv slots live d)
    {e f : Nat × Nat} (he : e ∈ live) (hf : f ∈ live) (hne : e.1 ≠ f.1) :
    Apart e.1 e.2 f.1 f.2 := by
  obtain ⟨U, hU, hl⟩ := h.inv
  obtain ⟨c, hc, hcU⟩ := hl.cap e he
  obtain ⟨k, hk, hkU⟩ := hl.cap f hf
  have := (R.contract.apart _ U hU _ hcU _ hkU).resolve_left fun heq => hne (Prod.mk.inj heq).1
  unfold Apart at this ⊢
  dsimp only at this
  omega

/-- A live payload lies in the heap. -/
theorem Tracks.placed (R : Reliable S sizes Inv need) (h : Tracks S Inv slots live d)
    {e : Nat × Nat} (he : e ∈ live) : Accessible S.arena e.1 e.2 (S.package.lib d.heap) := by
  obtain ⟨U, hU, hl⟩ := h.inv
  obtain ⟨-, hlo, hhi⟩ := (R.contract.liveOk hU hl).placed e he
  exact accessible_of_le_brk (R.contract.brk_le _ U hU) hlo hhi

/-- The driver may look at the contents of a block that it has not freed, -/
theorem Tracks.accessible (R : Reliable S sizes Inv need) (h : Tracks S Inv slots live d)
    (hi : slots index ≠ .freed) : BlockAccessible S index d := by
  cases hslot : slots index with
  | empty => exact Or.inl (h.empty index hslot).2
  | used => exact Or.inr (h.placed R (h.live index hslot).1)
  | freed => exact absurd hslot hi

/-- A payload that holds its bytes is not complained about. -/
theorem checkIndex_eq (hacc : BlockAccessible S index d)
    (hfilled : S.debugMode ≠ .none → Filled S d index) : checkIndex S opnum index d = some d := by
  unfold checkIndex
  by_cases hmode : S.debugMode = .none
  · rw [if_pos hmode]
  · have hgarbled : (List.range (d.blockSizes index)).filter (fun i =>
        (S.package.lib d.heap).mem (d.blocks index + i) ≠
          randomByte S (d.blockRandBase index) i) = [] := by
      refine List.filter_eq_nil_iff.mpr fun k hk => ?_
      simpa using hfilled hmode k (List.mem_range.mp hk)
    rw [if_neg hmode, if_pos hacc]
    simp only [hgarbled]

/-- and finds them in order. -/
theorem InOrder.checkIndex (R : Reliable S sizes Inv need) (h : InOrder S Inv slots live d)
    (hi : slots index ≠ .freed) : checkIndex S opnum index d = some d := by
  refine checkIndex_eq (h.accessible R hi) fun hmode => ?_
  cases hslot : slots index with
  | empty =>
      intro k hk
      rw [(h.empty index hslot).2] at hk
      exact absurd hk (Nat.not_lt_zero k)
  | used => exact h.filled hmode index hslot
  | freed => exact absurd hslot hi

/-- Nothing is found before a request. -/
theorem InOrder.checkAll (R : Reliable S sizes Inv need) (h : InOrder S Inv slots live d) :
    checkAll S opnum d = some d := by
  have hranges : ∀ ranges : List (Range ids), (∀ r ∈ ranges, r ∈ d.ranges) →
      checkRanges S opnum ranges d = some d := by
    intro ranges hsub
    induction ranges with
    | nil => rfl
    | cons r ranges ih =>
        have hused := (h.ranges r (hsub r (by simp))).1
        have hcheck : Driver.checkIndex S opnum r.index d = some d := h.checkIndex R (by simp [hused])
        rw [checkRanges]
        simp [hcheck, ih fun r hr => hsub r (by simp [hr])]
  obtain ⟨U, hU, -⟩ := h.inv
  unfold Driver.checkAll
  split
  · simp [R.checkheap _ U hU, hranges d.ranges fun _ hr => hr]
  · rfl

/-- The range of a payload that is in order is added, or ranges are not kept. -/
theorem addRange_eq (hsize : 0 < n ∧ n < 2 ^ 31) (halign : lo % ALIGNMENT = 0)
    (hlo : S.arena.heap ≤ lo) (hhi : lo + n ≤ (S.package.lib d.heap).memBrk)
    (hapart : ∀ r ∈ d.ranges, lo + n ≤ r.lo ∨ r.hi < lo) :
    ∃ ranges, addRange S t lo n opnum index d = some (true, { d with ranges := ranges }) ∧
      (ranges = d.ranges ∨ ranges = ⟨lo, lo + n - 1, index⟩ :: d.ranges) := by
  have hint : (Int.bmod n (2 ^ 32)).toNat = n := by
    rw [Int.bmod_eq_of_le (by omega) (by omega)]
    rfl
  have hfind : d.ranges.find? (fun p => (p.lo ≤ lo ∧ lo ≤ p.hi) ∨
      (p.lo ≤ lo + n - 1 ∧ lo + n - 1 ≤ p.hi)) = none := by
    refine List.find?_eq_none.mpr fun r hr => ?_
    have := hapart r hr
    simp only [decide_eq_true_eq]
    omega
  have hinside : ¬ (lo < S.arena.heap ∨ (S.package.lib d.heap).memBrk - 1 < lo ∨
      lo + n - 1 < S.arena.heap ∨ (S.package.lib d.heap).memBrk - 1 < lo + n - 1) := by omega
  unfold addRange
  simp only [hint, if_neg hsize.1.ne', if_neg (not_not.mpr halign), if_neg hinside]
  split
  · exact ⟨d.ranges, rfl, Or.inl rfl⟩
  · rw [hfind]
    exact ⟨_, rfl, Or.inr rfl⟩

/-- Removing the range that starts at `lo` leaves the others, if no two start there. -/
theorem mem_removeRange {ranges : List (Range ids)} {r : Range ids}
    (hlo : ranges.Pairwise fun r r' => r.lo ≠ r'.lo) (hr : r ∈ removeRange lo ranges) :
    r ∈ ranges ∧ r.lo ≠ lo := by
  induction ranges with
  | nil => cases hr
  | cons s ranges ih =>
      obtain ⟨hs, hranges⟩ := List.pairwise_cons.mp hlo
      by_cases hslo : s.lo = lo
      · have hr' : r ∈ ranges := by simpa [removeRange, List.eraseP_cons, hslo] using hr
        exact ⟨by simp [hr'], fun hrlo => hs r hr' (hslo.trans hrlo.symm)⟩
      · have hr' : r = s ∨ r ∈ removeRange lo ranges := by
          simpa [removeRange, List.eraseP_cons, hslo] using hr
        rcases hr' with rfl | hr'
        · exact ⟨by simp, hslo⟩
        · obtain ⟨hmem, hne⟩ := ih hranges hr'
          exact ⟨by simp [hmem], hne⟩

end Checks

/-! ## One request -/

section Steps

/-- **Filling a block** with random bytes puts everything in order. -/
theorem Tracks.randomizeBlock (R : Reliable S sizes Inv need) (h : Tracks S Inv slots live d)
    (hi : slots index ≠ .freed)
    (hothers : S.debugMode ≠ .none → ∀ i, slots i = .used → i ≠ index → Filled S d i) :
    ∃ d', randomizeBlock S index d = some d' ∧ InOrder S Inv slots live d' ∧
      (S.package.lib d'.heap).memBrk = (S.package.lib d.heap).memBrk := by
  have hacc := h.accessible R hi
  unfold Driver.randomizeBlock
  by_cases hmode : S.debugMode = .none
  · exact ⟨d, if_pos hmode, ⟨h, fun hne => absurd hmode hne⟩, rfl⟩
  rw [if_neg hmode, if_pos hacc]
  dsimp only
  generalize hdata : (List.range (d.blockSizes index)).map (randomByte S (S.random d.randoms)) = data
  have hlength : data.length = d.blockSizes index := by simp [← hdata]
  have hlib := R.lawful.lib_withMem d.heap (blit (S.package.lib d.heap).mem (d.blocks index) data)
  refine ⟨_, rfl, ⟨⟨?_, h.live, h.empty, h.own, h.ranges, h.once, h.errors⟩, ?_⟩, by simp [hlib]⟩
  · obtain ⟨U, hU, hl⟩ := h.inv
    refine ⟨U, ?_, hl⟩
    cases hslot : slots index with
    | empty =>
        have hsize := (h.empty index hslot).2
        have hmem : blit (S.package.lib d.heap).mem (d.blocks index) data =
            (S.package.lib d.heap).mem := funext fun i => blit_other (by omega)
        rw [hmem, R.lawful.withMem_lib]
        exact hU
    | used =>
        obtain ⟨cap, hcap, hcU⟩ := hl.cap _ (h.live index hslot).1
        refine R.contract.write _ U hU _ hcU _ fun i hi => blit_other ?_
        dsimp only at hcap hi
        omega
    | freed => exact absurd hslot hi
  · intro _ i hused k hk
    rw [hlib]
    by_cases hii : i = index
    · subst hii
      have hk' : k < data.length := hlength ▸ hk
      dsimp only
      rw [blit_inside hk', Function.update_self]
      simp [← hdata]
    · have hfilled := hothers hmode i hused hii k hk
      dsimp only at hfilled ⊢
      rw [Function.update_of_ne hii, ← hfilled]
      refine blit_other ?_
      cases hslot : slots index with
      | empty =>
          have hsize := (h.empty index hslot).2
          omega
      | used =>
          have hne := fun heq => hii (h.own i index hused hslot heq)
          have hap := h.apart R (h.live i hused).1 (h.live index hslot).1 hne
          unfold Apart at hap
          dsimp only at hap hk
          omega
      | freed => exact absurd hslot hi

/-- The other blocks, their payloads and their ranges, when block `index` is given up. -/
structure Others (slots : Fin ids → Slot) (live : Live) (index : Fin ids) (d : State σ ids)
    (ranges : List (Range ids)) : Prop where
  live : ∀ j, j ≠ index → slots j = .used →
    (d.blocks j, d.blockSizes j) ∈ live ∧ 0 < d.blockSizes j
  extents : ∀ r ∈ ranges, r.index ≠ index ∧ slots r.index = .used ∧ r.lo = d.blocks r.index ∧
    r.hi = r.lo + d.blockSizes r.index - 1
  once : ranges.Pairwise fun r r' => r.lo ≠ r'.lo

/-- A block number that is not in use has nothing to give up. -/
theorem Tracks.others_new (h : Tracks S Inv slots live d) (hi : slots index ≠ .used) :
    Others slots live index d d.ranges := by
  refine ⟨fun j _ hused => h.live j hused, fun r hr => ?_, h.once⟩
  obtain ⟨hused, hrange⟩ := h.ranges r hr
  exact ⟨fun he => hi (he ▸ hused), hused, hrange⟩

/-- A block that has not been freed gives up its payload and its range. -/
theorem Tracks.others (R : Reliable S sizes Inv need) (h : Tracks S Inv slots live d)
    (hi : slots index ≠ .freed) :
    Others slots (forget (d.blocks index) live) index d
      (removeRange (d.blocks index) d.ranges) := by
  obtain ⟨U, hU, hl⟩ := h.inv
  refine ⟨fun j hj hused => ?_, fun r hr => ?_, h.once.sublist List.eraseP_sublist⟩
  · obtain ⟨hmem, hpos⟩ := h.live j hused
    refine ⟨mem_forget.mpr ⟨hmem, fun heq => ?_⟩, hpos⟩
    cases hslot : slots index with
    | empty => exact R.contract.live_ne_null hU hl _ hmem (heq.trans (h.empty index hslot).1)
    | used => exact hj (h.own j index hused hslot heq)
    | freed => exact hi hslot
  · obtain ⟨hmem, hne⟩ := mem_removeRange h.once hr
    obtain ⟨hused, hlo, hhi⟩ := h.ranges r hmem
    exact ⟨fun he => hne (he ▸ hlo), hused, hlo, hhi⟩

variable {ranges ranges' : List (Range ids)} {heap : σ} {q randoms : Nat}

/-- The block gets a new payload. -/
theorem Others.install (o : Others slots live index d ranges)
    (hinv : ∃ U, Inv heap U ∧ Covers U ((q, n) :: live)) (hn : 0 < n)
    (h : Tracks S Inv slots live' d)
    (hranges : ranges' = ranges ∨ ranges' = ⟨q, q + n - 1, index⟩ :: ranges) :
    Tracks S Inv (Function.update slots index .used) ((q, n) :: live)
      { d with
        heap := heap
        blocks := Function.update d.blocks index q
        blockSizes := Function.update d.blockSizes index n
        ranges := ranges' } := by
  obtain ⟨U, hU, hl⟩ := hinv
  have hnew : ∀ e ∈ live, q ≠ e.1 := (List.pairwise_cons.mp hl.distinct).1
  have hother {j : Fin ids} (hj : j ≠ index) (hused : Function.update slots index .used j = .used) :
      slots j = .used := by rwa [Function.update_of_ne hj] at hused
  refine ⟨⟨U, hU, hl⟩, fun j hused => ?_, fun j hempty => ?_, fun j k hj hk heq => ?_,
    fun r hr => ?_, ?_, h.errors⟩
  · by_cases hj : j = index
    · subst hj
      simpa using hn
    · obtain ⟨hmem, hpos⟩ := o.live j hj (hother hj hused)
      simp [Function.update_of_ne hj, hmem, hpos]
  · by_cases hj : j = index
    · subst hj
      simp at hempty
    · rw [Function.update_of_ne hj] at hempty
      simpa [Function.update_of_ne hj] using h.empty j hempty
  · dsimp only at heq
    by_cases hji : j = index <;> by_cases hki : k = index
    · rw [hji, hki]
    · subst hji
      rw [Function.update_self, Function.update_of_ne hki] at heq
      exact absurd heq (hnew _ (o.live k hki (hother hki hk)).1)
    · subst hki
      rw [Function.update_self, Function.update_of_ne hji] at heq
      exact absurd heq.symm (hnew _ (o.live j hji (hother hji hj)).1)
    · rw [Function.update_of_ne hji, Function.update_of_ne hki] at heq
      exact h.own j k (hother hji hj) (hother hki hk) heq
  · have hold (hr : r ∈ ranges) : Function.update slots index .used r.index = .used ∧
        r.lo = Function.update d.blocks index q r.index ∧
        r.hi = r.lo + Function.update d.blockSizes index n r.index - 1 := by
      obtain ⟨hne, hrest⟩ := o.extents r hr
      simpa only [Function.update_of_ne hne] using hrest
    rcases hranges with rfl | rfl
    · exact hold hr
    · rcases List.mem_cons.mp hr with rfl | hr
      · simp
      · exact hold hr
  · rcases hranges with rfl | rfl
    · exact o.once
    · refine List.pairwise_cons.mpr ⟨fun r hr => ?_, o.once⟩
      obtain ⟨hne, hused, hlo, -⟩ := o.extents r hr
      rw [hlo]
      exact hnew _ (o.live _ hne hused).1

/-- The block stays without a payload. -/
theorem Others.release {slot : Slot} {p k : Nat} (o : Others slots live index d ranges)
    (hinv : ∃ U, Inv heap U ∧ Covers U live) (h : Tracks S Inv slots live' d)
    (hslot : slot ≠ .used) (hempty : slot = .empty → p = NULL ∧ k = 0) :
    Tracks S Inv (Function.update slots index slot) live
      { d with
        heap := heap
        blocks := Function.update d.blocks index p
        blockSizes := Function.update d.blockSizes index k
        ranges := ranges } := by
  have hother {j : Fin ids} (hused : Function.update slots index slot j = .used) :
      j ≠ index ∧ slots j = .used := by
    by_cases hj : j = index
    · subst hj
      rw [Function.update_self] at hused
      exact absurd hused hslot
    · exact ⟨hj, by rwa [Function.update_of_ne hj] at hused⟩
  refine ⟨hinv, fun j hused => ?_, fun j hslot => ?_, fun j k hj hk heq => ?_, fun r hr => ?_,
    o.once, h.errors⟩
  · obtain ⟨hj, hused⟩ := hother hused
    simpa only [Function.update_of_ne hj] using o.live j hj hused
  · by_cases hj : j = index
    · subst hj
      rw [Function.update_self] at hslot
      simpa using hempty hslot
    · rw [Function.update_of_ne hj] at hslot
      simpa only [Function.update_of_ne hj] using h.empty j hslot
  · obtain ⟨hji, hj⟩ := hother hj
    obtain ⟨hki, hk⟩ := hother hk
    dsimp only at heq
    rw [Function.update_of_ne hji, Function.update_of_ne hki] at heq
    exact h.own j k hj hk heq
  · obtain ⟨hne, hrest⟩ := o.extents r hr
    simpa only [Function.update_of_ne hne] using hrest

/-- The other blocks keep their bytes. -/
theorem Others.filled {p k : Nat} (o : Others slots live index d ranges)
    (hframe : ∀ e ∈ live, SameBytes (S.package.lib d.heap).mem (S.package.lib heap).mem e)
    {j : Fin ids} (hj : j ≠ index) (hused : slots j = .used) (hfilled : Filled S d j) :
    Filled S { d with
      heap := heap
      blocks := Function.update d.blocks index p
      blockSizes := Function.update d.blockSizes index k
      ranges := ranges } j := by
  intro i hi
  dsimp only at hi ⊢
  rw [Function.update_of_ne hj] at hi ⊢
  rw [← hfilled i hi]
  exact hframe _ (o.live j hj hused).1 i hi

/-- A payload apart from the others has a range apart from theirs. -/
theorem Others.apart (o : Others slots live index d ranges)
    (hapart : ∀ e ∈ live, Apart lo n e.1 e.2) (r : Range ids) (hr : r ∈ ranges) :
    lo + n ≤ r.lo ∨ r.hi < lo := by
  obtain ⟨hne, hused, hlo, hhi⟩ := o.extents r hr
  obtain ⟨hmem, hpos⟩ := o.live _ hne hused
  have := hapart _ hmem
  unfold Apart at this
  dsimp only at this
  omega

end Steps

/-- How a request ends: everything is in order, or an allocation has failed. -/
inductive Proceeds (S : Setup σ) (Inv : σ → Payloads → Prop) (need : Nat → Nat)
    (slots : Fin ids → Slot) (op : Traceop ids) (opnum : Nat) (d : State σ ids) :
    Bool → State σ ids → Prop
  | goesOn {live : Live} {d' : State σ ids} : InOrder S Inv (op.after slots) live d' →
      (S.package.lib d'.heap).memBrk ≤ (S.package.lib d.heap).memBrk + op.need need →
      Proceeds S Inv need slots op opnum d true d'
  | fails {d' : State σ ids} {e : MallocError} : d'.errors = [e] → e.outOfMemory = true →
      SbrkFails S.arena (op.need need) (S.refuse (opnum + 1)) (S.package.lib d.heap) →
      Proceeds S Inv need slots op opnum d false d'

section Requests

variable {slots : Fin t.numIds → Slot} {d : State σ t.numIds} {index : Fin t.numIds}

/-- **`a`** proceeds, -/
theorem evalOp_alloc (R : Reliable S sizes Inv need) (h : InOrder S Inv slots live d)
    (hi : slots index ≠ .used) (hn : 0 < n ∧ n < 2 ^ 31) :
    ∃ ok d', evalOp S t opnum d (.alloc index n) = some (ok, d') ∧
      Proceeds S Inv need slots (.alloc index n) opnum d ok d' := by
  obtain ⟨U, hU, hl⟩ := h.inv
  have C := R.contract
  have hallowed : Allowed sizes live (.malloc n) :=
    ⟨Or.inl rfl, fun m hm => Option.some.inj hm ▸ R.sizes n hn.1 hn.2⟩
  obtain ⟨q, s, U', hrun, hU', hl', hok⟩ := C.call_ok hU hl hallowed (S.refuse (opnum + 1))
  have hwithin := (R.thrifty.run C hU hl hallowed hrun).2 n rfl
  have hmalloc : S.package.malloc n (S.refuse (opnum + 1)) d.heap = some (q, s) := hrun
  by_cases hq : q = NULL
  · exact ⟨false, mallocError (.mallocFailed opnum) { d with heap := s }, by simp [evalOp, hmalloc, hq],
      .fails (e := .mallocFailed opnum) (by simp [mallocError, h.errors]) rfl (hwithin.fails hq)⟩
  have hforget : forget NULL live = live := forget_of_not_mem (C.live_ne_null hU hl)
  have hafter : liveAfter live (.malloc n) q = (q, n) :: live := by
    simp [liveAfter, Call.requested, Call.released, hq, hforget]
  have hframe := hok.frame
  obtain ⟨halign, hlo, hhi, hapart⟩ := hok.result n rfl hq
  rw [Call.released, hforget] at hapart hframe
  rw [hafter] at hl'
  have o := h.others_new hi
  have hadd : ∃ ranges, addRange S t q n opnum index { d with heap := s } =
      some (true, { d with heap := s, ranges := ranges }) ∧
        (ranges = d.ranges ∨ ranges = ⟨q, q + n - 1, index⟩ :: d.ranges) :=
    addRange_eq hn halign hlo hhi (o.apart hapart)
  obtain ⟨ranges, hadd, hranges⟩ := hadd
  have htracks := o.install ⟨U', hU', hl'⟩ hn.1 h.toTracks hranges
  have hslot : Function.update slots index .used index ≠ .freed := by simp
  obtain ⟨d', hrandom, horder, hbrk⟩ := htracks.randomizeBlock R hslot fun hmode j hused hj => by
    rw [Function.update_of_ne hj] at hused
    exact o.filled hframe hj hused (h.filled hmode j hused)
  refine ⟨true, d', ?_, .goesOn horder (hbrk ▸ hwithin.brk_le)⟩
  simp [evalOp, hmalloc, hq, hadd, hrandom]

/-- What a block that has not been freed can give up. -/
theorem Tracks.gives (h : Tracks S Inv slots live d) (hi : slots index ≠ .freed) :
    (d.blocks index = NULL ∧ slots index = .empty) ∨ (d.blocks index, d.blockSizes index) ∈ live := by
  cases hslot : slots index with
  | empty => exact Or.inl ⟨(h.empty index hslot).1, rfl⟩
  | used => exact Or.inr (h.live index hslot).1
  | freed => exact absurd hslot hi

/-- **`f`** too, -/
theorem evalOp_free (R : Reliable S sizes Inv need) (h : InOrder S Inv slots live d)
    (hi : slots index ≠ .freed) :
    ∃ ok d', evalOp S t opnum d (.free (some index)) = some (ok, d') ∧
      Proceeds S Inv need slots (.free (some index)) opnum d ok d' := by
  obtain ⟨U, hU, hl⟩ := h.inv
  have C := R.contract
  have hallowed : Allowed sizes live (.free (d.blocks index)) :=
    ⟨(h.gives hi).imp And.left fun hmem => ⟨_, hmem⟩, nofun⟩
  obtain ⟨q, s, U', hrun, hU', hl', hok⟩ := C.call_ok hU hl hallowed false
  have hbrk := (R.thrifty.run C hU hl hallowed hrun).1 rfl
  obtain ⟨u, hfree, heq⟩ := Option.map_eq_some_iff.mp hrun
  obtain ⟨-, rfl⟩ := Prod.mk.inj heq
  have o := h.others R hi
  generalize hslot : (if slots index = .used then .freed else slots index) = slot
  have hused : slot ≠ .used := by
    rw [← hslot]
    split_ifs with hused
    · decide
    · exact hused
  have hempty : slot = .empty → d.blocks index = NULL ∧ d.blockSizes index = 0 := by
    intro he
    refine h.empty index ?_
    rw [← hslot] at he
    split_ifs at he
    exact he
  have htracks := o.release ⟨U', hU', hl'⟩ h.toTracks hused hempty
  simp only [Function.update_eq_self] at htracks
  refine ⟨true, { d with heap := u, ranges := removeRange (d.blocks index) d.ranges }, ?_,
    .goesOn ⟨by simpa only [Traceop.after, hslot] using htracks, fun hmode j hj => ?_⟩ hbrk.le⟩
  · simp [evalOp, h.checkIndex R hi, hfree]
  · have hji : j ≠ index := by
      rintro rfl
      simp only [Traceop.after, hslot, Function.update_self] at hj
      exact hused hj
    simp only [Traceop.after, Function.update_of_ne hji] at hj
    have hfilled := o.filled (p := d.blocks index) (k := d.blockSizes index) hok.frame hji hj
      (h.filled hmode j hj)
    simpa only [Function.update_eq_self] using hfilled

/-- and **`r`** with a size that is not 0. -/
theorem evalOp_realloc (R : Reliable S sizes Inv need) (h : InOrder S Inv slots live d)
    (hi : slots index ≠ .freed) (hn : n < 2 ^ 31) (hn0 : n ≠ 0) :
    ∃ ok d', evalOp S t opnum d (.realloc index n) = some (ok, d') ∧
      Proceeds S Inv need slots (.realloc index n) opnum d ok d' := by
  obtain ⟨U, hU, hl⟩ := h.inv
  have C := R.contract
  have hreq : (Call.realloc (d.blocks index) n).requested = some n := by simp [Call.requested, hn0]
  have hallowed : Allowed sizes live (.realloc (d.blocks index) n) :=
    ⟨(h.gives hi).imp And.left fun hmem => ⟨_, hmem⟩, fun m hm => by
      rw [hreq] at hm
      exact Option.some.inj hm ▸ R.sizes n (Nat.pos_of_ne_zero hn0) hn⟩
  obtain ⟨q, s, U', hrun, hU', hl', hok⟩ := C.call_ok hU hl hallowed (S.refuse (opnum + 1))
  have hwithin := (R.thrifty.run C hU hl hallowed hrun).2 n hreq
  have hneed : (Traceop.realloc index n).need need = need n := by simp [Traceop.need, hn0]
  rw [← hneed] at hwithin
  have hrealloc : S.package.realloc (d.blocks index) n (S.refuse (opnum + 1)) d.heap =
      some (q, s) := hrun
  have hcheck : checkIndex S opnum index d = some d := h.checkIndex R hi
  by_cases hq : q = NULL
  · exact ⟨false, mallocError (.reallocFailed opnum) { d with heap := s },
      by simp [evalOp, hcheck, hrealloc, hq, hn0],
      .fails (e := .reallocFailed opnum) (by simp [mallocError, h.errors]) rfl (hwithin.fails hq)⟩
  have hafter : liveAfter live (.realloc (d.blocks index) n) q =
      (q, n) :: forget (d.blocks index) live := by
    simp [liveAfter, hreq, hq, Call.released]
  obtain ⟨halign, hlo, hhi, hapart⟩ := hok.result n hreq hq
  rw [hafter] at hl'
  have o := h.others R hi
  have hadd : ∃ ranges, addRange S t q n opnum index
      { d with heap := s, ranges := removeRange (d.blocks index) d.ranges } =
        some (true, { d with heap := s, ranges := ranges }) ∧
        (ranges = removeRange (d.blocks index) d.ranges ∨
          ranges = ⟨q, q + n - 1, index⟩ :: removeRange (d.blocks index) d.ranges) :=
    addRange_eq ⟨Nat.pos_of_ne_zero hn0, hn⟩ halign hlo hhi (o.apart hapart)
  obtain ⟨ranges, hadd, hranges⟩ := hadd
  have htracks := o.install ⟨U', hU', hl'⟩ (Nat.pos_of_ne_zero hn0) h.toTracks hranges
  -- before the new random data goes in, the old data must have been copied
  have hcopied : checkIndex S opnum index { d with
      heap := s
      blocks := Function.update d.blocks index q
      blockSizes := Function.update d.blockSizes index (min n (d.blockSizes index))
      ranges := ranges } = some { d with
      heap := s
      blocks := Function.update d.blocks index q
      blockSizes := Function.update d.blockSizes index (min n (d.blockSizes index))
      ranges := ranges } := by
    refine checkIndex_eq (Or.inr ?_) fun hmode k hk => ?_
    · simp only [Function.update_self]
      exact accessible_of_le_brk (R.contract.brk_le _ _ hU') hlo (by omega)
    · simp only [Function.update_self] at hk ⊢
      rcases h.gives hi with ⟨-, hempty⟩ | hmem
      · rw [(h.empty index hempty).2] at hk
        omega
      · have hused : slots index = .used := by
          cases hslot : slots index with
          | empty =>
              rw [(h.empty index hslot).2] at hk
              omega
          | used => rfl
          | freed => exact absurd hslot hi
        rw [hok.copied _ hmem n hreq hq k (by omega)]
        exact h.filled hmode index hused k (by omega)
  have hslot : Function.update slots index .used index ≠ .freed := by simp
  obtain ⟨d', hrandom, horder, hbrk⟩ := htracks.randomizeBlock R hslot fun hmode j hused hj => by
    rw [Function.update_of_ne hj] at hused
    exact o.filled hok.frame hj hused (h.filled hmode j hused)
  have hslots : (Traceop.realloc index n).after slots = Function.update slots index .used := by
    simp [Traceop.after, hn0]
  refine ⟨true, d', ?_, .goesOn (hslots ▸ horder) (hbrk ▸ hwithin.brk_le)⟩
  simp [evalOp, hcheck, hrealloc, hq, hn0, Nat.pos_of_ne_zero hn0, hadd, hcopied, hrandom]

/-- Reallocating to no bytes gives up the payload. -/
theorem evalOp_realloc_zero (R : Reliable S sizes Inv need) (h : InOrder S Inv slots live d)
    (hused : slots index = .used) :
    ∃ ok d', evalOp S t opnum d (.realloc index 0) = some (ok, d') ∧
      Proceeds S Inv need slots (.realloc index 0) opnum d ok d' := by
  obtain ⟨U, hU, hl⟩ := h.inv
  have C := R.contract
  have hi : slots index ≠ .freed := by simp [hused]
  have hmem := (h.live index hused).1
  have hne : d.blocks index ≠ NULL := C.live_ne_null hU hl _ hmem
  have hreq : (Call.realloc (d.blocks index) 0).requested = none := by simp [Call.requested, hne]
  have hallowed : Allowed sizes live (.realloc (d.blocks index) 0) :=
    ⟨Or.inr ⟨_, hmem⟩, fun m hm => by rw [hreq] at hm; cases hm⟩
  obtain ⟨q, s, U', hrun, hU', hl', hok⟩ := C.call_ok hU hl hallowed (S.refuse (opnum + 1))
  have hbrk := (R.thrifty.run C hU hl hallowed hrun).1 hreq
  have hrealloc : S.package.realloc (d.blocks index) 0 (S.refuse (opnum + 1)) d.heap =
      some (q, s) := hrun
  obtain ⟨u, -, heq⟩ := Option.map_eq_some_iff.mp
    ((C.realloc_zero d.heap (d.blocks index) (S.refuse (opnum + 1)) hne).symm.trans hrealloc)
  obtain ⟨rfl, -⟩ := Prod.mk.inj heq
  have hafter : liveAfter live (.realloc (d.blocks index) 0) NULL = forget (d.blocks index) live := by
    simp [liveAfter, hreq, Call.released]
  rw [hafter] at hl'
  have o := h.others R hi
  have hempty : Slot.empty = .empty → NULL = NULL ∧ 0 = 0 := fun _ => ⟨rfl, rfl⟩
  have htracks := o.release ⟨U', hU', hl'⟩ h.toTracks (by decide) hempty
  have hslot : Function.update slots index .empty index ≠ .freed := by simp
  have hcheck : checkIndex S opnum index d = some d := h.checkIndex R hi
  have hnone : checkIndex S opnum index { d with
      heap := s
      blocks := Function.update d.blocks index NULL
      blockSizes := Function.update d.blockSizes index 0
      ranges := removeRange (d.blocks index) d.ranges } = some { d with
      heap := s
      blocks := Function.update d.blocks index NULL
      blockSizes := Function.update d.blockSizes index 0
      ranges := removeRange (d.blocks index) d.ranges } := by
    refine checkIndex_eq (Or.inl (by simp)) fun _ k hk => ?_
    simp at hk
  obtain ⟨d', hrandom, horder, hbrk'⟩ := htracks.randomizeBlock R hslot fun hmode j hj hji => by
    rw [Function.update_of_ne hji] at hj
    exact o.filled hok.frame hji hj (h.filled hmode j hj)
  refine ⟨true, d', ?_, .goesOn horder (hbrk'.trans hbrk).le⟩
  simp [evalOp, hcheck, hrealloc, hnone, hrandom]

/-- **One request** of a fair trace: everything stays in order, or its allocation fails. -/
theorem evalOp_proceeds (R : Reliable S sizes Inv need) (h : InOrder S Inv slots live d)
    {op : Traceop t.numIds} (hop : op.Fair slots) (opnum : Nat) :
    ∃ ok d', evalOp S t opnum d op = some (ok, d') ∧ Proceeds S Inv need slots op opnum d ok d' := by
  cases op with
  | alloc index size => exact evalOp_alloc R h hop.1 hop.2
  | realloc index size =>
      obtain ⟨hi, hsize, hzero⟩ := hop
      rcases eq_or_ne size 0 with rfl | hne
      · exact evalOp_realloc_zero R h (hzero rfl)
      · exact evalOp_realloc R h hi hsize hne
  | free index =>
      cases index with
      | none => exact ⟨true, d, by simp [evalOp, R.contract.free_null], .goesOn h (Nat.le_add_right _ _)⟩
      | some index => exact evalOp_free R h hop

/-- **All requests** of a fair trace.  By induction on those still to come. -/
theorem evalOps_ends (R : Reliable S sizes Inv need) (h : InOrder S Inv slots live d)
    {ops : List (Traceop t.numIds)} (hfair : FairFrom slots ops) (opnum : Nat) :
    ∃ ok d', evalOps S t opnum ops d = some (ok, d') ∧
      (ok = true ∧ d'.errors = [] ∨
        ok = false ∧ (∃ e, d'.errors = [e] ∧ e.outOfMemory = true) ∧
          ((∃ i, S.refuse i = true) ∨ S.arena.heap + MAX_HEAP <
            (S.package.lib d.heap).memBrk + (ops.map (Traceop.need need)).sum)) := by
  induction ops generalizing slots live d opnum with
  | nil => exact ⟨true, d, rfl, Or.inl ⟨rfl, h.errors⟩⟩
  | cons op ops ih =>
      obtain ⟨hop, hops⟩ := hfair
      have hall : checkAll S opnum d = some d := h.checkAll R
      obtain ⟨ok, d', hrun, hproceeds⟩ := evalOp_proceeds R h hop opnum
      rw [List.map_cons, List.sum_cons]
      cases hproceeds with
      | goesOn horder hbrk =>
          obtain ⟨ok, d'', hrest, hend⟩ := ih horder hops (opnum + 1)
          refine ⟨ok, d'', by simp [evalOps, hall, hrun, hrest], ?_⟩
          refine hend.imp_right (And.imp_right (And.imp_right (Or.imp_right fun hlt => ?_)))
          omega
      | fails herrors hmemory hsbrk =>
          refine ⟨false, d', by simp [evalOps, hall, hrun], Or.inr ⟨rfl, ⟨_, herrors, hmemory⟩, ?_⟩⟩
          rcases hsbrk with hrefuse | hfull
          · exact Or.inl ⟨_, hrefuse⟩
          · exact Or.inr (by omega)

end Requests

/-- **The driver finds no fault** with a reliable allocator on a fair trace. -/
theorem Reliable.findsNoFault (R : Reliable S sizes Inv need) (ht : t.Fair) {s : σ}
    (hbrk : (S.package.lib s).memBrk = S.arena.heap) : FindsNoFault S need t s := by
  unfold FindsNoFault evalMmValid
  cases hinit : S.package.init (S.refuse 0) s with
  | mk ok heap =>
      cases ok with
      | false =>
          have hrefuse := R.thrifty.init_fails _ s hbrk (by rw [hinit])
          exact ⟨false, _, rfl, Or.inr ⟨rfl, ⟨.initFailed, rfl, rfl⟩, Or.inl ⟨0, hrefuse⟩⟩⟩
      | true =>
          have hstart : InOrder S Inv (fun _ => .empty) [] (reinitTrace heap : State σ t.numIds) := by
            refine ⟨⟨⟨∅, R.contract.init _ s heap hbrk hinit, .empty⟩, nofun, fun _ _ => ⟨rfl, rfl⟩,
              nofun, nofun, .nil, rfl⟩, nofun⟩
          obtain ⟨ok, d, hrun, hend⟩ := evalOps_ends R hstart ht 0
          have hbrk' : (S.package.lib (reinitTrace heap : State σ t.numIds).heap).memBrk =
              S.arena.heap + 8 := R.thrifty.init_brk _ s heap hbrk hinit
          refine ⟨ok, d, hrun, ?_⟩
          refine hend.imp_right (And.imp_right (And.imp_right (Or.imp_right fun hlt => ?_)))
          unfold Trace.need
          omega

/-! ## The two allocators -/

section Allocators

variable (A : Arena) (debugMode : DebugMode) (random : Nat → Nat) (randomData : Nat → UInt8)
  (refuse : Nat → Bool)

/-- The driver with `mm-explicit.c`, whose heap checker exits when it finds an error. -/
def explicitSetup : Setup Explicit.State where
  arena := A
  package := Explicit.allocator A
  checkheap s := (Explicit.mmCheckheap A s).bind fun
    | .ok () => some ()
    | .error _ => none
  debugMode := debugMode
  random := random
  randomData := randomData
  refuse := refuse

/-- The driver with `mm-implicit.c`, whose heap checker does nothing. -/
def implicitSetup : Setup Implicit.State where
  arena := A
  package := Implicit.allocator A
  checkheap _ := some ()
  debugMode := debugMode
  random := random
  randomData := randomData
  refuse := refuse

/-- The explicit allocator is reliable, -/
theorem explicit_reliable : Reliable (explicitSetup A debugMode random randomData refuse)
    Explicit.RequestOk (Explicit.Inv A) Explicit.blockSize where
  contract := Explicit.contract A
  thrifty := Explicit.thrifty A
  lawful := Explicit.lawful A
  checkheap := by
    rintro s U ⟨bs, fl, h, -⟩
    simp [explicitSetup, (Explicit.settled_iff.mpr h).mmCheckheap_eq]
  sizes := fun n hpos hlt => ⟨hpos, by unfold SIZE_MAX; omega⟩

/-- and so is the implicit one if all of `MAX_HEAP` is mapped. -/
theorem implicit_reliable (hA : A.Mapped) :
    Reliable (implicitSetup A debugMode random randomData refuse) Implicit.SizeOk
      (Implicit.Inv A) Implicit.blockSize where
  contract := Implicit.sizeContract hA
  thrifty := Implicit.thrifty hA
  lawful := Implicit.lawful A
  checkheap := fun _ _ _ => rfl
  sizes := fun n _ hlt => by unfold Implicit.SizeOk SIZE_MAX; omega

end Allocators

/-- **Both allocators pass the driver** on every fair trace, in every debug mode, with all
random data, unless an allocation fails for want of memory. -/
theorem allocators_pass {A : Arena} (ht : t.Fair) (debugMode : DebugMode) (random : Nat → Nat)
    (randomData : Nat → UInt8) (refuse : Nat → Bool) :
    (∀ s : Explicit.State, s.memBrk = A.heap →
      FindsNoFault (explicitSetup A debugMode random randomData refuse) Explicit.blockSize t s) ∧
    (A.Mapped → ∀ s : Implicit.State, s.memBrk = A.heap →
      FindsNoFault (implicitSetup A debugMode random randomData refuse) Implicit.blockSize t s) :=
  ⟨fun _ hbrk => (explicit_reliable A debugMode random randomData refuse).findsNoFault ht hbrk,
    fun hA _ hbrk => (implicit_reliable A debugMode random randomData refuse hA).findsNoFault ht hbrk⟩

/-- A block of 24 bytes that grows, is given up, and comes back. -/
def shortTrace : Trace where
  ignoreRanges := false
  numIds := 2
  ops := [.alloc 0 24, .realloc 0 100, .alloc 1 1, .free (some 0), .realloc 1 0, .alloc 0 8, .free none]

/-- The short trace is fair, -/
theorem shortTrace_fair : shortTrace.Fair := by
  simp [Trace.Fair, shortTrace, FairFrom, Traceop.Fair, Traceop.after]

/-- and passes. -/
theorem shortTrace_passes :
    FindsNoFault (explicitSetup lowArena .expensive (fun i => i) (fun _ => 7) fun _ => false)
      Explicit.blockSize shortTrace Explicit.resetState :=
  (allocators_pass shortTrace_fair .expensive (fun i => i) (fun _ => 7) fun _ => false).1
    Explicit.resetState rfl

end Malloc.Driver
