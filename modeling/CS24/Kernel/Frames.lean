import CS24.Kernel.Segments

/-!
# The places of the pages that are dealt

`deal` goes through the free pages in order.  So the page that page number `j` of an image gets
is found in the list of free pages at a place that depends on `j` alone, and later pages get
later ones.  Whether a segment lies in consecutive pages is thus a question about the list of
free pages before `process_setup`.
-/

namespace Kernel

/-- The place among the free pages of the page that the page number `j` gets.  Four pages before
are tables, and there is a table behind the first page from 2 MiB on. -/
def frameIndex (pages : List Nat) (j : Nat) : Nat :=
  4 + j + if (pages.take j).any (512 ≤ ·) then 1 else 0

section Places

variable {free pages : List Nat} {page f f' i j : Nat}

/-- An ascending list rises by one at least. -/
theorem sorted_gap (hsorted : free.Pairwise (· < ·)) (hij : i ≤ j) (hi : free[i]? = some f)
    (hj : free[j]? = some f') : f + (j - i) ≤ f' := by
  induction j, hij using Nat.le_induction generalizing f' with
  | base =>
      have hsame := Option.some.inj (hi.symm.trans hj)
      omega
  | succ j hij ih =>
      obtain ⟨hlt, rfl⟩ := List.getElem?_eq_some_iff.mp hj
      have hstep : free[j] < free[j + 1] :=
        List.pairwise_iff_getElem.mp hsorted j (j + 1) (by omega) hlt (Nat.lt_succ_self j)
      have hle := ih (List.getElem?_eq_getElem (by omega))
      omega

theorem frameIndex_add_le (pages : List Nat) (hij : i ≤ j) :
    frameIndex pages i + (j - i) ≤ frameIndex pages j := by
  have hany : (pages.take i).any (512 ≤ ·) = true → (pages.take j).any (512 ≤ ·) = true := by
    rw [List.any_eq_true, List.any_eq_true]
    rintro ⟨page, hpage, hle⟩
    exact ⟨page, List.take_subset_take_left pages hij hpage, hle⟩
  unfold frameIndex
  grind

theorem frameIndex_le (pages : List Nat) (j : Nat) : frameIndex pages j ≤ j + 5 := by
  unfold frameIndex
  split <;> omega

/-- The places of the first pages do not depend on those behind. -/
theorem frameIndex_append (hj : j ≤ pages.length) (more : List Nat) :
    frameIndex (pages ++ more) j = frameIndex pages j := by
  rw [frameIndex, frameIndex, List.take_append_of_le_length hj]

theorem deal_snoc : deal free (pages ++ [page]) = (deal free pages).page page := by
  rw [deal, deal, List.foldl_append]
  rfl

/-- What is left of the free pages, and whether there is a second table. -/
theorem deal_frees (hroom : pages.length + 5 ≤ free.length) :
    (deal free pages).frees = free.drop (frameIndex pages pages.length) ∧
      ((deal free pages).high.isSome ↔ pages.any (512 ≤ ·) = true) := by
  induction pages using List.reverseRecOn with
  | nil => simp [deal, frameIndex]
  | append_singleton pages page ih =>
      rw [List.length_append, List.length_singleton] at hroom
      obtain ⟨hfrees, hhigh⟩ := ih (by omega)
      have hle := frameIndex_le pages pages.length
      obtain ⟨f, hf⟩ : ∃ f, (deal free pages).frees =
          f :: free.drop (frameIndex pages pages.length + 1) :=
        ⟨_, hfrees.trans (List.drop_eq_getElem_cons (by omega))⟩
      have hindex : frameIndex (pages ++ [page]) (pages ++ [page]).length =
          4 + (pages.length + 1) + if pages.any (512 ≤ ·) ∨ 512 ≤ page then 1 else 0 := by
        rw [frameIndex, List.take_length, List.length_append, List.length_singleton]
        simp
      have hindex' : frameIndex pages pages.length =
          4 + pages.length + if pages.any (512 ≤ ·) then 1 else 0 := by
        rw [frameIndex, List.take_length]
      have hany : (pages ++ [page]).any (512 ≤ ·) = true ↔ pages.any (512 ≤ ·) = true ∨ 512 ≤ page := by
        simp
      rw [deal_snoc, Deal.page, hf, hany, hindex]
      dsimp only
      by_cases hsecond : (deal free pages).high.isSome
      · -- the second table is there
        rw [if_pos (.inl hsecond), if_pos (.inl (hhigh.mp hsecond))]
        rw [if_pos (hhigh.mp hsecond)] at hindex'
        exact ⟨congrArg (free.drop ·) (by omega), iff_of_true hsecond (.inl (hhigh.mp hsecond))⟩
      · have hnone : ¬pages.any (512 ≤ ·) = true := mt hhigh.mpr hsecond
        rw [if_neg hnone] at hindex'
        by_cases hpage : page < 512
        · have hneither : ¬(pages.any (512 ≤ ·) = true ∨ 512 ≤ page) := by
            rintro (hsome | hge)
            · exact hnone hsome
            · omega
          rw [if_pos (.inr hpage), if_neg hneither]
          exact ⟨congrArg (free.drop ·) (by omega), iff_of_false hsecond hneither⟩
        · have hge : 512 ≤ page := Nat.not_lt.mp hpage
          have hhead : (free.drop (frameIndex pages pages.length + 1)).head?.isSome := by
            rw [List.head?_drop, List.getElem?_eq_getElem (by omega)]
            rfl
          rw [if_neg (not_or.mpr ⟨hsecond, hpage⟩), if_pos (.inr hge), List.drop_drop]
          exact ⟨congrArg (free.drop ·) (by omega), iff_of_true hhead (.inr hge)⟩

/-- Only the pages that were dealt got one. -/
theorem deal_frames_mem (h : (deal free pages).frames.lookup page = some f) : page ∈ pages := by
  induction pages using List.reverseRecOn with
  | nil => cases h
  | append_singleton pages last ih =>
      rw [deal_snoc, Deal.page] at h
      rw [List.mem_append, List.mem_singleton]
      grind

/-- **Places.** Where no page is dealt twice, each page gets the free page at its place. -/
theorem deal_frames (hroom : pages.length + 5 ≤ free.length) (hnodup : pages.Nodup)
    (hj : pages[j]? = some page) :
    (deal free pages).frames.lookup page = free[frameIndex pages j]? := by
  induction pages using List.reverseRecOn with
  | nil => simp at hj
  | append_singleton pages last ih =>
      rw [List.length_append, List.length_singleton] at hroom
      have hroom' : pages.length + 5 ≤ free.length := by omega
      obtain ⟨hfrees, -⟩ := deal_frees hroom'
      have hle := frameIndex_le pages pages.length
      have hlt : frameIndex pages pages.length < free.length := by omega
      rw [List.drop_eq_getElem_cons hlt] at hfrees
      rw [List.nodup_append] at hnodup
      have hframes : (deal free (pages ++ [last])).frames =
          (last, free[frameIndex pages pages.length]) :: (deal free pages).frames := by
        rw [deal_snoc, Deal.page_frames hfrees]
      rw [hframes]
      rcases Nat.lt_or_ge j pages.length with hlt | hge
      · rw [List.getElem?_append_left hlt] at hj
        have hne : (page == last) = false := by
          rw [beq_eq_false_iff_ne]
          exact hnodup.2.2 page (List.mem_of_getElem? hj) last (List.mem_singleton_self last)
        rw [List.lookup_cons, hne, frameIndex_append (Nat.le_of_lt hlt)]
        exact ih (by omega) hnodup.1 hj
      · rw [List.getElem?_append_right hge] at hj
        obtain ⟨hzero, hlast⟩ : j - pages.length = 0 ∧ last = page := by
          rw [List.getElem?_singleton] at hj
          split at hj <;> simp_all
        obtain rfl : j = pages.length := by omega
        rw [hlast, List.lookup_cons_self, frameIndex_append (le_refl _), List.getElem?_eq_getElem]

end Places

/-! ## Segments -/

/-- The number of pages of the segments before segment `i`. -/
def ProgramImage.offset (pgm : ProgramImage) (i : Nat) : Nat :=
  ((pgm.segments.take i).map Segment.count).sum

/-- The free pages at the places of the pages of a segment follow each other, for each segment. -/
def ProgramImage.Contiguous (pgm : ProgramImage) (free : List Nat) : Prop :=
  ∀ i seg, pgm.segments[i]? = some seg →
    ∃ f, ∀ k < seg.count, free[frameIndex pgm.pageNumbers (pgm.offset i + k)]? = some (f + k)

section Offsets

variable {segs : List Segment} {seg : Segment} {i j k : Nat}

theorem pageNumbers_getElem (hi : segs[i]? = some seg) (hk : k < seg.count) :
    (segs.flatMap fun seg => (List.range seg.count).map (seg.first + ·))[
      ((segs.take i).map Segment.count).sum + k]? = some (seg.first + k) := by
  induction segs generalizing i with
  | nil => simp at hi
  | cons head segs ih =>
      rw [List.flatMap_cons]
      cases i with
      | zero =>
          obtain rfl : head = seg := by simpa using hi
          rw [List.take_zero, List.map_nil, List.sum_nil, Nat.zero_add,
            List.getElem?_append_left (by simpa using hk)]
          simp [hk]
      | succ i =>
          rw [List.getElem?_cons_succ] at hi
          rw [List.take_succ_cons, List.map_cons, List.sum_cons, ← ih hi,
            List.getElem?_append_right (by simp; omega)]
          simp only [List.length_map, List.length_range]
          congr 1
          omega

/-- A segment comes behind those before it. -/
theorem offset_add_le (hi : segs[i]? = some seg) (hij : i < j) :
    ((segs.take i).map Segment.count).sum + seg.count ≤ ((segs.take j).map Segment.count).sum := by
  induction segs generalizing i j with
  | nil => simp at hi
  | cons head segs ih =>
      obtain ⟨j, rfl⟩ := Nat.exists_eq_succ_of_ne_zero (Nat.ne_zero_of_lt hij)
      cases i with
      | zero =>
          obtain rfl : head = seg := by simpa using hi
          simp
      | succ i =>
          rw [List.getElem?_cons_succ] at hi
          have hle := ih hi (Nat.lt_of_succ_lt_succ hij)
          simp only [List.take_succ_cons, List.map_cons, List.sum_cons]
          omega

theorem pageNumbers_nodup (h : segs.Pairwise Segment.Disjoint) :
    (segs.flatMap fun seg => (List.range seg.count).map (seg.first + ·)).Nodup := by
  rw [List.nodup_flatMap]
  refine ⟨fun seg _ => List.nodup_range.map fun a c hac => Nat.add_left_cancel hac, h.imp ?_⟩
  intro seg seg' hdisjoint page hpage hpage'
  obtain ⟨k, hk, rfl⟩ := List.mem_map.mp hpage
  obtain ⟨k', hk', heq⟩ := List.mem_map.mp hpage'
  exact hdisjoint k (List.mem_range.mp hk) k' (List.mem_range.mp hk') heq.symm

end Offsets

section Contiguous

variable {free : List Nat} {pgm : ProgramImage} {seg : Segment} {f i k : Nat}

/-- What a page of a segment gets. -/
theorem lookup_eq (hroom : pgm.pageNumbers.length + 5 ≤ free.length)
    (hdisjoint : pgm.segments.Pairwise Segment.Disjoint) (hi : pgm.segments[i]? = some seg)
    (hk : k < seg.count) :
    (deal free pgm.pageNumbers).frames.lookup (seg.first + k) =
      free[frameIndex pgm.pageNumbers (pgm.offset i + k)]? :=
  deal_frames hroom (pageNumbers_nodup hdisjoint) (pageNumbers_getElem hi hk)

theorem contiguous_iff (hroom : pgm.pageNumbers.length + 5 ≤ free.length)
    (hdisjoint : pgm.segments.Pairwise Segment.Disjoint) :
    pgm.Contiguous free ↔
      ∀ seg ∈ pgm.segments, ∃ f, seg.LiesAt (deal free pgm.pageNumbers) f := by
  constructor
  · intro h seg hseg
    obtain ⟨i, hi⟩ := List.mem_iff_getElem?.mp hseg
    obtain ⟨f, hf⟩ := h i seg hi
    exact ⟨f, fun k hk => (lookup_eq hroom hdisjoint hi hk).trans (hf k hk)⟩
  · intro h i seg hi
    obtain ⟨f, hf⟩ := h seg (List.mem_of_getElem? hi)
    exact ⟨f, fun k hk => (lookup_eq hroom hdisjoint hi hk).symm.trans (hf k hk)⟩

/-- Each page of a segment gets a free page. -/
theorem exists_place (hroom : pgm.pageNumbers.length + 5 ≤ free.length)
    (hi : pgm.segments[i]? = some seg) (hk : k < seg.count) :
    ∃ q, free[frameIndex pgm.pageNumbers (pgm.offset i + k)]? = some q := by
  obtain ⟨hlt, -⟩ := List.getElem?_eq_some_iff.mp (pageNumbers_getElem hi hk)
  have hlt' : pgm.offset i + k < pgm.pageNumbers.length := hlt
  have hle := frameIndex_le pgm.pageNumbers (pgm.offset i + k)
  exact ⟨_, List.getElem?_eq_getElem (by omega)⟩

/-- Later pages get later ones. -/
theorem place_gap {pages : List Nat} {m n f f' : Nat} (hsorted : free.Pairwise (· < ·)) (hmn : m ≤ n)
    (hm : free[frameIndex pages m]? = some f) (hn : free[frameIndex pages n]? = some f') :
    f + (n - m) ≤ f' := by
  have hindex := frameIndex_add_le pages hmn
  have hgap := sorted_gap hsorted (by omega) hm hn
  omega

/-- **A gap.** If the pages of a segment do not follow each other, its last page is out of reach
of what is written from the first pages of the segments on. -/
theorem exists_spared (hroom : pgm.pageNumbers.length + 5 ≤ free.length)
    (hsorted : free.Pairwise (· < ·)) (h : ¬pgm.Contiguous free) :
    ∃ i seg q, pgm.segments[i]? = some seg ∧ 1 < seg.count ∧
      free[frameIndex pgm.pageNumbers (pgm.offset i + (seg.count - 1))]? = some q ∧
      ∀ j seg' f, pgm.segments[j]? = some seg' → 0 < seg'.count →
        free[frameIndex pgm.pageNumbers (pgm.offset j)]? = some f → q < f ∨ f + seg'.count ≤ q := by
  by_contra hno
  refine h fun i seg hi => ?_
  rcases Nat.eq_zero_or_pos seg.count with hzero | hpos
  · exact ⟨0, fun k hk => absurd hk (by omega)⟩
  obtain ⟨f, hf⟩ := exists_place hroom hi hpos
  obtain ⟨q, hq⟩ := exists_place hroom hi (show seg.count - 1 < seg.count by omega)
  have hle := place_gap hsorted (by omega) hf hq
  by_cases hlast : q = f + (seg.count - 1)
  · -- between the first and the last page there is no room for a gap
    refine ⟨f, fun k hk => ?_⟩
    obtain ⟨q', hq'⟩ := exists_place hroom hi hk
    have hlow := place_gap hsorted (by omega) hf hq'
    have hhigh := place_gap hsorted (by omega) hq' hq
    rw [hq', Option.some_inj]
    omega
  · have hmany : seg.count ≠ 1 := by
      intro hone
      rw [hone] at hq hlast
      exact hlast (Option.some.inj (hq.symm.trans hf))
    refine absurd ⟨i, seg, q, hi, by omega, hq, fun j seg' f' hj hpos' hf' => ?_⟩ hno
    rcases Nat.lt_trichotomy i j with hij | rfl | hji
    · have hbehind := offset_add_le hi hij
      have hlow := place_gap hsorted (m := pgm.offset i + (seg.count - 1))
        (by unfold ProgramImage.offset at *; omega) hq hf'
      unfold ProgramImage.offset at hlow
      omega
    · have hseg := Option.some.inj (hi.symm.trans hj)
      have hsame := Option.some.inj (hf.symm.trans hf')
      rw [← hseg, ← hsame]
      omega
    · have hbefore := offset_add_le hj hji
      obtain ⟨q', hq'⟩ := exists_place hroom hj (show seg'.count - 1 < seg'.count by omega)
      have hlow := place_gap hsorted (by omega) hf' hq'
      have hhigh := place_gap hsorted (by unfold ProgramImage.offset at *; omega) hq' hq
      unfold ProgramImage.offset at hlow hhigh
      omega

end Contiguous

end Kernel
