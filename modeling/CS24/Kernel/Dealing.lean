import CS24.Kernel.KernelMap

/-!
# Which pages a process gets

`process_setup` gives each page of the segments the next free page.  Four pages before are
tables; from 2 MiB on another one is needed, and it comes behind the first page there.
`deal` says this of lists of free pages and of page numbers, without a look at memory, and
`Dealt` that it is what happens.
-/

namespace Kernel

open Bytes

/-- The number of the first page of a segment. -/
def Segment.first (seg : Segment) : Nat := seg.va / PAGESIZE

/-- The number of pages of a segment. -/
def Segment.count (seg : Segment) : Nat :=
  (seg.va + seg.size - seg.first * PAGESIZE + PAGESIZE - 1) / PAGESIZE

/-- The numbers of the pages of all segments, in the order in which they are mapped. -/
def ProgramImage.pageNumbers (pgm : ProgramImage) : List Nat :=
  pgm.segments.flatMap fun seg => (List.range seg.count).map (seg.first + ·)

/-- What was dealt: the pages of the first tables, the free pages that are left, the page of the
table for the addresses from 2 MiB on, and the pages with what they got, the last one first. -/
structure Deal where
  first : List Nat
  frees : List Nat
  high : Option Nat
  frames : List (Nat × Nat)
  deriving DecidableEq, Repr

/-- A page of a segment. -/
def Deal.page (d : Deal) (page : Nat) : Deal :=
  match d.frees with
  | [] => d
  | f :: rest =>
    if d.high.isSome ∨ page < 512 then
      { d with frees := rest, frames := (page, f) :: d.frames }
    else { d with frees := rest.drop 1, high := rest.head?, frames := (page, f) :: d.frames }

/-- The pages of an image, from the free pages before `process_setup`. -/
def deal (free pages : List Nat) : Deal :=
  pages.foldl Deal.page ⟨free.take 4, free.drop 4, none, []⟩

/-- The free pages that are left are enough for `n` pages. -/
def Deal.Room (d : Deal) (n : Nat) : Prop := n + (if d.high.isSome then 0 else 1) ≤ d.frees.length

theorem Deal.Room.page {d : Deal} {n page : Nat} (h : d.Room (n + 1)) : (d.page page).Room n := by
  obtain ⟨first, free, high, frames⟩ := d
  cases free with
  | nil => simp [Room] at h
  | cons f rest =>
      simp only [Room, List.length_cons] at h
      simp only [Deal.page]
      split
      · simp only [Room]
        omega
      · rename_i hcase
        rw [not_or, Bool.not_eq_true] at hcase
        simp only [hcase.1, Bool.false_eq_true, if_false] at h
        obtain ⟨q, rest, rfl⟩ := List.exists_cons_of_length_pos (show 0 < rest.length by omega)
        simp only [Room, List.head?_cons, Option.isSome_some, if_true, List.drop_one, List.tail_cons]
        simp only [List.length_cons] at h
        omega

/-- What was dealt to process `pid` is what its address space is made of. -/
structure Dealt (b : Build) (pid : Nat) (s : State) (use : Uses) (d : Deal) : Prop where
  owned : Owned b s use
  frees_eq : frees b s = d.frees
  first : ∀ p l region, use p = some (.table pid l region) → p ∈ d.first ∨ l = 0 ∧ region = 1
  low : ∃ p, use p = some (.table pid 0 0)
  high : ∀ p, d.high = some p ↔ use p = some (.table pid 0 1)
  frames : ∀ page f, d.frames.lookup page = some f ↔ use f = some (.leaf pid page)
  kernel : ∀ page, 1 ≤ page → page < 256 → HasEntry s use pid 0 page (kernelEntry page)

/-- The pages of process `pid` are as `kalloc` leaves them. -/
def Filled (pid : Nat) (s : State) (use : Uses) : Prop :=
  ∀ a page, use (a / PAGESIZE) = some (.leaf pid page) → s.mem a = 0xCC

/-- No page is lost. -/
def NoLost (use : Uses) : Prop := ∀ q, use q ≠ some .lost

theorem Deal.page_frames {d : Deal} {page f : Nat} {rest : List Nat} (h : d.frees = f :: rest) :
    (d.page page).frames = (page, f) :: d.frames := by
  rw [Deal.page, h]
  dsimp only
  split <;> rfl

section Walks

variable {b : Build} {s : State} {use : Uses} {pid va page p q level f : Nat} {rest : List Nat}

/-- Below the first gigabyte only a table at level 0 can be missing. -/
theorem Owned.arrives_low (h : Owned b s use) (hp : use p = some (.table pid 0 0)) (hva : va < 2 ^ 30)
    (hno : ∀ q, use q ≠ some (.table pid 0 (virtualPage va / 512))) :
    ∃ q it, Arrives s use pid va 1 q it := by
  obtain ⟨level, -, q, it, hit, -⟩ := h.vmiter_spec (h.hasRoot hp) (canonical_of_lt (hva.trans (by decide)))
  obtain ⟨r, hr, -⟩ : HasEntry s use pid 1 0 (p * PAGESIZE + 7) := by
    rcases h.linked p _ hp with ⟨hlevel, -⟩ | ⟨-, hentry⟩
    · cases hlevel
    · exact hentry
  have hregion : number va 1 / 512 = 0 := by
    simp only [number, virtualPage, PAGESIZE]
    omega
  have hle : level ≤ 1 := by
    by_contra hlt
    rcases hit.ends with hzero | hzero
    · omega
    · exact h.entry_ne_zero (by rw [hregion]; exact hr) hit.table (by omega) hzero
  have hne : level ≠ 0 := by
    rintro rfl
    have htable := hit.table
    rw [number_zero] at htable
    exact hno q htable
  obtain rfl : level = 1 := by omega
  exact ⟨q, it, hit⟩

/-- The number of a page below 4 MiB. -/
theorem virtualPage_mul' (hpage : page < 1024) : virtualPage (page * PAGESIZE) = page := by
  simp only [virtualPage, PAGESIZE]
  omega

theorem page_canonical (hpage : page < 1024) : vaIsCanonical (page * PAGESIZE) :=
  canonical_of_lt (by simp only [PAGESIZE]; omega)

theorem mapPage_of_mapped {s' : State} {result : Int} {table : Nat} (hf : frees b s = f :: rest)
    (hrun : memoryMap b table va (f * PAGESIZE) PTE_PWU (s.allocated f) = .ok (result, s')) :
    mapPage b table va s = .ok s' := by
  rw [mapPage, kalloc_cons hf]
  exact discard_ok hrun

end Walks

section Mapped

variable {b : Build} {s s' : State} {use use' : Uses} {pid page level f : Nat} {rest : List Nat}

/-- The contents of the pages of the process stay as they are. -/
theorem Mapped.mem_leaf (h : Mapped b pid page level f rest s use s' use') (hf : use f = none)
    {a page' : Nat} (ha : use (a / PAGESIZE) = some (.leaf pid page')) : s'.mem a = s.mem a := by
  refine h.mem a ?_ fun l region htable => ?_
  · rintro rfl
    cases hf.symm.trans ha
  · by_cases heq : page' = page
    · cases htable.symm.trans (h.retires _ (heq ▸ ha))
    · cases htable.symm.trans (h.keeps _ _ ha (by rintro ⟨⟩; exact heq rfl))

theorem Mapped.keepsFilled (h : Mapped b pid page level f rest s use s' use') (hf : use f = none)
    (hfilled : Filled pid s use) : Filled pid s' use' := by
  intro a page' ha
  rcases h.fresh _ _ ha with hold | heq | ⟨-, hlost⟩ | ⟨-, l, htable⟩
  · rw [h.mem_leaf hf hold]
    exact hfilled a page' hold
  · exact h.filled a heq
  · cases hlost
  · cases htable

/-- A page is lost only where it is mapped again. -/
theorem Mapped.noLost (h : Mapped b pid page level f rest s use s' use')
    (hnew : ∀ q, use q ≠ some (.leaf pid page)) (hno : NoLost use) : NoLost use' := by
  intro q hq
  rcases h.fresh q _ hq with hold | rfl | ⟨hleaf, -⟩ | ⟨-, l, htable⟩
  · exact hno q hold
  · cases h.leaf.symm.trans hq
  · exact hnew q hleaf
  · cases htable

end Mapped

namespace Dealt

variable {b : Build} {s s' : State} {use use' : Uses} {pid page level f : Nat} {rest : List Nat}
  {d : Deal}

/-- What is dealt when a page is mapped. -/
theorem of_mapped (h : Dealt b pid s use d) (hm : Mapped b pid page level f rest s use s' use')
    (hpage : 256 ≤ page) {high : Option Nat}
    (hhigh : ∀ p, high = some p ↔ use' p = some (.table pid 0 1))
    (hnew : ∀ p ∈ rest.take level, ∀ l region, use' p = some (.table pid l region) →
      l = 0 ∧ region = 1) :
    Dealt b pid s' use'
      { d with frees := rest.drop level, high := high, frames := (page, f) :: d.frames } where
  owned := hm.owned
  frees_eq := hm.frees_eq
  first := by
    intro p l region hp
    rcases hm.fresh p _ hp with hold | rfl | ⟨-, hlost⟩ | ⟨hmem, -⟩
    · exact h.first p l region hold
    · cases hm.leaf.symm.trans hp
    · cases hlost
    · exact .inr (hnew p hmem l region hp)
  low := by
    obtain ⟨p, hp⟩ := h.low
    exact ⟨p, hm.keeps p _ hp (by rintro ⟨⟩)⟩
  high := hhigh
  frames := by
    intro page' f'
    by_cases hpage : page' = page
    · subst hpage
      rw [List.lookup_cons_self, Option.some_inj]
      constructor
      · rintro rfl
        exact hm.leaf
      · intro hleaf
        exact hm.owned.leaf_unique hm.leaf hleaf
    · have hbeq : (page' == page) = false := by simpa using hpage
      rw [List.lookup_cons, hbeq, h.frames]
      constructor
      · intro hleaf
        exact hm.keeps f' _ hleaf (by rintro ⟨⟩; exact hpage rfl)
      · intro hleaf
        rcases hm.fresh f' _ hleaf with hold | rfl | ⟨-, hlost⟩ | ⟨-, l, htable⟩
        · exact hold
        · cases hm.leaf.symm.trans hleaf
          exact absurd rfl hpage
        · cases hlost
        · cases htable
  kernel := fun page' hpos hlt =>
    hm.entries pid page' _ (.inr (by omega)) (h.kernel page' hpos hlt)

/-- A page for which there is a table. -/
theorem mapPage_table (h : Dealt b pid s use d) (hpage : 256 ≤ page ∧ page < 1024) {p : Nat}
    (hp : use p = some (.table pid 0 (page / 512))) (hf : d.frees = f :: rest) :
    ∃ s' use', mapPage b (s.pagetable pid) (page * PAGESIZE) s = .ok s' ∧
      Mapped b pid page 0 f rest s use s' use' ∧ Dealt b pid s' use' (d.page page) := by
  have hfrees : frees b s = f :: rest := h.frees_eq.trans hf
  have hnumber := virtualPage_mul' hpage.2
  have hp' : use p = some (.table pid 0 (virtualPage (page * PAGESIZE) / 512)) := by rw [hnumber, hp]
  obtain ⟨s', use', hrun, hm⟩ := h.owned.mapped (arrives_table hp')
    (page_canonical hpage.2) (Nat.mul_mod_left ..) hfrees (Nat.zero_le _)
  rw [hnumber] at hm
  have hdeal : d.page page = { d with frees := rest.drop 0, frames := (page, f) :: d.frames } := by
    have hcase : d.high.isSome ∨ page < 512 := by
      by_cases hlow : page < 512
      · exact .inr hlow
      · rw [show page / 512 = 1 by omega] at hp
        rw [(h.high p).mpr hp]
        exact .inl rfl
    simp only [Deal.page, hf, if_pos hcase, List.drop_zero]
  refine ⟨s', use', mapPage_of_mapped hfrees hrun, hm, ?_⟩
  rw [hdeal]
  refine h.of_mapped hm hpage.1 (fun q => (h.high q).trans ?_) fun p hmem => by cases hmem
  constructor
  · exact fun hq => hm.keeps q _ hq (by rintro ⟨⟩)
  · intro hq
    rcases hm.fresh q _ hq with hold | rfl | ⟨-, hlost⟩ | ⟨hmem, -⟩
    · exact hold
    · cases hm.leaf.symm.trans hq
    · cases hlost
    · cases hmem

/-- The first page from 2 MiB on.  The table comes behind the page. -/
theorem mapPage_noTable (h : Dealt b pid s use d) (hpage : 512 ≤ page ∧ page < 1024)
    (hno : ∀ p, use p ≠ some (.table pid 0 1)) {q : Nat} (hf : d.frees = f :: q :: rest) :
    ∃ s' use', mapPage b (s.pagetable pid) (page * PAGESIZE) s = .ok s' ∧
      Mapped b pid page 1 f (q :: rest) s use s' use' ∧ Dealt b pid s' use' (d.page page) := by
  have hfrees : frees b s = f :: q :: rest := h.frees_eq.trans hf
  have hnumber := virtualPage_mul' hpage.2
  have hregion : page / 512 = 1 := by omega
  obtain ⟨p, hp⟩ := h.low
  have hva : page * PAGESIZE < 2 ^ 30 := by
    simp only [PAGESIZE]
    omega
  obtain ⟨r, it, hit⟩ := h.owned.arrives_low hp hva (by rwa [hnumber, hregion])
  obtain ⟨s', use', hrun, hm⟩ := h.owned.mapped hit (page_canonical hpage.2) (Nat.mul_mod_left ..)
    hfrees (Nat.le_add_left 1 _)
  rw [hnumber] at hm
  -- the new table is in the page behind
  have hq : use' q = some (.table pid 0 1) := by
    obtain ⟨p', hp'⟩ := hm.table
    rw [hregion] at hp'
    rcases hm.fresh p' _ hp' with hold | rfl | ⟨-, hlost⟩ | ⟨hmem, -⟩
    · exact absurd hold (hno p')
    · cases hm.leaf.symm.trans hp'
    · cases hlost
    · rw [List.take_succ_cons, List.take_zero, List.mem_singleton] at hmem
      rwa [← hmem]
  have hhigh : d.high = none := by
    by_contra hsome
    obtain ⟨p, hp⟩ := Option.ne_none_iff_exists'.mp hsome
    exact hno p ((h.high p).mp hp)
  have hdeal : d.page page =
      { d with frees := (q :: rest).drop 1, high := some q, frames := (page, f) :: d.frames } := by
    have hcase : ¬ (d.high.isSome ∨ page < 512) := by
      rw [hhigh]
      simp only [Option.isSome_none, Bool.false_eq_true, false_or]
      omega
    simp only [Deal.page, hf, if_neg hcase, List.head?_cons]
  refine ⟨s', use', mapPage_of_mapped hfrees hrun, hm, ?_⟩
  rw [hdeal]
  refine h.of_mapped hm (by omega) (fun p => ?_) fun p hmem l region hp => ?_
  · rw [Option.some_inj]
    constructor
    · rintro rfl
      exact hq
    · exact hm.owned.table_unique hq
  · rw [List.take_succ_cons, List.take_zero, List.mem_singleton] at hmem
    subst hmem
    cases hp.symm.trans hq
    exact ⟨rfl, rfl⟩

/-- **A page of a segment.** It gets the page that is dealt. -/
theorem mapPage (h : Dealt b pid s use d) (page : Nat) (hpage : 256 ≤ page ∧ page < 1024)
    (hroom : d.Room 1) :
    ∃ s' use' level f rest, mapPage b (s.pagetable pid) (page * PAGESIZE) s = .ok s' ∧
      frees b s = f :: rest ∧ Mapped b pid page level f rest s use s' use' ∧
      Dealt b pid s' use' (d.page page) := by
  obtain ⟨f, rest, hf⟩ : ∃ f rest, d.frees = f :: rest :=
    List.exists_cons_of_length_pos (Nat.lt_of_lt_of_le (Nat.lt_add_right _ Nat.one_pos) hroom)
  by_cases htable : ∃ p, use p = some (.table pid 0 (page / 512))
  · obtain ⟨p, hp⟩ := htable
    obtain ⟨s', use', hrun, hm, hdealt⟩ := h.mapPage_table hpage hp hf
    exact ⟨s', use', _, f, rest, hrun, h.frees_eq.trans hf, hm, hdealt⟩
  · obtain ⟨p, hp⟩ := h.low
    have hregion : page / 512 = 1 := by
      have hne : page / 512 ≠ 0 := fun hzero => htable ⟨p, by rw [hzero, hp]⟩
      omega
    have hno : ∀ p, use p ≠ some (.table pid 0 1) := fun p hp => htable ⟨p, by rwa [hregion]⟩
    have hhigh : d.high.isSome = false := by
      by_contra hsome
      obtain ⟨p, hp⟩ := Option.isSome_iff_exists.mp (Bool.of_not_eq_false hsome)
      exact hno p ((h.high p).mp hp)
    obtain ⟨q, rest, rfl⟩ : ∃ q rest', rest = q :: rest' := by
      refine List.exists_cons_of_length_pos (Nat.lt_of_succ_le ?_)
      rw [Deal.Room, hhigh, hf] at hroom
      simpa using hroom
    have hlow : 512 ≤ page := by omega
    obtain ⟨s', use', hrun, hm, hdealt⟩ := h.mapPage_noTable ⟨hlow, hpage.2⟩ hno hf
    exact ⟨s', use', _, f, _, hrun, h.frees_eq.trans hf, hm, hdealt⟩

/-- **The pages of the segments.** By induction on the list of pages. -/
theorem mapPages {pages : List Nat} {n : Nat} (h : Dealt b pid s use d)
    (hpages : ∀ page ∈ pages, 256 ≤ page ∧ page < 1024) (hroom : d.Room (n + pages.length)) :
    ∃ s' use', (pages.map (· * PAGESIZE)).foldlM
        (fun t a => Kernel.mapPage b (s.pagetable pid) a t) s = .ok s' ∧
      Dealt b pid s' use' (pages.foldl Deal.page d) ∧ (pages.foldl Deal.page d).Room n ∧
      Extends b pid s use s' use' ∧ (Filled pid s use → Filled pid s' use') ∧
      (pages.Nodup → (∀ page ∈ pages, d.frames.lookup page = none) → NoLost use → NoLost use') := by
  induction pages generalizing s use d with
  | nil => exact ⟨s, use, rfl, h, hroom, .refl h.owned, fun h => h, fun _ _ h => h⟩
  | cons page pages ih =>
      rw [List.length_cons, ← Nat.add_assoc] at hroom
      obtain ⟨s₁, use₁, level, f, rest, hrun, hf, hm, hdealt⟩ :=
        h.mapPage page (hpages page List.mem_cons_self)
          (Nat.le_trans (Nat.add_le_add_right (by omega) _) hroom)
      obtain ⟨s', use', hrun', hdealt', hroom', hextends', hfilled, hnoLost⟩ :=
        ih hdealt (fun page hpage => hpages page (List.mem_cons_of_mem _ hpage)) hroom.page
      have hpagetable : s₁.pagetable = s.pagetable := by rw [hm.same]
      refine ⟨s', use', ?_, hdealt', hroom', hm.extends.trans hextends',
        fun h' => hfilled (hm.keepsFilled (h.owned.unused hf) h'), ?_⟩
      · rw [List.map_cons, List.foldlM_cons, hrun]
        rw [hpagetable] at hrun'
        exact hrun'
      · intro hnodup hnew hno
        rw [List.nodup_cons] at hnodup
        refine hnoLost hnodup.2 (fun page' hpage' => ?_) (hm.noLost (fun q hq => ?_) hno)
        · have hne : (page' == page) = false := by
            rw [beq_eq_false_iff_ne]
            rintro rfl
            exact hnodup.1 hpage'
          rw [Deal.page_frames (h.frees_eq.symm.trans hf), List.lookup_cons, hne]
          exact hnew page' (List.mem_cons_of_mem _ hpage')
        · cases ((h.frames page q).mpr hq).symm.trans (hnew page List.mem_cons_self)

end Dealt

end Kernel
