import CS24.Kernel.Dealing

/-!
# Setting up a process

`process_setup` makes a table, maps the kernel, maps the pages of the segments, writes the
segments and maps the stack.  The segments are written to physical memory, each from the
address of its first page on.
-/

namespace Kernel

open Bytes

/-- Nothing in the record is of process `pid`. -/
def NoProcess (use : Uses) (pid : Nat) : Prop := ∀ q u, use q = some u → ¬ OfProcess pid u

/-- The state with page `r` as the table of process `pid`. -/
def State.withRoot (s : State) (pid r : Nat) : State :=
  { s with pagetable := Function.update s.pagetable pid (r * PAGESIZE) }

section Table

variable {b : Build} {s : State} {use : Uses} {pid r : Nat} {rest : List Nat}

/-- The table of the process is an empty page. -/
theorem kallocPagetable_spec (h : Owned b s use) (hno : NoProcess use pid) (hf : frees b s = r :: rest) :
    ∃ t, kallocPagetable b s = .ok (r * PAGESIZE, t) ∧
      Extends b pid (s.withRoot pid r) use (t.withRoot pid r) (relabel use r (.table pid 3 0)) ∧
      frees b t = rest ∧ load64 t.mem (slot r 0) = 0 := by
  have hfree : Free b s r := mem_frees.mp (hf ▸ List.mem_cons_self)
  have hbounds := free_bounds hfree
  have hunused := h.unused hf
  have hne : r * PAGESIZE ≠ 0 := by
    simp only [PAGESIZE]
    omega
  have hslot := slot_bounds (p := r) (show 0 < 512 by decide)
  refine ⟨{ s.allocated r with mem := fill (s.allocated r).mem (r * PAGESIZE) 0 PAGESIZE }, ?_,
    ⟨?_, ?_, ?_, ?_, ?_, ?_, rfl⟩, frees_allocated hf, load64_fill_zero hslot.1 hslot.2⟩
  · rw [kallocPagetable, kalloc_cons hf]
    simp only [hne, if_false]
    exact congrArg (· >>= _) (memset_page hbounds)
  · have htables : ∀ q level region, use q ≠ some (.table pid level region) :=
      fun q level region hq => hno q _ hq rfl
    have hroot : Owned b ((s.withRoot pid r).allocated r) (relabel use r .lost) :=
      (h.setsPagetable htables (r * PAGESIZE)).allocates hfree
    have howned := hroot.setsRoot (Function.update_self ..) relabel_self
    rwa [relabel_relabel] at howned
  · exact fun q u hq _ => relabel_keeps_none hunused hq
  · exact fun q page hq => absurd rfl (hno q _ hq)
  · intro q u hq
    rcases relabel_cases hq with ⟨-, rfl⟩ | ⟨-, hold⟩
    · exact .inr (.inl rfl)
    · exact .inl hold
  · intro q hq
    exact Function.update_of_ne (relabel_eq_none hq).1 ..
  · intro a ha
    have hne : a / PAGESIZE ≠ r := by
      intro heq
      rw [heq] at ha
      exact (ha _ relabel_self).2 rfl
    exact (fill_page_other hne).trans (fill_page_other hne)

/-- **The kernel's mappings.** After them the process has its table, the three tables for the
addresses below 2 MiB, and no pages. -/
theorem Grows.dealt {t s₁ : State} {use₁ : Uses} {p : Nat} (hgrows : Grows b pid 0 t use s₁ use₁ 3)
    (honly : ∀ q u, use q = some u → OfProcess pid u → q = r ∧ u = .table pid 3 0)
    (hp : use₁ p = some (.table pid 0 0))
    (hentries : ∀ page, 1 ≤ page → page < 256 → load64 s₁.mem (slot p page) = kernelEntry page) :
    Dealt b pid s₁ use₁ ⟨(r :: frees b t).take 4, (r :: frees b t).drop 4, none, []⟩ := by
  have hno : NoLeaf use pid := by
    intro q page hq
    cases (honly q _ hq rfl).2
  refine ⟨hgrows.owned, ?_, ?_, ⟨p, hp⟩, ?_, ?_, ?_⟩
  · rw [List.drop_succ_cons, hgrows.frees_eq]
  · intro q l region hq
    rw [List.take_succ_cons, List.mem_cons]
    rcases hgrows.fresh q _ hq with hold | ⟨hmem, -⟩
    · exact .inl (.inl (honly q _ hold rfl).1)
    · exact .inl (.inr hmem)
  · -- the tables are those for address 0
    intro q
    refine iff_of_false (by simp) fun hq => ?_
    rcases hgrows.fresh q _ hq with hold | ⟨-, level, hnew⟩
    · cases (honly q _ hold rfl).2
    · obtain ⟨-, rfl, hregion⟩ := Use.table.inj hnew
      cases hregion
  · intro page f
    exact iff_of_false (by simp) (hgrows.noLeaf hno f page)
  · intro page hpos hlt
    refine ⟨p, by rw [Nat.div_eq_of_lt (by omega), hp], ?_⟩
    rw [Nat.mod_eq_of_lt (by omega)]
    exact hentries page hpos hlt

end Table

section Pages

variable {b : Build} {s : State} {use : Uses} {pid : Nat} {pgm : ProgramImage}

/-- The pages of a segment, by their numbers. -/
theorem Segment.pages_eq (seg : Segment) :
    seg.pages = ((List.range seg.count).map (seg.first + ·)).map (· * PAGESIZE) := by
  rw [List.map_map]
  exact List.map_congr_left fun k _ => (Nat.add_mul seg.first k PAGESIZE).symm

theorem ProgramImage.pages_eq (pgm : ProgramImage) :
    pgm.segments.flatMap Segment.pages = pgm.pageNumbers.map (· * PAGESIZE) := by
  rw [pageNumbers, List.map_flatMap, funext Segment.pages_eq]

/-- What is left of `process_setup` after the pages of the segments are mapped. -/
def finishSetup (b : Build) (pid : Nat) (pgm : ProgramImage) (table : Nat) (s : State) :
    Except Panic State := do
  let s ← pgm.segments.foldlM (initSegment table) s
  let s ← mapPage b table (MEMSIZE_VIRTUAL - PAGESIZE) s
  .ok { s with procState := Function.update s.procState pid .runnable }

/-- **The pages.** The process has a table, the mappings of the kernel, and the pages that are
dealt to it. -/
theorem processSetup_pages (h : Owned b s use) (hno : NoProcess use pid)
    (hpages : ∀ page ∈ pgm.pageNumbers, 256 ≤ page ∧ page < 1024)
    (hroom : pgm.pageNumbers.length + 6 ≤ (frees b s).length) :
    ∃ r s' use', (∀ pgm' : ProgramImage, pgm'.pageNumbers = pgm.pageNumbers →
        processSetup b pid pgm' s = finishSetup b pid pgm' (r * PAGESIZE) s') ∧
      s'.pagetable pid = r * PAGESIZE ∧ Dealt b pid s' use' (deal (frees b s) pgm.pageNumbers) ∧
      (deal (frees b s) pgm.pageNumbers).Room 1 ∧ Extends b pid (s.withRoot pid r) use s' use' ∧
      Filled pid s' use' ∧ (pgm.pageNumbers.Nodup → NoLost use → NoLost use') := by
  obtain ⟨r, rest, hf⟩ : ∃ r rest, frees b s = r :: rest :=
    List.exists_cons_of_length_pos (by omega)
  rw [hf, List.length_cons] at hroom
  obtain ⟨t, hrun, hextends, hfrees, hzero⟩ := kallocPagetable_spec h hno hf
  have hfrees' : frees b (t.withRoot pid r) = rest := hfrees
  -- at first the table is all that the process has
  have honly : ∀ q u, relabel use r (.table pid 3 0) q = some u → OfProcess pid u →
      q = r ∧ u = .table pid 3 0 := by
    intro q u hq hu
    rcases relabel_cases hq with hroot | ⟨-, hold⟩
    · exact hroot
    · exact absurd hu (hno q u hold)
  have hno' : NoLeaf (relabel use r (.table pid 3 0)) pid := by
    intro q page hq
    cases (honly q _ hq rfl).2
  obtain ⟨s₁, use₁, p, hkernel, hgrows, hp, hentries⟩ :=
    mapKernel_spec hextends.owned relabel_self hzero hno' (by rw [hfrees']; omega)
  have htable : (t.withRoot pid r).pagetable pid = r * PAGESIZE := Function.update_self ..
  have hdealt := hgrows.dealt honly hp hentries
  rw [hfrees', ← hf] at hdealt
  have hroom₁ : Deal.Room ⟨(frees b s).take 4, (frees b s).drop 4, none, []⟩
      (1 + pgm.pageNumbers.length) := by
    simp only [Deal.Room, Option.isSome_none, Bool.false_eq_true, if_false, List.length_drop, hf,
      List.length_cons]
    omega
  obtain ⟨s', use', hmap, hdealt', hroom', hextends', hfilled, hnoLost⟩ :=
    hdealt.mapPages hpages hroom₁
  have hpagetable : s₁.pagetable pid = r * PAGESIZE := by
    rw [hgrows.pagetable_eq, htable]
  refine ⟨r, s', use', ?_, ?_, hdealt', hroom', (hextends.trans hgrows.extends).trans hextends',
    hfilled fun a page hleaf => absurd hleaf (hgrows.noLeaf hno' _ page),
    fun hnodup hno => hnoLost hnodup (fun _ _ => rfl) ?_⟩
  · intro pgm' hsame
    rw [processSetup, hrun]
    change (do
      let s ← mapKernel b (r * PAGESIZE) (t.withRoot pid r)
      let s ← (pgm'.segments.flatMap Segment.pages).foldlM (fun s a => mapPage b (r * PAGESIZE) a s) s
      finishSetup b pid pgm' (r * PAGESIZE) s) = _
    rw [htable] at hkernel
    rw [hpagetable] at hmap
    rw [hkernel, pgm'.pages_eq, hsame]
    change ((pgm.pageNumbers.map (· * PAGESIZE)).foldlM (fun t a => mapPage b (r * PAGESIZE) a t) s₁ >>=
      finishSetup b pid pgm' (r * PAGESIZE)) = _
    rw [hmap]
    rfl
  · rw [hextends'.same, ← hpagetable]
  · -- so far only tables were added
    intro q hq
    rcases hgrows.fresh q _ hq with hold | ⟨-, l, htable⟩
    · exact hno q (relabel_fresh (by rintro ⟨⟩) hold)
    · cases htable

end Pages

end Kernel
