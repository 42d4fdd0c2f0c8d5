import CS24.Kernel.Isolation

/-!
# A segment over a page table

The first page from 2 MiB on needs a table, and the table lies between the pages of the segment.
What is written to the segment from its first page on goes over the table then, so the data of a
program can be entries of its own page table.
-/

namespace Kernel

open Bytes System

section Written

variable {seg : Segment} {f i : Nat} {mem : Mem}

/-- A word of what was written. -/
theorem Segment.load64_written (hi : i + 8 ≤ seg.size) :
    load64 (seg.written f mem) (f * PAGESIZE + seg.va % PAGESIZE + i) =
      load64 (fun k => (seg.data[k]?).getD 0) i := by
  have hbyte : ∀ k < 8, seg.written f mem (f * PAGESIZE + seg.va % PAGESIZE + i + k) =
      (seg.data[i + k]?).getD 0 := by
    intro k hk
    rw [Nat.add_assoc]
    exact written_inside (by omega)
  have hfirst := hbyte 0 (by decide)
  rw [Nat.add_zero, Nat.add_zero] at hfirst
  simp only [load64, hfirst, hbyte 1 (by decide), hbyte 2 (by decide), hbyte 3 (by decide),
    hbyte 4 (by decide), hbyte 5 (by decide), hbyte 6 (by decide), hbyte 7 (by decide)]

/-- A word behind zeros. -/
theorem load64_padded (n : Nat) (data : List UInt8) :
    load64 (fun k => ((List.replicate n 0 ++ data)[k]?).getD 0) (n + i) =
      load64 (fun k => (data[k]?).getD 0) i := by
  have hbyte : ∀ k, (List.replicate n (0 : UInt8) ++ data)[n + k]? = data[k]? := by
    intro k
    rw [List.getElem?_append_right (by simp)]
    simp
  simp only [load64, Nat.add_assoc, hbyte]

end Written

section Last

variable {b : Build} {s t : State} {use : Uses} {pid page p f : Nat} {rest : List Nat} {d : Deal}

/-- A page is mapped by an entry of the last table, whatever is in the other entries. -/
theorem Dealt.mapPage_last (h : Dealt b pid s use d) (hkeep : KeepsFirst pid use s.mem t.mem)
    (hpagetable : t.pagetable pid = s.pagetable pid) (hrefcount : t.refcount = s.refcount)
    (hp : use p = some (.table pid 0 (page / 512))) (hpage : page < 1024)
    (hf : frees b t = f :: rest)
    (haddress : load64 t.mem (slot p (page % 512)) &&& PTE_PAMASK < 0x100000000) :
    Kernel.mapPage b (t.pagetable pid) (page * PAGESIZE) t = .ok { t.allocated f with
      mem := store64 (fill t.mem (f * PAGESIZE) 0xCC PAGESIZE) (slot p (page % 512)) (f * PAGESIZE + 7) } := by
  have hfree : Free b t f := mem_frees.mp (hf ▸ List.mem_cons_self)
  have hunused : use f = none := by
    by_contra hsome
    exact h.owned.used f hsome (hrefcount ▸ hfree.2)
  have hfill : ∀ {q u}, use q = some u → ∀ a, q * PAGESIZE ≤ a → a < q * PAGESIZE + PAGESIZE →
      (t.allocated f).mem a = t.mem a := by
    intro q u hq a ha ha'
    have hne : q ≠ f := by
      rintro rfl
      cases hunused.symm.trans hq
    refine fill_other ?_
    simp only [PAGESIZE] at ha ha' ⊢
    omega
  have hnumber := virtualPage_mul' hpage
  have hp' : use p = some (.table pid 0 (virtualPage (page * PAGESIZE) / 512)) := by rw [hnumber, hp]
  have hload : load64 (t.allocated f).mem (slot p (page % 512)) = load64 t.mem (slot p (page % 512)) :=
    load_slot_congr (Nat.mod_lt _ (by decide)) (hfill hp)
  have hkeep' : KeepsFirst pid use s.mem (t.allocated f).mem := fun q level region hq hfirst a ha ha' =>
    (hfill hq a ha ha').trans (hkeep q level region hq hfirst a ha ha')
  have hit := h.owned.vmiter_last (t := t.allocated f) hkeep' hpagetable hp' (page_canonical hpage)
    (by rw [entrySlot, number_zero, hnumber, hload]; exact haddress)
  have hmap := memoryMap_of_vmiter (b := b) (page * PAGESIZE) f 7 hp' hit (Nat.mul_mod_left ..)
    (free_bounds hfree).2 (.inr rfl)
  rw [hnumber] at hmap
  exact mapPage_of_mapped hf hmap

/-- The end of `process_setup` for one segment. -/
theorem finishSetup_single {pgm : ProgramImage} {seg : Segment} {table : Nat} {s₁ s₂ : State}
    (hsegs : pgm.segments = [seg]) (hinit : initSegment table s seg = .ok s₁)
    (hstack : mapPage b table (STACK_PAGE * PAGESIZE) s₁ = .ok s₂) :
    finishSetup b pid pgm table s =
      .ok { s₂ with procState := Function.update s₂.procState pid .runnable } := by
  have haddress : STACK_PAGE * PAGESIZE = MEMSIZE_VIRTUAL - PAGESIZE := rfl
  rw [haddress] at hstack
  have hsegments : [seg].foldlM (initSegment table) s = .ok s₁ := by
    rw [List.foldlM_cons, hinit]
    rfl
  rw [finishSetup, hsegs, hsegments, ok_bind, hstack]
  rfl

/-- The end of `process_setup` for one segment that goes over the last table: the stack is mapped. -/
theorem Dealt.finishSetup_last {pgm : ProgramImage} {seg : Segment} {mem : Mem} (h : Dealt b pid s use d)
    (hsegs : pgm.segments = [seg]) (hinit : initSegment (s.pagetable pid) s seg = .ok { s with mem := mem })
    (hkeep : KeepsFirst pid use s.mem mem) (hp : use p = some (.table pid 0 1)) (hf : d.frees = f :: rest)
    (haddress : load64 mem (slot p 255) &&& PTE_PAMASK < 0x100000000) :
    ∃ t, finishSetup b pid pgm (s.pagetable pid) s = .ok t ∧ t.pagetable = s.pagetable ∧
      t.procState pid = .runnable ∧
      t.mem = store64 (fill mem (f * PAGESIZE) 0xCC PAGESIZE) (slot p 255) (f * PAGESIZE + 7) := by
  have hf' : frees b { s with mem := mem } = f :: rest := (frees_congr rfl).trans (h.frees_eq.trans hf)
  have hstack := h.mapPage_last (t := { s with mem := mem }) hkeep rfl rfl hp
    (show STACK_PAGE < 1024 by decide) hf' haddress
  refine ⟨_, finishSetup_single hsegs hinit hstack, rfl, ?_, rfl⟩
  dsimp only
  exact Function.update_self ..

end Last

/-! ## An image that maps the kernel -/

/-- Two pages of zeros and an entry for the page at 0x40000. -/
@[irreducible] def strayData : List UInt8 := List.replicate 0x2000 0 ++ [7, 0, 4]

/-- Three pages around 2 MiB. -/
def straySegment : Segment := ⟨0x1FF000, 0x3000, strayData⟩

def strayImage : ProgramImage := ⟨false, [straySegment]⟩

/-- What the image is dealt.  The table lies in page 7, behind the pages 5 and 6 of the segment. -/
abbrev strayDeal : Deal := deal (bootFrees (kernelWith strayImage)) strayImage.pageNumbers

theorem strayDeal_eq : strayDeal.first = [1, 2, 3, 4] ∧ strayDeal.high = some 7 ∧
    strayDeal.frames.lookup 511 = some 5 ∧ strayDeal.frees.head? = some 9 := by
  decide +kernel

theorem strayData_length : straySegment.data.length = 0x2003 := by
  simp only [straySegment, strayData, List.length_append, List.length_replicate, List.length_cons,
    List.length_nil]

theorem stray_inRange : ∀ seg ∈ strayImage.segments, seg.InRange := by
  intro seg hseg
  obtain rfl : seg = straySegment := List.mem_singleton.mp hseg
  exact ⟨by decide, by decide⟩

/-- The entries of the table after the segment is written. -/
theorem stray_entry {mem : Mem} {i : Nat} (hi : i < 512) :
    load64 (straySegment.written 5 mem) (slot 7 i) =
      load64 (fun k => (([7, 0, 4] : List UInt8)[k]?).getD 0) (8 * i) := by
  have hslot : slot 7 i = 5 * PAGESIZE + straySegment.va % PAGESIZE + (0x2000 + 8 * i) := by
    simp only [slot, straySegment, PAGESIZE]
    omega
  have hsize : 0x2000 + 8 * i + 8 ≤ straySegment.size := by
    simp only [straySegment]
    omega
  rw [hslot, Segment.load64_written hsize, straySegment, strayData]
  exact load64_padded 0x2000 [7, 0, 4]

section Stray

variable {s : State} {use : Uses}

/-- The other tables are before the segment. -/
theorem stray_keeps (h : Dealt (kernelWith strayImage) 1 s use strayDeal) {mem : Mem}
    (hmem : ∀ a, a < 5 * PAGESIZE → mem a = s.mem a) : KeepsFirst 1 use s.mem mem := by
  intro p level region hp hfirst a ha ha'
  have hmem' := (h.first p level region hp).resolve_right hfirst
  rw [strayDeal_eq.1] at hmem'
  have hlt : p < 5 := by
    simp only [List.mem_cons, List.not_mem_nil, or_false] at hmem'
    omega
  refine hmem a ?_
  simp only [PAGESIZE] at ha' ⊢
  omega

/-- The rest of `process_setup`, after the segment went over the table. -/
theorem stray_finishSetup (h : Dealt (kernelWith strayImage) 1 s use strayDeal) :
    ∃ t, finishSetup (kernelWith strayImage) 1 strayImage (s.pagetable 1) s = .ok t ∧
      t.pagetable = s.pagetable ∧ t.procState 1 = .runnable ∧
      (∀ a, a < 5 * PAGESIZE → t.mem a = s.mem a) ∧ load64 t.mem (slot 7 0) = 0x40007 := by
  obtain ⟨-, hhigh, hlookup, hfrees⟩ := strayDeal_eq
  have htable : use 7 = some (.table 1 0 1) := (h.high 7).mp hhigh
  have hleaf : use 5 = some (.leaf 1 511) := (h.frames 511 5).mp hlookup
  have hinit : initSegment (s.pagetable 1) s straySegment =
      .ok { s with mem := straySegment.written 5 s.mem } := by
    have hva : vaIsCanonical straySegment.va := .inl (by decide)
    refine initSegment_of_translate (h.owned.translate hva hleaf) (by decide) (by decide) ?_
    rw [strayData_length]
    decide
  have hbefore : ∀ a, a < 5 * PAGESIZE → straySegment.written 5 s.mem a = s.mem a := by
    intro a ha
    refine Segment.written_outside ?_ (.inl ?_)
    · rw [strayData_length]
      decide
    · exact ha.trans_le (Nat.le_add_right _ _)
  obtain ⟨rest, hf⟩ := List.head?_eq_some_iff.mp hfrees
  have hentry : load64 (straySegment.written 5 s.mem) (slot 7 255) &&& PTE_PAMASK < 0x100000000 := by
    rw [stray_entry (by decide)]
    decide
  obtain ⟨t, hfinish, hpagetable, hrunnable, hmem⟩ :=
    h.finishSetup_last (show strayImage.segments = [straySegment] from rfl) hinit
      (stray_keeps h hbefore) htable hf hentry
  refine ⟨t, hfinish, hpagetable, hrunnable, fun a ha => ?_, ?_⟩
  · have hslot : 5 * PAGESIZE ≤ slot 7 255 := by decide
    rw [hmem, store64_other (.inl (ha.trans_le hslot)), fill_other (.inl (ha.trans (by decide)))]
    exact hbefore a ha
  · rw [hmem, load64_store64_apart (by decide), load_slot_fill (by decide) (by decide),
      stray_entry (by decide)]
    rfl

end Stray

/-- **The kernel for a process.** The kernel starts, and its process can access the page at
0x40000. -/
theorem stray_not_isolated : ∃ s,
    Reach (Booted (kernelWith strayImage) (some "program"))
      (Turn (kernelWith strayImage) fun _ => ValidAddress) s ∧
    (∀ seg ∈ strayImage.segments, seg.InRange ∧ seg.data.length ≤ seg.size) ∧
    UserMaps s 1 0x200000 (KERNEL_START_ADDR / PAGESIZE) ∧ ¬Isolated (kernelWith strayImage) s := by
  have hroom : strayImage.pageNumbers.length + 6 ≤
      (frees (kernelWith strayImage) (bootState fun _ => 0)).length := by decide +kernel
  obtain ⟨r, s, use, hsetup, hroot, hdealt, -⟩ :=
    processSetup_pages Owned.nothing (.nothing 1) (pageNumbers_range stray_inRange) hroom
  obtain ⟨t, hfinish, hpagetable, hrunnable, hbefore, hload⟩ := stray_finishSetup hdealt
  rw [hroot] at hfinish
  have hkeep := stray_keeps hdealt hbefore
  have hbooted := kernelStart_program rfl ((hsetup _ rfl).trans hfinish) hrunnable
    (kernelWith_check hdealt hkeep (congrFun hpagetable 1))
  have htable : use 7 = some (.table 1 0 (virtualPage 0x200000 / 512)) :=
    (hdealt.high 7).mp strayDeal_eq.2.1
  have hentry : load64 t.mem (entrySlot 0x200000 0 7) = KERNEL_START_ADDR / PAGESIZE * PAGESIZE + 7 := hload
  have hit := hdealt.owned.vmiter_last (t := { t with current := 1 }) hkeep (congrFun hpagetable 1) htable
    (by decide) (by rw [hentry]; decide)
  have hmaps : UserMaps { t with current := 1 } 1 0x200000 (KERNEL_START_ADDR / PAGESIZE) := by
    refine ⟨_, hit, ?_, ?_⟩
    · simp only [Vmiter.user, Vmiter.permissions, Vmiter.entry, hentry]
      decide
    · have hpa := (arrives_table (s := { t with current := 1 }) htable).pa_eq hentry (by decide) (.inr rfl)
      rw [hpa]
      decide
  refine ⟨_, .init hbooted, fun seg hseg => ⟨stray_inRange seg hseg, ?_⟩, hmaps, fun hisolated => ?_⟩
  · obtain rfl : seg = straySegment := List.mem_singleton.mp hseg
    rw [strayData_length]
    decide
  · exact (hisolated.harmless 1 _ _ hmaps (by decide)).not_image ⟨by decide, by decide⟩

end Kernel
