import CS24.Kernel.Frames
import CS24.Kernel.Views
import CS24.Lib.Checked

/-!
# Images that are loaded

The pages of a segment come from wherever free pages are, but the segment is written in one
piece.  `process_setup` loads an image, whatever its data, exactly when the pages of each
segment follow each other in physical memory.  Otherwise the last page of a segment stays as
`kalloc` left it, and something else is written over.
-/

namespace Kernel

open Bytes

/-- The segment is in the part of the address space that is for segments. -/
def Segment.InRange (seg : Segment) : Prop :=
  PROC_START_ADDR ≤ seg.va ∧ seg.va + seg.size ≤ MEMSIZE_VIRTUAL - PAGESIZE

/-- `pgm'` has the segments of `pgm`, with data of its own. -/
def ProgramImage.SameLayout (pgm pgm' : ProgramImage) : Prop :=
  (pgm'.segments.map fun seg => (seg.va, seg.size)) = (pgm.segments.map fun seg => (seg.va, seg.size)) ∧
    ∀ seg ∈ pgm'.segments, seg.data.length ≤ seg.size

/-- `process_setup` loads the image: through the page table of the process the segments are read as
they should be, and pages that the process has nothing to do with stay as they were. -/
def Loads (b : Build) (pid : Nat) (pgm : ProgramImage) (s : State) : Prop :=
  ∃ s', processSetup b pid pgm s = .ok s' ∧
    (∀ seg ∈ pgm.segments, ∀ i < seg.size,
      readByte s' pid (seg.va + i) = some ((seg.data[i]?).getD 0)) ∧
    ∀ a, (∀ va, ¬UserMaps s' pid va (a / PAGESIZE)) →
      (∀ level, ¬TablePage s' pid level (a / PAGESIZE)) → s'.mem a = s.mem a

section Layout

variable {pgm pgm' : ProgramImage} {seg : Segment} {k : Nat}

/-- The pages of a segment in range are between the kernel and the stack, -/
theorem Segment.InRange.bounds (h : seg.InRange) (hk : k < seg.count) :
    256 ≤ seg.first + k ∧ seg.first + k < STACK_PAGE := by
  simp only [InRange, count, first, PROC_START_ADDR, MEMSIZE_VIRTUAL, PAGESIZE, STACK_PAGE] at *
  omega

/-- and in the lower half. -/
theorem Segment.InRange.va_lt (h : seg.InRange) : seg.va < 2 ^ 47 := by
  simp only [InRange, MEMSIZE_VIRTUAL, PAGESIZE] at h
  omega

/-- The pages of an image. -/
theorem pageNumbers_bounds (hrange : ∀ seg ∈ pgm.segments, seg.InRange) {page : Nat}
    (hpage : page ∈ pgm.pageNumbers) : 256 ≤ page ∧ page < STACK_PAGE := by
  obtain ⟨seg, hseg, hpage⟩ := List.mem_flatMap.mp hpage
  obtain ⟨k, hk, rfl⟩ := List.mem_map.mp hpage
  exact (hrange seg hseg).bounds (List.mem_range.mp hk)

/-- They are below 4 MiB. -/
theorem pageNumbers_range (hrange : ∀ seg ∈ pgm.segments, seg.InRange) :
    ∀ page ∈ pgm.pageNumbers, 256 ≤ page ∧ page < 1024 := by
  intro page hpage
  have hbounds := pageNumbers_bounds hrange hpage
  exact ⟨hbounds.1, hbounds.2.trans (by decide)⟩

/-- The page of the stack is none of them. -/
theorem lookup_stack (hrange : ∀ seg ∈ pgm.segments, seg.InRange) {free : List Nat} :
    (deal free pgm.pageNumbers).frames.lookup STACK_PAGE = none := by
  by_contra hsome
  obtain ⟨f, hf⟩ := Option.ne_none_iff_exists'.mp hsome
  exact lt_irrefl _ (pageNumbers_bounds hrange (deal_frames_mem hf)).2

/-- The pages of a process are those of its image and that of its stack. -/
theorem Dealt.leaf_mem {b : Build} {pid page q : Nat} {s : State} {use : Uses} {free : List Nat}
    (h : Dealt b pid s use ((deal free pgm.pageNumbers).page STACK_PAGE))
    (hq : use q = some (.leaf pid page)) : page ∈ pgm.pageNumbers ∨ page = STACK_PAGE := by
  have hlookup := (h.frames page q).mpr hq
  rw [← deal_snoc] at hlookup
  exact (List.mem_append.mp (deal_frames_mem hlookup)).imp_right List.mem_singleton.mp

/-- The data do not matter for the pages. -/
theorem ProgramImage.SameLayout.pageNumbers_eq (h : pgm.SameLayout pgm') :
    pgm'.pageNumbers = pgm.pageNumbers := by
  let pages : Nat × Nat → List Nat := fun x =>
    (List.range (Segment.mk x.1 x.2 []).count).map ((Segment.mk x.1 x.2 []).first + ·)
  have hpages : ∀ pgm : ProgramImage,
      pgm.pageNumbers = (pgm.segments.map fun seg => (seg.va, seg.size)).flatMap pages := by
    intro pgm
    rw [List.flatMap_map]
    rfl
  rw [hpages, hpages, h.1]

/-- What holds of the places and sizes of segments holds of those of the same layout, -/
theorem forall_layout {segs segs' : List Segment} {P : Nat → Nat → Prop}
    (h : (segs'.map fun seg => (seg.va, seg.size)) = segs.map fun seg => (seg.va, seg.size))
    (hP : ∀ seg ∈ segs, P seg.va seg.size) : ∀ seg ∈ segs', P seg.va seg.size := by
  intro seg hseg
  have hmem : (seg.va, seg.size) ∈ segs.map fun seg => (seg.va, seg.size) :=
    h ▸ List.mem_map_of_mem hseg
  obtain ⟨seg', hseg', heq⟩ := List.mem_map.mp hmem
  obtain ⟨hva, hsize⟩ := Prod.mk.inj heq
  exact hva ▸ hsize ▸ hP seg' hseg'

/-- for example that they are disjoint. -/
theorem ProgramImage.SameLayout.pairwise (h : pgm.SameLayout pgm')
    (hdisjoint : pgm.segments.Pairwise Segment.Disjoint) :
    pgm'.segments.Pairwise Segment.Disjoint := by
  have hpairs : ∀ pgm : ProgramImage, pgm.segments.Pairwise Segment.Disjoint ↔
      (pgm.segments.map fun seg => (seg.va, seg.size)).Pairwise fun x y =>
        Segment.Disjoint ⟨x.1, x.2, []⟩ ⟨y.1, y.2, []⟩ := by
    intro pgm
    rw [List.pairwise_map]
    rfl
  rw [hpairs, h.1, ← hpairs]
  exact hdisjoint

end Layout

/-! ## Images whose pages follow each other -/

section Contiguous

variable {b : Build} {s : State} {pid : Nat} {pgm : ProgramImage}

/-- Before the setup nothing has to be known of the pages. -/
theorem Owned.nothing : Owned b s fun _ => none where
  used := fun _ h => absurd rfl h
  allocatable := fun _ h => absurd rfl h
  entries := fun _ _ _ _ h => nomatch h
  linked := fun _ _ h => nomatch h

/-- No page is in use by a process when none is in use. -/
theorem NoProcess.nothing (pid : Nat) : NoProcess (fun _ => none) pid := fun _ _ h => nomatch h

/-- Segments that fit. -/
theorem Segment.fits_of_liesAt {seg : Segment} {d : Deal} (h : ∃ f, seg.LiesAt d f)
    (hdata : seg.data.length ≤ seg.size) : seg.Fits d :=
  ⟨h, (Nat.add_le_add_left hdata _).trans seg.size_le⟩

/-- **Loading.** If the pages of each segment follow each other, the image is loaded. -/
theorem loads_of_contiguous (hrange : ∀ seg ∈ pgm.segments, seg.InRange)
    (hdisjoint : pgm.segments.Pairwise Segment.Disjoint)
    (hdata : ∀ seg ∈ pgm.segments, seg.data.length ≤ seg.size)
    (hroom : pgm.pageNumbers.length + 6 ≤ (frees b s).length)
    (h : pgm.Contiguous (frees b s)) : Loads b pid pgm s := by
  have hbounds := pageNumbers_range hrange
  obtain ⟨r, s₁, use₁, hsetup, hroot, hdealt, hroom₁, hextends, -, hnoLost⟩ :=
    processSetup_pages Owned.nothing (.nothing pid) hbounds hroom
  rw [contiguous_iff (by omega) hdisjoint] at h
  obtain ⟨s₂, use₂, hfinish, hextends₂, hdealt₂, hloaded, hnoLost₂⟩ := finishSetup_spec hdealt hroom₁
    (fun seg hseg => Segment.fits_of_liesAt (h seg hseg) (hdata seg hseg))
    fun seg hseg => (hrange seg hseg).va_lt
  have hno : NoLost use₂ :=
    hnoLost₂ (lookup_stack hrange) (hnoLost (pageNumbers_nodup hdisjoint) fun _ h => nomatch h)
  have hleaf₂ : ∀ page f, (deal (frees b s) pgm.pageNumbers).frames.lookup page = some f →
      use₂ f = some (.leaf pid page) := by
    intro page f hf
    rcases hextends₂.leaves f page ((hdealt.frames page f).mp hf) with hleaf | hlost
    · exact hleaf
    · exact absurd hlost (hno f)
  refine ⟨_, (hsetup pgm rfl).trans (hroot ▸ hfinish), ?_, ?_⟩
  · intro seg hseg i hi
    have hpage : virtualPage (seg.va + i) = (seg.va + i) / PAGESIZE := by
      have := hrange seg hseg
      simp only [Segment.InRange, MEMSIZE_VIRTUAL, PAGESIZE] at this
      simp only [virtualPage, PAGESIZE]
      omega
    have hcanonical : vaIsCanonical (seg.va + i) := by
      have := hrange seg hseg
      simp only [Segment.InRange, MEMSIZE_VIRTUAL, PAGESIZE] at this
      exact canonical_of_lt (by omega)
    obtain ⟨f, hf⟩ := h seg hseg
    obtain ⟨k, hk, hpageOf, -⟩ := seg.byte_page (f := f) hi
    have hlookup := hf k hk
    rw [← hpageOf] at hlookup
    rw [← hloaded hdisjoint seg hseg i hi _ hlookup]
    exact hdealt₂.owned.readByte_eq hcanonical (by rw [hpage]; exact hleaf₂ _ _ hlookup)
  · intro a hmaps htables
    have howned : Owned b { s₂ with procState := Function.update s₂.procState pid .runnable } use₂ :=
      hdealt₂.owned.congr rfl rfl rfl rfl
    obtain ⟨p, hp⟩ := hdealt₂.low
    refine (hextends.trans hextends₂).mem a fun u hu => ?_
    exfalso
    rcases (hextends.trans hextends₂).fresh _ u hu with hold | hof | rfl
    · cases hold
    · cases u with
      | table pid' level region =>
          obtain rfl : pid' = pid := hof
          exact htables level ((howned.tablePage_iff (howned.hasRoot hp)).mpr ⟨region, hu⟩)
      | leaf pid' page =>
          obtain rfl : pid' = pid := hof
          have hlt : page < 1024 := by
            rcases hdealt₂.leaf_mem hu with hmem | rfl
            · exact (hbounds page hmem).2
            · decide
          refine hmaps (page * PAGESIZE) (howned.userMaps_of_leaf (page_canonical hlt) ?_)
          rw [virtualPage_mul' hlt]
          exact hu
      | viewer => exact hof
      | lost => exact hof
    · exact hno _ hu

end Contiguous

/-! ## Images with a gap -/

/-- Written from page `f` on, the data of the segment leave the tables as they are. -/
def Segment.Spares (seg : Segment) (f : Nat) (use : Uses) (mem : Mem) : Prop :=
  ∀ i < seg.size, ∀ pid level region,
    use ((f * PAGESIZE + seg.va % PAGESIZE + i) / PAGESIZE) = some (.table pid level region) →
    (seg.data[i]?).getD 0 = mem (f * PAGESIZE + seg.va % PAGESIZE + i)

section Gap

variable {b : Build} {s t : State} {use : Uses} {pid f : Nat} {seg : Segment} {mem mem' mem'' : Mem}

/-- `memset` fills memory, -/
theorem memset_eq {ptr n : Nat} {c : UInt8} (h : memset ptr c n s = .ok t) :
    t = { s with mem := fill s.mem ptr c n } := by
  unfold memset at h
  split_ifs at h with hn
  · subst hn
    have hfill : fill s.mem ptr c 0 = s.mem := funext fun a => fill_other (by omega)
    rw [hfill]
    exact (Except.ok.inj h).symm
  · exact (Except.ok.inj h).symm

/-- and `memcpy` writes data to it. -/
theorem memcpy_eq {ptr : Nat} {data : List UInt8} (h : memcpy ptr data s = .ok t) :
    t = { s with mem := blit s.mem ptr data } := by
  unfold memcpy at h
  split_ifs at h with hdata
  · subst hdata
    have hblit : blit s.mem ptr [] = s.mem := funext fun a => blit_other (by simp; omega)
    rw [hblit]
    exact (Except.ok.inj h).symm
  · exact (Except.ok.inj h).symm

/-- What two steps leave of the tables is left. -/
theorem KeepsTables.trans (h : KeepsTables use mem mem') (h' : KeepsTables use mem' mem'') :
    KeepsTables use mem mem'' := fun p pid level region hp a ha ha' =>
  (h' p pid level region hp a ha ha').trans (h p pid level region hp a ha ha')

/-- Nothing is written outside the segment. -/
theorem Segment.written_outside (hdata : seg.data.length ≤ seg.size) {a : Nat}
    (ha : a < f * PAGESIZE + seg.va % PAGESIZE ∨ f * PAGESIZE + seg.va % PAGESIZE + seg.size ≤ a) :
    seg.written f mem a = mem a :=
  (blit_other (by omega)).trans (fill_other ha)

/-- A segment that spares the tables does not write to them. -/
theorem Segment.Spares.keeps (h : seg.Spares f use mem) (hdata : seg.data.length ≤ seg.size) :
    KeepsTables use mem (seg.written f mem) := by
  intro p pid level region hp a ha ha'
  have hpage : a / PAGESIZE = p := by
    simp only [PAGESIZE] at ha ha' ⊢
    omega
  by_cases hin : f * PAGESIZE + seg.va % PAGESIZE ≤ a ∧ a < f * PAGESIZE + seg.va % PAGESIZE + seg.size
  · obtain ⟨i, rfl⟩ := Nat.exists_eq_add_of_le hin.1
    have hi : i < seg.size := by omega
    rw [written_inside hi]
    exact h i hi pid level region (by rw [hpage, hp])
  · exact written_outside hdata (by omega)

/-- An empty segment writes nothing. -/
theorem Segment.written_empty (hdata : seg.data.length ≤ seg.size) (hcount : seg.count = 0) :
    seg.written f mem = mem := by
  have hsize := seg.size_le
  rw [hcount, Nat.zero_mul] at hsize
  exact funext fun a => written_outside hdata (by omega)

/-- Whatever happens to be there, a segment is written from its first page on. -/
theorem initSegment_eq (h : Owned b s use) (hfirst : 0 < seg.count → use f = some (.leaf pid seg.first))
    (hdata : seg.data.length ≤ seg.size) (hva : seg.va < 2 ^ 47)
    (hrun : initSegment (s.pagetable pid) s seg = .ok t) :
    t = { s with mem := seg.written f s.mem } := by
  obtain ⟨ptr, hptr, hrun⟩ := Checked.bind_eq_ok hrun
  obtain ⟨t', hset, hcopy⟩ := Checked.bind_eq_ok hrun
  obtain rfl := memset_eq hset
  obtain rfl := memcpy_eq hcopy
  rcases Nat.eq_zero_or_pos seg.count with hzero | hpos
  · have hsize := seg.size_le
    rw [hzero, Nat.zero_mul] at hsize
    have hnil : seg.data = [] := List.eq_nil_of_length_eq_zero (by omega)
    rw [Segment.written_empty hdata hzero, hnil, show seg.size = 0 by omega]
    have hblit : blit (fill s.mem ptr 0 0) ptr [] = s.mem := funext fun a =>
      (blit_other (by simp; omega)).trans (fill_other (by omega))
    exact congrArg (fun mem => { s with mem := mem }) hblit
  · have hpage : virtualPage seg.va = seg.first := by
      simp only [virtualPage, Segment.first, PAGESIZE]
      omega
    have htranslate := h.translate (canonical_of_lt hva) (hpage.symm ▸ hfirst hpos)
    rw [hptr] at htranslate
    rw [Except.ok.inj htranslate]
    rfl

/-- The segments are written one after the other.  By induction on the list of segments. -/
theorem initSegments_eq {segs : List Segment} (start : Segment → Nat) (h : Owned b s use)
    (hfirst : ∀ seg ∈ segs, 0 < seg.count → use (start seg) = some (.leaf pid seg.first))
    (hdata : ∀ seg ∈ segs, seg.data.length ≤ seg.size) (hva : ∀ seg ∈ segs, seg.va < 2 ^ 47)
    (hspares : ∀ seg ∈ segs, seg.Spares (start seg) use s.mem)
    (hrun : segs.foldlM (initSegment (s.pagetable pid)) s = .ok t) :
    ∃ mem, t = { s with mem := mem } ∧ KeepsTables use s.mem mem ∧
      ∀ a, (∀ seg ∈ segs, 0 < seg.count →
        a / PAGESIZE < start seg ∨ start seg + seg.count ≤ a / PAGESIZE) → mem a = s.mem a := by
  induction segs generalizing s with
  | nil =>
      obtain rfl := Except.ok.inj hrun
      exact ⟨_, rfl, fun _ _ _ _ _ _ _ _ => rfl, fun _ _ => rfl⟩
  | cons seg segs ih =>
      rw [List.foldlM_cons] at hrun
      obtain ⟨s₁, hinit, hrun⟩ := Checked.bind_eq_ok hrun
      have hseg := List.mem_cons_self (a := seg) (l := segs)
      obtain rfl := initSegment_eq h (hfirst seg hseg) (hdata seg hseg) (hva seg hseg) hinit
      have hkeeps := (hspares seg hseg).keeps (hdata seg hseg)
      obtain ⟨mem, rfl, hkeeps', hother⟩ := ih (h.writes hkeeps)
        (fun seg hseg => hfirst seg (List.mem_cons_of_mem _ hseg))
        (fun seg hseg => hdata seg (List.mem_cons_of_mem _ hseg))
        (fun seg hseg => hva seg (List.mem_cons_of_mem _ hseg))
        (fun seg' hseg' i hi pid' level region htable => by
          refine (hspares seg' (List.mem_cons_of_mem _ hseg') i hi pid' level region htable).trans
            (hkeeps _ pid' level region htable _ ?_ ?_).symm
          · exact Nat.div_mul_le_self _ _
          · exact Nat.lt_div_mul_add (by decide)) hrun
      refine ⟨mem, rfl, hkeeps.trans hkeeps', fun a ha => ?_⟩
      rw [hother a fun seg hseg => ha seg (List.mem_cons_of_mem _ hseg)]
      rcases Nat.eq_zero_or_pos seg.count with hzero | hpos
      · exact congrFun (Segment.written_empty (hdata seg hseg) hzero) a
      · exact Segment.written_other ((Nat.add_le_add_left (hdata seg hseg) _).trans seg.size_le)
          (ha seg hseg hpos)

variable {d : Deal} {pgm : ProgramImage}

/-- A page of the process that nothing is written to is read as `kalloc` left it. -/
theorem finishSetup_spared (start : Segment → Nat) (h : Dealt b pid s use d) (hroom : d.Room 1)
    (hfilled : Filled pid s use)
    (hfirst : ∀ seg ∈ pgm.segments, 0 < seg.count → use (start seg) = some (.leaf pid seg.first))
    (hdata : ∀ seg ∈ pgm.segments, seg.data.length ≤ seg.size)
    (hva : ∀ seg ∈ pgm.segments, seg.va < 2 ^ 47)
    (hspares : ∀ seg ∈ pgm.segments, seg.Spares (start seg) use s.mem)
    (hrun : finishSetup b pid pgm (s.pagetable pid) s = .ok t) {va q : Nat} (hcanonical : vaIsCanonical va)
    (hq : use q = some (.leaf pid (virtualPage va))) (hstack : virtualPage va ≠ STACK_PAGE)
    (hspared : ∀ seg ∈ pgm.segments, 0 < seg.count → q < start seg ∨ start seg + seg.count ≤ q) :
    readByte t pid va = some 0xCC := by
  obtain ⟨s₁, hinit, hrun⟩ := Checked.bind_eq_ok hrun
  obtain ⟨mem, rfl, hkeeps, hother⟩ := initSegments_eq start h.owned hfirst hdata hva hspares hinit
  obtain ⟨s₂, use₂, level, f, rest, hmap, hf, hm, hdealt⟩ :=
    (h.writes hkeeps).mapPage STACK_PAGE (by decide) hroom
  obtain ⟨s₃, hmap', hrun⟩ := Checked.bind_eq_ok hrun
  obtain rfl : s₂ = s₃ := Except.ok.inj (hmap.symm.trans hmap')
  cases hrun
  have hq₂ : use₂ q = some (.leaf pid (virtualPage va)) := hm.keeps q _ hq fun heq =>
    hstack (Use.leaf.inj heq).2
  have hpage : (q * PAGESIZE + va % PAGESIZE) / PAGESIZE = q := by
    simp only [PAGESIZE]
    omega
  have hread : readByte s₂ pid va = some (s₂.mem (q * PAGESIZE + va % PAGESIZE)) :=
    hm.owned.readByte_eq hcanonical hq₂
  have hstays : s₂.mem (q * PAGESIZE + va % PAGESIZE) = mem (q * PAGESIZE + va % PAGESIZE) :=
    hm.mem_leaf ((h.owned.writes hkeeps).unused hf) (by rw [hpage]; exact hq)
  refine hread.trans (congrArg some (hstays.trans ?_))
  rw [hother _ (by rwa [hpage])]
  exact hfilled _ _ (by rw [hpage]; exact hq)

/-- No byte of a table is what `kalloc` fills pages with. -/
theorem Owned.table_byte_ne (h : Owned b s use) {a level region : Nat}
    (ha : use (a / PAGESIZE) = some (.table pid level region)) : s.mem a ≠ 0xCC := by
  have hslot : ∃ i < 512, ∃ k < 8, a = slot (a / PAGESIZE) i + k := by
    refine ⟨a % PAGESIZE / 8, ?_, a % 8, Nat.mod_lt _ (by decide), ?_⟩ <;>
      simp only [slot, PAGESIZE] <;> omega
  obtain ⟨i, hi, k, hk, ha'⟩ := hslot
  have hentry := h.entries _ pid level region ha i hi
  generalize hp : a / PAGESIZE = p at *
  have hsmall : ∃ q < 512, ∃ c < 8, load64 s.mem (slot p i) = q * PAGESIZE + c := by
    generalize load64 s.mem (slot p i) = e at hentry
    cases hentry with
    | absent => exact ⟨0, by decide, 0, by decide, rfl⟩
    | table hq => exact ⟨_, (h.bounds (Owned.use_ne_none hq)).2, 7, by decide, rfl⟩
    | kernel hkernel =>
        have hpage : region * 512 + i < 512 := hkernel.1.trans (by decide)
        rcases hkernel.2 with heq | ⟨-, heq⟩
        · exact ⟨_, hpage, 3, by decide, heq⟩
        · exact ⟨_, hpage, 7, by decide, heq⟩
    | leaf hq => exact ⟨_, (h.bounds (Owned.use_ne_none hq)).2, 7, by decide, rfl⟩
  obtain ⟨q, hq, c, hc, heq⟩ := hsmall
  intro hfill
  rw [ha'] at hfill
  have hbyte := congrArg UInt8.toNat hfill
  have hlt : ∀ j, (s.mem (slot p i + j)).toNat < 256 := fun j => (s.mem _).toNat_lt
  have h0 : (s.mem (slot p i)).toNat < 256 := (s.mem _).toNat_lt
  have h1 := hlt 1
  have h2 := hlt 2
  have h3 := hlt 3
  have h4 := hlt 4
  have h5 := hlt 5
  have h6 := hlt 6
  have hvalue : (0xCC : UInt8).toNat = 204 := rfl
  rw [hvalue] at hbyte
  simp only [load64, PAGESIZE] at heq
  rcases Nat.eq_zero_or_pos k with rfl | hpos
  · rw [Nat.add_zero] at hbyte
    omega
  · interval_cases k <;> omega

/-- The page that the first page of a segment got. -/
def Deal.start (d : Deal) (seg : Segment) : Nat := (d.frames.lookup seg.first).getD 0

/-- **A gap.** If the pages of a segment do not follow each other, the bytes of its last page are
wrong, as long as the tables stay as they are. -/
theorem not_loads_of_gap {s₁ : State} {use₁ : Uses}
    (hsetup : processSetup b pid pgm s = finishSetup b pid pgm (s₁.pagetable pid) s₁)
    (hdealt : Dealt b pid s₁ use₁ (deal (frees b s) pgm.pageNumbers))
    (hroom₁ : (deal (frees b s) pgm.pageNumbers).Room 1) (hfilled : Filled pid s₁ use₁)
    (hrange : ∀ seg ∈ pgm.segments, seg.InRange)
    (hdisjoint : pgm.segments.Pairwise Segment.Disjoint)
    (hdata : ∀ seg ∈ pgm.segments, seg.data.length ≤ seg.size)
    (hroom : pgm.pageNumbers.length + 6 ≤ (frees b s).length)
    (hspares : ∀ seg ∈ pgm.segments,
      seg.Spares ((deal (frees b s) pgm.pageNumbers).start seg) use₁ s₁.mem)
    (hbyte : ∀ seg ∈ pgm.segments, ∀ i < seg.size, (seg.data[i]?).getD 0 ≠ 0xCC)
    (h : ¬pgm.Contiguous (frees b s)) : ¬Loads b pid pgm s := by
  have hroom' : pgm.pageNumbers.length + 5 ≤ (frees b s).length := by omega
  have hlookup : ∀ {i seg k f}, pgm.segments[i]? = some seg → k < seg.count →
      (frees b s)[frameIndex pgm.pageNumbers (pgm.offset i + k)]? = some f →
      (deal (frees b s) pgm.pageNumbers).frames.lookup (seg.first + k) = some f :=
    fun hi hk hf => (lookup_eq hroom' hdisjoint hi hk).trans hf
  have hstart : ∀ seg ∈ pgm.segments, 0 < seg.count → ∃ i, pgm.segments[i]? = some seg ∧
      (frees b s)[frameIndex pgm.pageNumbers (pgm.offset i)]? =
        some ((deal (frees b s) pgm.pageNumbers).start seg) ∧
      (deal (frees b s) pgm.pageNumbers).frames.lookup seg.first =
        some ((deal (frees b s) pgm.pageNumbers).start seg) := by
    intro seg hseg hpos
    obtain ⟨i, hi⟩ := List.mem_iff_getElem?.mp hseg
    obtain ⟨f, hf⟩ := exists_place hroom' hi hpos
    have hfirst := hlookup hi hpos hf
    rw [Nat.add_zero] at hfirst hf
    have heq : (deal (frees b s) pgm.pageNumbers).start seg = f := by
      rw [Deal.start, hfirst, Option.getD_some]
    exact ⟨i, hi, heq ▸ hf, heq ▸ hfirst⟩
  obtain ⟨i, seg, q, hi, hcount, hq, hspared⟩ := exists_spared hroom' frees_sorted h
  have hseg := List.mem_of_getElem? hi
  have hin := hrange seg hseg
  -- the last byte of the segment is in its last page
  have hsize : 0 < seg.size ∧ (seg.va + (seg.size - 1)) / PAGESIZE = seg.first + (seg.count - 1) := by
    simp only [Segment.count, Segment.first, PAGESIZE] at hcount ⊢
    omega
  have hpage : virtualPage (seg.va + (seg.size - 1)) = seg.first + (seg.count - 1) := by
    rw [← hsize.2]
    simp only [Segment.InRange, MEMSIZE_VIRTUAL, PAGESIZE] at hin
    simp only [virtualPage, PAGESIZE]
    omega
  have hcanonical : vaIsCanonical (seg.va + (seg.size - 1)) := by
    simp only [Segment.InRange, MEMSIZE_VIRTUAL, PAGESIZE] at hin
    exact canonical_of_lt (by omega)
  have hlast := (hdealt.frames _ _).mp (hlookup hi (show seg.count - 1 < seg.count by omega) hq)
  have hbounds := hin.bounds (show seg.count - 1 < seg.count by omega)
  rintro ⟨t, hrun, hread, -⟩
  rw [hsetup] at hrun
  have hfill := finishSetup_spared (deal (frees b s) pgm.pageNumbers).start hdealt hroom₁ hfilled
    (fun seg hseg hpos => by
      obtain ⟨-, -, -, hfirst⟩ := hstart seg hseg hpos
      exact (hdealt.frames _ _).mp hfirst)
    hdata (fun seg hseg => (hrange seg hseg).va_lt) hspares hrun hcanonical (by rw [hpage]; exact hlast)
    (by rw [hpage]; exact ne_of_lt hbounds.2)
    (fun seg' hseg' hpos => by
      obtain ⟨j, hj, hf, -⟩ := hstart seg' hseg' hpos
      exact hspared j seg' _ hj hpos hf)
  have hvalue := hread seg hseg (seg.size - 1) (by omega)
  rw [hfill] at hvalue
  exact hbyte seg hseg (seg.size - 1) (by omega) (Option.some.inj hvalue).symm

/-- With a gap some data are not loaded: those that are written over the tables as they are, and
elsewhere are zero. -/
theorem exists_not_loads (hrange : ∀ seg ∈ pgm.segments, seg.InRange)
    (hdisjoint : pgm.segments.Pairwise Segment.Disjoint)
    (hroom : pgm.pageNumbers.length + 6 ≤ (frees b s).length)
    (h : ¬pgm.Contiguous (frees b s)) : ∃ pgm', pgm.SameLayout pgm' ∧ ¬Loads b pid pgm' s := by
  classical
  have hbounds := pageNumbers_range hrange
  obtain ⟨r, s₁, use₁, hsetup, hroot, hdealt, hroom₁, -, hfilled, -⟩ :=
    processSetup_pages Owned.nothing (.nothing pid) hbounds hroom
  let address : Segment → Nat → Nat := fun seg i =>
    (deal (frees b s) pgm.pageNumbers).start seg * PAGESIZE + seg.va % PAGESIZE + i
  let data : Segment → List UInt8 := fun seg => (List.range seg.size).map fun i =>
    if ∃ pid level region, use₁ (address seg i / PAGESIZE) = some (.table pid level region) then
      s₁.mem (address seg i) else 0
  let pgm' : ProgramImage :=
    { pgm with segments := pgm.segments.map fun seg => { seg with data := data seg } }
  have hsame : pgm.SameLayout pgm' := by
    refine ⟨List.map_map, fun seg' hseg' => ?_⟩
    obtain ⟨seg, -, rfl⟩ := List.mem_map.mp hseg'
    exact le_of_eq (by simp [data])
  have hvalue : ∀ seg i, i < seg.size → ((data seg)[i]?).getD 0 =
      if ∃ pid level region, use₁ (address seg i / PAGESIZE) = some (.table pid level region) then
        s₁.mem (address seg i) else 0 := by
    intro seg i hi
    simp [data, hi]
  have hpages := hsame.pageNumbers_eq
  refine ⟨pgm', hsame, not_loads_of_gap ((hsetup pgm' hpages).trans (by rw [hroot])) (hpages ▸ hdealt)
    (hpages ▸ hroom₁) hfilled (forall_layout (P := fun va size => Segment.InRange ⟨va, size, []⟩)
    hsame.1 hrange) (hsame.pairwise hdisjoint) hsame.2 (hpages ▸ hroom) ?_ ?_ ?_⟩
  · intro seg' hseg' i hi pid' level region htable
    obtain ⟨seg, hseg, rfl⟩ := List.mem_map.mp hseg'
    rw [hpages] at htable ⊢
    exact (hvalue seg i hi).trans (if_pos ⟨pid', level, region, htable⟩)
  · intro seg' hseg' i hi
    obtain ⟨seg, hseg, rfl⟩ := List.mem_map.mp hseg'
    rw [hvalue seg i hi]
    split
    · rename_i htable
      obtain ⟨pid', level, region, htable⟩ := htable
      exact hdealt.owned.table_byte_ne htable
    · decide
  · rw [contiguous_iff (by rw [hpages]; omega) (hsame.pairwise hdisjoint), hpages]
    rw [contiguous_iff (by omega) hdisjoint] at h
    exact fun h' => h (forall_layout (P := fun va size =>
      ∃ f, Segment.LiesAt ⟨va, size, []⟩ (deal (frees b s) pgm.pageNumbers) f) hsame.1.symm h')

end Gap

/-- **`process_setup` loads an image**, whatever its data, exactly when the pages of each segment
follow each other in physical memory. -/
theorem processSetup_loads_iff {b : Build} {pid : Nat} {pgm : ProgramImage} {s : State}
    (hrange : ∀ seg ∈ pgm.segments, seg.InRange)
    (hdisjoint : pgm.segments.Pairwise Segment.Disjoint)
    (hroom : pgm.pageNumbers.length + 6 ≤ (frees b s).length) :
    (∀ pgm', pgm.SameLayout pgm' → Loads b pid pgm' s) ↔ pgm.Contiguous (frees b s) := by
  constructor
  · intro h
    by_contra hgap
    obtain ⟨pgm', hsame, hnot⟩ := exists_not_loads hrange hdisjoint hroom hgap
    exact hnot (h pgm' hsame)
  · intro h pgm' hsame
    have hpages := hsame.pageNumbers_eq
    refine loads_of_contiguous (forall_layout (P := fun va size => Segment.InRange ⟨va, size, []⟩)
      hsame.1 hrange) (hsame.pairwise hdisjoint) hsame.2 (hpages ▸ hroom) ?_
    rw [contiguous_iff (by rw [hpages]; omega) (hsame.pairwise hdisjoint), hpages]
    rw [contiguous_iff (by omega) hdisjoint] at h
    exact forall_layout (P := fun va size =>
      ∃ f, Segment.LiesAt ⟨va, size, []⟩ (deal (frees b s) pgm.pageNumbers) f) hsame.1 h

/-! ## A kernel of 64 KiB -/

/-- A kernel that ends 64 KiB behind its start, with one program. -/
def kernelWith (image : ProgramImage) : Build := ⟨0x50000, 0x40000, 0x41000, fun _ => image⟩

/-- What `kernel_start` begins with. -/
def bootState (mem : Mem) : State := ⟨mem, fun _ => 0, fun _ => 0, fun _ => .free, 0, 0⟩

/-- Two pages, with data in the first one. -/
def smallImage : ProgramImage := ⟨false, [⟨0x100000, 0x2000, [0xC3]⟩]⟩

theorem smallImage_loads :
    (∀ pgm', smallImage.SameLayout pgm' → Loads (kernelWith smallImage) 1 pgm' (bootState fun _ => 0)) ↔
      smallImage.Contiguous (frees (kernelWith smallImage) (bootState fun _ => 0)) :=
  processSetup_loads_iff (by simp [smallImage, Segment.InRange, MEMSIZE_VIRTUAL, PAGESIZE])
    (List.pairwise_singleton ..)
    (by decide +kernel)

/-- 80 pages without data. -/
def largeImage : ProgramImage := ⟨false, [⟨0x100000, 0x50000, []⟩]⟩

/-- The 60th page of the segment lies behind the kernel, and is not set to zero. -/
theorem largeImage_not_loaded : ¬Loads (kernelWith largeImage) 1 largeImage (bootState fun _ => 0) := by
  have hrange : ∀ seg ∈ largeImage.segments, seg.InRange := by
    simp [largeImage, Segment.InRange, MEMSIZE_VIRTUAL, PAGESIZE]
  have hroom : largeImage.pageNumbers.length + 6 ≤
      (frees (kernelWith largeImage) (bootState fun _ => 0)).length := by decide +kernel
  have hbounds := pageNumbers_range hrange
  obtain ⟨r, s₁, use₁, hsetup, hroot, hdealt, hroom₁, hextends, hfilled, -⟩ :=
    processSetup_pages Owned.nothing (.nothing 1) hbounds hroom
  have hdeal : (deal (frees (kernelWith largeImage) (bootState fun _ => 0))
        largeImage.pageNumbers).first = [1, 2, 3, 4] ∧
      (deal (frees (kernelWith largeImage) (bootState fun _ => 0))
        largeImage.pageNumbers).high = none ∧
      (deal (frees (kernelWith largeImage) (bootState fun _ => 0))
        largeImage.pageNumbers).start ⟨0x100000, 0x50000, []⟩ = 5 := by decide +kernel
  refine not_loads_of_gap ((hsetup _ rfl).trans (by rw [hroot])) hdealt hroom₁ hfilled hrange
    (List.pairwise_singleton ..) (by simp [largeImage]) hroom ?_ ?_ ?_
  · -- the tables are below the pages of the segment
    intro seg hseg i hi pid level region htable
    obtain rfl : seg = ⟨0x100000, 0x50000, []⟩ := by simpa [largeImage] using hseg
    rw [hdeal.2.2] at htable
    rcases hextends.fresh _ _ htable with hnone | hpid | hlost
    · cases hnone
    · obtain rfl : pid = 1 := hpid
      rcases hdealt.first _ level region htable with hmem | ⟨rfl, rfl⟩
      · rw [hdeal.1] at hmem
        have hpage : 5 ≤ (5 * PAGESIZE + 0x100000 % PAGESIZE + i) / PAGESIZE := by
          simp only [PAGESIZE]
          omega
        simp only [List.mem_cons, List.not_mem_nil, or_false] at hmem
        omega
      · cases hdeal.2.1.symm.trans ((hdealt.high _).mpr htable)
    · cases hlost
  · intro seg hseg i hi
    obtain rfl : seg = ⟨0x100000, 0x50000, []⟩ := by simpa [largeImage] using hseg
    simp
  · intro h
    obtain ⟨f, hf⟩ := h 0 ⟨0x100000, 0x50000, []⟩ rfl
    have hlast : (frees (kernelWith largeImage) (bootState fun _ => 0))[
        frameIndex largeImage.pageNumbers (largeImage.offset 0 + 58)]? = some 63 := by decide +kernel
    have hnext : (frees (kernelWith largeImage) (bootState fun _ => 0))[
        frameIndex largeImage.pageNumbers (largeImage.offset 0 + 59)]? = some 80 := by decide +kernel
    have h58 := Option.some.inj (hlast.symm.trans (hf 58 (by decide)))
    have h59 := Option.some.inj (hnext.symm.trans (hf 59 (by decide)))
    omega

end Kernel
