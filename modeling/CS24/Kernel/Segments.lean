import CS24.Kernel.Loading

/-!
# Writing the segments

Where the pages of a segment lie side by side in physical memory, the segment is written to
its own pages.
-/

namespace Kernel

open Bytes

/-- The pages of the segment got the pages from `f` on. -/
def Segment.LiesAt (seg : Segment) (d : Deal) (f : Nat) : Prop :=
  ∀ k < seg.count, d.frames.lookup (seg.first + k) = some (f + k)

/-- The segment is written to its own pages: they lie side by side, and the data end in the last
one. -/
def Segment.Fits (seg : Segment) (d : Deal) : Prop :=
  (∃ f, seg.LiesAt d f) ∧ seg.va % PAGESIZE + seg.data.length ≤ seg.count * PAGESIZE

/-- Two segments have no page in common. -/
def Segment.Disjoint (seg seg' : Segment) : Prop :=
  ∀ k < seg.count, ∀ k' < seg'.count, seg.first + k ≠ seg'.first + k'

/-- Memory after the segment is written from page `f` on. -/
def Segment.written (seg : Segment) (f : Nat) (mem : Mem) : Mem :=
  blit (fill mem (f * PAGESIZE + seg.va % PAGESIZE) 0 seg.size) (f * PAGESIZE + seg.va % PAGESIZE) seg.data

/-- The bytes of the segment are in the pages that it got. -/
def Segment.Loaded (seg : Segment) (d : Deal) (mem : Mem) : Prop :=
  ∀ i < seg.size, ∀ f, d.frames.lookup ((seg.va + i) / PAGESIZE) = some f →
    mem (f * PAGESIZE + (seg.va + i) % PAGESIZE) = (seg.data[i]?).getD 0

/-- Page `q` is one of those that the segment got. -/
def Segment.Has (seg : Segment) (d : Deal) (q : Nat) : Prop :=
  ∃ k < seg.count, d.frames.lookup (seg.first + k) = some q

section Segment

variable {seg : Segment} {d : Deal} {f : Nat} {mem : Mem}

theorem Segment.size_le (seg : Segment) :
    seg.va % PAGESIZE + seg.size ≤ seg.count * PAGESIZE := by
  simp only [count, first, PAGESIZE]
  omega

theorem Segment.eq_nil (hfits : seg.Fits d) (hcount : seg.count = 0) :
    seg.size = 0 ∧ seg.data = [] := by
  have hsize := seg.size_le
  have hdata := hfits.2
  rw [hcount, Nat.zero_mul] at hsize hdata
  exact ⟨by omega, List.eq_nil_of_length_eq_zero (by omega)⟩

/-- Other pages stay as they are. -/
theorem Segment.written_other (hdata : seg.va % PAGESIZE + seg.data.length ≤ seg.count * PAGESIZE)
    {a : Nat} (ha : a / PAGESIZE < f ∨ f + seg.count ≤ a / PAGESIZE) : seg.written f mem a = mem a := by
  have hout : ∀ n, seg.va % PAGESIZE + n ≤ seg.count * PAGESIZE →
      a < f * PAGESIZE + seg.va % PAGESIZE ∨ f * PAGESIZE + seg.va % PAGESIZE + n ≤ a := by
    intro n hn
    rcases ha with ha | ha
    · exact .inl (((Nat.div_lt_iff_lt_mul (by decide)).mp ha).trans_le (Nat.le_add_right _ _))
    · have hle := (Nat.le_div_iff_mul_le (by decide)).mp ha
      rw [Nat.add_mul] at hle
      rw [Nat.add_assoc]
      exact .inr ((Nat.add_le_add_left hn _).trans hle)
  exact (blit_other (hout _ hdata)).trans (fill_other (hout _ seg.size_le))

/-- The bytes of the segment. -/
theorem Segment.written_inside {i : Nat} (hi : i < seg.size) :
    seg.written f mem (f * PAGESIZE + seg.va % PAGESIZE + i) = (seg.data[i]?).getD 0 := by
  by_cases hdata : i < seg.data.length
  · rw [written, blit_inside hdata, List.getElem?_eq_getElem hdata, Option.getD_some]
  · rw [written, blit_other (by omega), fill_inside (by omega) (by omega),
      List.getElem?_eq_none (by omega), Option.getD_none]

/-- The page of a byte of the segment. -/
theorem Segment.byte_page {i : Nat} (hi : i < seg.size) :
    ∃ k < seg.count, (seg.va + i) / PAGESIZE = seg.first + k ∧
      (f + k) * PAGESIZE + (seg.va + i) % PAGESIZE = f * PAGESIZE + seg.va % PAGESIZE + i := by
  have hsize := seg.size_le
  refine ⟨(seg.va % PAGESIZE + i) / PAGESIZE, ?_, ?_, ?_⟩
  · rw [Nat.div_lt_iff_lt_mul (by decide)]
    omega
  · simp only [first, PAGESIZE]
    omega
  · rw [Nat.add_mul]
    simp only [PAGESIZE]
    omega

/-- A segment that is written is in its pages. -/
theorem Segment.loaded_written (hf : seg.LiesAt d f) : seg.Loaded d (seg.written f mem) := by
  intro i hi q hq
  obtain ⟨k, hk, hpage, haddress⟩ := seg.byte_page (f := f) hi
  rw [hpage, hf k hk, Option.some_inj] at hq
  rw [← hq, haddress, written_inside hi]

/-- A page that the segment did not get. -/
theorem Segment.not_has (hf : seg.LiesAt d f) {q : Nat} (hq : ¬ seg.Has d q) :
    q < f ∨ f + seg.count ≤ q := by
  by_contra hin
  refine hq ⟨q - f, by omega, ?_⟩
  rw [hf _ (by omega), Option.some_inj]
  omega

end Segment

section Init

variable {b : Build} {s : State} {use : Uses} {pid f : Nat} {d : Deal} {seg : Segment}

theorem memset_ok {ptr n : Nat} {c : UInt8} (h : n = 0 ∨ PAGESIZE ≤ ptr ∧ ptr + n ≤ MEMSIZE_PHYSICAL) :
    memset ptr c n s = .ok { s with mem := fill s.mem ptr c n } := by
  rcases h with rfl | h
  · have hfill : fill s.mem ptr c 0 = s.mem := funext fun a => fill_other (by omega)
    rw [memset, if_pos rfl, hfill]
  · by_cases hn : n = 0
    · have hfill : fill s.mem ptr c n = s.mem := funext fun a => fill_other (by omega)
      rw [memset, if_pos hn, hfill]
    · rw [memset, if_neg hn, if_pos h]

theorem memcpy_ok {ptr : Nat} {data : List UInt8}
    (h : data = [] ∨ PAGESIZE ≤ ptr ∧ ptr + data.length ≤ MEMSIZE_PHYSICAL) :
    memcpy ptr data s = .ok { s with mem := blit s.mem ptr data } := by
  have hnil : blit s.mem ptr [] = s.mem := funext fun a => blit_other (by simp; omega)
  rcases h with rfl | h
  · rw [memcpy, if_pos rfl, hnil]
  · by_cases hdata : data = []
    · rw [memcpy, if_pos hdata, hdata, hnil]
    · rw [memcpy, if_neg hdata, if_pos h]

/-- A segment is written to where its first address leads. -/
theorem initSegment_of_translate {table : Nat}
    (hptr : memoryVirtualToPhysical table seg.va s = .ok (f * PAGESIZE + seg.va % PAGESIZE)) (hf : 0 < f)
    (hsize : f * PAGESIZE + seg.va % PAGESIZE + seg.size ≤ MEMSIZE_PHYSICAL)
    (hdata : f * PAGESIZE + seg.va % PAGESIZE + seg.data.length ≤ MEMSIZE_PHYSICAL) :
    initSegment table s seg = .ok { s with mem := seg.written f s.mem } := by
  have hlow : PAGESIZE ≤ f * PAGESIZE + seg.va % PAGESIZE := by
    simp only [PAGESIZE]
    omega
  rw [initSegment, hptr]
  change (memset _ 0 seg.size s >>= fun s => memcpy _ seg.data s) = _
  rw [memset_ok (.inr ⟨hlow, hsize⟩)]
  exact memcpy_ok (.inr ⟨hlow, hdata⟩)

/-- **A segment.** It is written from its first page on. -/
theorem initSegment_spec (h : Owned b s use) (hroot : HasRoot s use pid)
    (hleaf : ∀ k < seg.count, use (f + k) = some (.leaf pid (seg.first + k)))
    (hfits : seg.Fits d) (hva : seg.va < 2 ^ 47) :
    initSegment (s.pagetable pid) s seg = .ok { s with mem := seg.written f s.mem } := by
  have hcanonical := canonical_of_lt hva
  have hsize := seg.size_le
  have hdata := hfits.2
  by_cases hcount : seg.count = 0
  · -- where there is nothing to write, it does not matter where
    obtain ⟨hnone, hnil⟩ := Segment.eq_nil hfits hcount
    obtain ⟨level, -, p, it, -, hvmiter⟩ := h.vmiter_spec hroot hcanonical
    have hsame : ∀ ptr, blit (fill s.mem ptr 0 seg.size) ptr seg.data = s.mem := by
      intro ptr
      funext a
      rw [hnil, hnone, blit_other (by simp; omega), fill_other (by omega)]
    obtain ⟨ptr, hptr⟩ : ∃ ptr, memoryVirtualToPhysical (s.pagetable pid) seg.va s = .ok ptr := by
      rw [memoryVirtualToPhysical, hvmiter]
      exact ⟨_, rfl⟩
    rw [Segment.written, hsame, initSegment, hptr]
    change (memset ptr 0 seg.size s >>= fun s => memcpy ptr seg.data s) = _
    rw [memset_ok (.inl hnone)]
    refine (memcpy_ok (.inl hnil)).trans ?_
    exact congrArg (fun mem => Except.ok { s with mem := mem }) (hsame _)
  · have hfirst : virtualPage seg.va = seg.first := by
      simp only [virtualPage, Segment.first, PAGESIZE]
      omega
    have hzero := hleaf 0 (by omega)
    have hbounds := h.bounds (Owned.use_ne_none hzero)
    have hlast := h.bounds (Owned.use_ne_none (hleaf (seg.count - 1) (by omega)))
    refine initSegment_of_translate (h.translate hcanonical (by rwa [hfirst])) hbounds.1 ?_ ?_ <;>
    · simp only [PAGESIZE, MEMSIZE_PHYSICAL] at hsize hdata hbounds ⊢
      omega

/-- **The segments.** Each is written to its own pages.  By induction on the list of segments. -/
theorem initSegments_spec {segs : List Segment} (h : Owned b s use) (hroot : HasRoot s use pid)
    (hframes : ∀ page f, d.frames.lookup page = some f → use f = some (.leaf pid page))
    (hfits : ∀ seg ∈ segs, seg.Fits d) (hva : ∀ seg ∈ segs, seg.va < 2 ^ 47) :
    ∃ mem, segs.foldlM (initSegment (s.pagetable pid)) s = .ok { s with mem := mem } ∧
      (∀ a, (∀ seg ∈ segs, ¬ seg.Has d (a / PAGESIZE)) → mem a = s.mem a) ∧
      (segs.Pairwise Segment.Disjoint → ∀ seg ∈ segs, seg.Loaded d mem) := by
  induction segs generalizing s with
  | nil => exact ⟨s.mem, rfl, fun _ _ => rfl, fun _ _ hseg => by cases hseg⟩
  | cons seg segs ih =>
      have hseg := hfits seg List.mem_cons_self
      obtain ⟨f, hf⟩ := hseg.1
      have hinit := initSegment_spec h hroot (fun k hk => hframes _ _ (hf k hk)) hseg
        (hva seg List.mem_cons_self)
      -- no table is among the pages of a segment
      have howned : Owned b { s with mem := seg.written f s.mem } use := by
        refine h.writes fun p pid' level region hp a ha ha' => ?_
        have hpage : a / PAGESIZE = p := by
          simp only [PAGESIZE] at ha ha' ⊢
          omega
        refine Segment.written_other hseg.2 (Segment.not_has hf ?_)
        rintro ⟨k, -, hk⟩
        rw [hpage] at hk
        cases hp.symm.trans (hframes _ _ hk)
      obtain ⟨mem, hrun, hother, hloaded⟩ := ih howned hroot
        (fun seg hseg => hfits seg (List.mem_cons_of_mem _ hseg))
        fun seg hseg => hva seg (List.mem_cons_of_mem _ hseg)
      refine ⟨mem, ?_, ?_, ?_⟩
      · rw [List.foldlM_cons, hinit]
        exact hrun
      · intro a ha
        rw [hother a fun seg hseg => ha seg (List.mem_cons_of_mem _ hseg)]
        exact Segment.written_other hseg.2 (Segment.not_has hf (ha seg List.mem_cons_self))
      · intro hdisjoint seg' hseg'
        rw [List.pairwise_cons] at hdisjoint
        rcases List.mem_cons.mp hseg' with rfl | hseg'
        · -- the segments behind are in other pages
          intro i hi q hq
          have hstays := hother (q * PAGESIZE + (seg'.va + i) % PAGESIZE) ?_
          · rw [hstays]
            exact Segment.loaded_written hf i hi q hq
          · have hpage : (q * PAGESIZE + (seg'.va + i) % PAGESIZE) / PAGESIZE = q := by
              simp only [PAGESIZE]
              omega
            rw [hpage]
            rintro other hmem ⟨k', hk', hq'⟩
            obtain ⟨k, hk, hpage', -⟩ := seg'.byte_page (f := f) hi
            have hsame := (hframes _ _ hq).symm.trans (hframes _ _ hq')
            rw [hpage'] at hsame
            exact hdisjoint.1 other hmem k hk k' hk' (Use.leaf.inj (Option.some.inj hsame)).2
        · exact hloaded hdisjoint.2 seg' hseg'

end Init

/-! ## The whole setup -/

/-- The number of the page of the stack. -/
abbrev STACK_PAGE : Nat := 767

section Setup

variable {b : Build} {s : State} {use : Uses} {pid : Nat} {d : Deal} {pgm : ProgramImage}

/-- Bytes outside the tables do not matter for the address space. -/
theorem Dealt.writes (h : Dealt b pid s use d) {mem : Mem} (hmem : KeepsTables use s.mem mem) :
    Dealt b pid { s with mem := mem } use d := by
  refine ⟨h.owned.writes hmem, h.frees_eq, h.first, h.low, h.high, h.frames, ?_⟩
  intro page hpos hlt
  obtain ⟨p, hp, he⟩ := h.kernel page hpos hlt
  exact ⟨p, hp, (load_slot_congr (Nat.mod_lt _ (by decide)) (hmem p _ _ _ hp)).trans he⟩

/-- What is written to pages of the process concerns nobody else. -/
theorem Dealt.writesLeaves (h : Dealt b pid s use d) {mem : Mem}
    (hmem : ∀ a, (∀ page, use (a / PAGESIZE) ≠ some (.leaf pid page)) → mem a = s.mem a) :
    Dealt b pid { s with mem := mem } use d ∧ Extends b pid s use { s with mem := mem } use := by
  have hkeeps : KeepsTables use s.mem mem := by
    intro p pid' level region hp a ha ha'
    have hpage : a / PAGESIZE = p := by
      simp only [PAGESIZE] at ha ha' ⊢
      omega
    refine hmem a fun page hleaf => ?_
    rw [hpage] at hleaf
    cases hp.symm.trans hleaf
  refine ⟨h.writes hkeeps, h.owned.writes hkeeps, fun _ _ hq _ => hq, fun _ _ hq => .inl hq,
    fun _ _ hq => .inl hq, fun _ _ => rfl, ?_, rfl⟩
  exact fun a ha => hmem a fun page hleaf => (ha _ hleaf).2 rfl

/-- The segments and the stack. -/
theorem finishSetup_spec (h : Dealt b pid s use d) (hroom : d.Room 1)
    (hfits : ∀ seg ∈ pgm.segments, seg.Fits d) (hva : ∀ seg ∈ pgm.segments, seg.va < 2 ^ 47) :
    ∃ s' use', finishSetup b pid pgm (s.pagetable pid) s =
        .ok { s' with procState := Function.update s'.procState pid .runnable } ∧
      Extends b pid s use s' use' ∧ Dealt b pid s' use' (d.page STACK_PAGE) ∧
      (pgm.segments.Pairwise Segment.Disjoint → ∀ seg ∈ pgm.segments, seg.Loaded d s'.mem) ∧
      (d.frames.lookup STACK_PAGE = none → NoLost use → NoLost use') := by
  obtain ⟨p, hp⟩ := h.low
  obtain ⟨mem, hrun, hother, hloaded⟩ := initSegments_spec h.owned (h.owned.hasRoot hp)
    (fun page f hf => (h.frames page f).mp hf) hfits hva
  obtain ⟨hdealt, hextends⟩ := h.writesLeaves fun a ha =>
    hother a fun seg _ ⟨k, _, hk⟩ => ha _ ((h.frames _ _).mp hk)
  obtain ⟨s', use', level, f, rest, hstack, hf, hm, hdealt'⟩ :=
    hdealt.mapPage STACK_PAGE (by decide) hroom
  have haddress : STACK_PAGE * PAGESIZE = MEMSIZE_VIRTUAL - PAGESIZE := rfl
  rw [haddress] at hstack
  refine ⟨s', use', ?_, hextends.trans hm.extends, hdealt', ?_, fun hnew hno =>
    hm.noLost (fun q hq => ?_) hno⟩
  · rw [finishSetup, hrun]
    rw [ok_bind, hstack]
    rfl
  · intro hdisjoint seg hseg i hi q hq
    rw [← hloaded hdisjoint seg hseg i hi q hq]
    have hpage : (q * PAGESIZE + (seg.va + i) % PAGESIZE) / PAGESIZE = q := by
      simp only [PAGESIZE]
      omega
    have hleaf := (h.frames _ _).mp hq
    rw [← hpage] at hleaf
    exact hm.mem_leaf (hdealt.owned.unused hf) hleaf
  · cases ((h.frames STACK_PAGE q).mpr hq).symm.trans hnew

end Setup

end Kernel
