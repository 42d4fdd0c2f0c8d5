import CS24.Kernel.Start

/-!
# Kernels with one program

If the image is placed and the kernel's addresses are below `PROC_START_ADDR`, the kernel gets
to its first process: the check of its page table finds the kernel where it is.  An image without
segments is placed, and what its process can do to the kernel shows what system calls check.
-/

namespace Kernel

open Bytes System

/-- Memory stays as it is in the tables of process `pid`, but for the one for the addresses from
2 MiB on. -/
def KeepsFirst (pid : Nat) (use : Uses) (mem mem' : Mem) : Prop :=
  ∀ p level region, use p = some (.table pid level region) → ¬(level = 0 ∧ region = 1) →
    ∀ a, p * PAGESIZE ≤ a → a < p * PAGESIZE + PAGESIZE → mem' a = mem a

section Check

variable {b : Build} {s t : State} {use : Uses} {pid va p : Nat} {d : Deal}

theorem KeepsFirst.load (hkeep : KeepsFirst pid use s.mem t.mem) {level : Nat}
    (hp : use p = some (.table pid level (number va level / 512)))
    (hfirst : ¬(level = 0 ∧ number va level / 512 = 1)) :
    load64 t.mem (entrySlot va level p) = load64 s.mem (entrySlot va level p) :=
  load_slot_congr (Nat.mod_lt _ (by decide)) (hkeep p level _ hp hfirst)

/-- **Walks** in tables of which the last one may be anything.  By induction on the level. -/
theorem Owned.down_last (h : Owned b s use) (hkeep : KeepsFirst pid use s.mem t.mem)
    (hp : use p = some (.table pid 0 (number va 0 / 512)))
    (haddress : load64 t.mem (entrySlot va 0 p) &&& PTE_PAMASK < 0x100000000) {level q pt : Nat}
    (hq : use q = some (.table pid level (number va level / 512))) :
    down t.mem pt va level (entrySlot va level q) 0xFFF =
      .ok ⟨pt, some (entrySlot va 0 p), 0, 0xFFF, va⟩ := by
  induction level generalizing q with
  | zero =>
      obtain rfl := h.table_unique hp hq
      exact down_zero (h.slot_readable (Owned.use_ne_none hp) va 0) haddress
  | succ level ih =>
      rcases (h.entry_number hq).present with hzero | ⟨r, hr, huse⟩
      · exact absurd hzero (h.entry_ne_zero hp hq (Nat.succ_pos _))
      · have hlevel := h.level_le hq
        rw [down_table (h.slot_readable (Owned.use_ne_none hq) va (level + 1)) (by omega)
          (h.bounds (Owned.use_ne_none huse)).2 ((hkeep.load hq (by omega)).trans hr)]
        rw [number_succ] at huse
        exact ih huse

theorem Owned.vmiter_last (h : Owned b s use) (hkeep : KeepsFirst pid use s.mem t.mem)
    (hpagetable : t.pagetable pid = s.pagetable pid)
    (hp : use p = some (.table pid 0 (virtualPage va / 512))) (hva : vaIsCanonical va)
    (haddress : load64 t.mem (entrySlot va 0 p) &&& PTE_PAMASK < 0x100000000) :
    vmiter t.mem (t.pagetable pid) va = .ok ⟨t.pagetable pid, some (entrySlot va 0 p), 0, 0xFFF, va⟩ := by
  obtain ⟨r, hroot, hr⟩ := h.hasRoot hp
  rw [← number_zero] at hp
  rw [← number_root va] at hr
  rw [vmiter, if_pos hva, ← h.down_last hkeep hp haddress hr, hpagetable, hroot, pageindex_eq (le_refl _)]
  rfl

/-- The kernel is mapped to itself. -/
theorem Dealt.translate_kernel (h : Dealt b pid s use d) (hkeep : KeepsFirst pid use s.mem t.mem)
    (hpagetable : t.pagetable pid = s.pagetable pid) (hlow : PAGESIZE ≤ va)
    (hhigh : va < PROC_START_ADDR) : memoryVirtualToPhysical (t.pagetable pid) va t = .ok va := by
  have hpage : virtualPage va = va / PAGESIZE := by
    simp only [virtualPage, PAGESIZE, PROC_START_ADDR] at hhigh ⊢
    omega
  have hbounds : 1 ≤ va / PAGESIZE ∧ va / PAGESIZE < 256 := by
    simp only [PAGESIZE, PROC_START_ADDR] at hlow hhigh ⊢
    omega
  obtain ⟨p, hp, hentry⟩ := h.kernel _ hbounds.1 hbounds.2
  rw [← hpage] at hp hentry
  have hslot : load64 t.mem (entrySlot va 0 p) = kernelEntry (virtualPage va) := by
    rw [hkeep.load (by rwa [number_zero]) (by rw [number_zero]; omega), entrySlot, number_zero, hentry]
  have hflags : ∃ perm, (perm = 3 ∨ perm = 7) ∧
      kernelEntry (virtualPage va) = virtualPage va * PAGESIZE + perm := by
    unfold kernelEntry
    split_ifs
    · exact ⟨7, .inr rfl, rfl⟩
    · exact ⟨3, .inl rfl, rfl⟩
  obtain ⟨perm, hperm, hflags⟩ := hflags
  have haddress : load64 t.mem (entrySlot va 0 p) &&& PTE_PAMASK < 0x100000000 := by
    rw [hslot, hflags, address_eq (by omega) (by omega)]
    simp only [PAGESIZE] at hpage hbounds ⊢
    omega
  have hit := h.owned.vmiter_last hkeep hpagetable hp (canonical_of_lt (hhigh.trans (by decide))) haddress
  have hpa := (arrives_table (s := t) hp).pa_eq (hslot.trans hflags) (by omega) hperm
  rw [memoryVirtualToPhysical, hit, ok_bind, hpa, hpage]
  refine congrArg Except.ok ?_
  simp only [PAGESIZE]
  omega

/-- **The check** of a table that was set up. -/
theorem Dealt.checkPagetable (h : Dealt b pid s use d) (hkeep : KeepsFirst pid use s.mem t.mem)
    (hpagetable : t.pagetable pid = s.pagetable pid)
    (hentry : PAGESIZE ≤ b.exceptionEntry ∧ b.exceptionEntry < PROC_START_ADDR)
    (hkernel : PAGESIZE ≤ b.kernelPagetable ∧ b.kernelPagetable < PROC_START_ADDR) :
    checkPagetable b (t.pagetable pid) t = .ok () := by
  obtain ⟨p, hp⟩ := h.low
  obtain ⟨r, hr, -⟩ := h.owned.hasRoot hp
  have halign : t.pagetable pid % PAGESIZE = 0 := by
    rw [hpagetable, hr]
    exact Nat.mul_mod_left ..
  rw [Kernel.checkPagetable, halign]
  simp only [ne_eq, not_true_eq_false, if_false, h.translate_kernel hkeep hpagetable hentry.1 hentry.2,
    h.translate_kernel hkeep hpagetable hkernel.1 hkernel.2, ok_bind]
  rfl

/-- A process has no tables at level 0 but the two that are needed. -/
theorem Dealt.region_le (h : Dealt b pid s use d) (hfirst : d.first.length ≤ 4) {q region : Nat}
    (hq : use q = some (.table pid 0 region)) : region = 0 ∨ region = 1 := by
  by_contra hregion
  rw [not_or] at hregion
  obtain ⟨p₀, hp₀⟩ := h.low
  obtain ⟨p₁, hp₁⟩ : ∃ p, use p = some (.table pid 1 0) := by
    rcases h.owned.linked _ _ hp₀ with ⟨hlevel, -⟩ | ⟨-, p, hp, -⟩
    · cases hlevel
    · exact ⟨p, hp⟩
  obtain ⟨p₂, hp₂⟩ : ∃ p, use p = some (.table pid 2 0) := by
    rcases h.owned.linked _ _ hp₁ with ⟨hlevel, -⟩ | ⟨-, p, hp, -⟩
    · cases hlevel
    · exact ⟨p, hp⟩
  obtain ⟨p₃, hp₃⟩ : ∃ p, use p = some (.table pid 3 0) := by
    rcases h.owned.linked _ _ hp₂ with ⟨hlevel, -⟩ | ⟨-, p, hp, -⟩
    · cases hlevel
    · exact ⟨p, hp⟩
  -- they would be five pages, but the first ones are four
  have hmem : ∀ {p l y}, use p = some (.table pid l y) → ¬(l = 0 ∧ y = 1) → p ∈ d.first :=
    fun hp hne => (h.first _ _ _ hp).resolve_right hne
  have hnodup : [q, p₀, p₁, p₂, p₃].Nodup := by
    refine List.Nodup.of_map use ?_
    simp [hq, hp₀, hp₁, hp₂, hp₃, hregion.1]
  have hsubset : [q, p₀, p₁, p₂, p₃] ⊆ d.first := by
    simp only [List.cons_subset, List.nil_subset, and_true]
    exact ⟨hmem hq (by omega), hmem hp₀ (by decide), hmem hp₁ (by decide), hmem hp₂ (by decide),
      hmem hp₃ (by decide)⟩
  have hlength := (List.subperm_of_subset hnodup hsubset).length_le
  simp only [List.length_cons, List.length_nil] at hlength
  omega

end Check

/-- The kernel gets to the process of its program if that can be set up and is found to have the
mappings of the kernel. -/
theorem kernelStart_program {image : ProgramImage} {mem : Mem} {t : State} (hempty : image.empty = false)
    (hsetup : processSetup (kernelWith image) 1 image (bootState mem) = .ok t)
    (hrunnable : t.procState 1 = .runnable)
    (hcheck : checkPagetable (kernelWith image) (t.pagetable 1) t = .ok ()) :
    Booted (kernelWith image) (some "program") { t with current := 1 } := by
  have hprocesses : initialProcesses (kernelWith image) (some "program") = [(1, image)] :=
    if_neg (by simp [kernelWith, hempty])
  refine ⟨mem, ?_⟩
  change ((initialProcesses (kernelWith image) (some "program")).foldlM
    (fun s x => processSetup (kernelWith image) x.1 x.2 s) (bootState mem) >>=
      run (kernelWith image) 1) = _
  rw [hprocesses, List.foldlM_cons, hsetup]
  change run (kernelWith image) 1 t = _
  rw [run, if_neg (not_not.mpr hrunnable), hcheck]
  rfl

/-- The addresses that are checked. -/
theorem kernelWith_check {image : ProgramImage} {s t : State} {use : Uses} {d : Deal}
    (h : Dealt (kernelWith image) 1 s use d) (hkeep : KeepsFirst 1 use s.mem t.mem)
    (hpagetable : t.pagetable 1 = s.pagetable 1) :
    checkPagetable (kernelWith image) (t.pagetable 1) t = .ok () :=
  h.checkPagetable hkeep hpagetable
    ⟨show PAGESIZE ≤ 0x40000 by decide, show 0x40000 < PROC_START_ADDR by decide⟩
    ⟨show PAGESIZE ≤ 0x41000 by decide, show 0x41000 < PROC_START_ADDR by decide⟩

/-- **One program.** The kernel gets to its process. -/
theorem exists_booted {image : ProgramImage} (strict : Prop) (hempty : image.empty = false)
    (hplaces : Places (bootFrees (kernelWith image)) [image])
    (hstrict : strict → image.segments.Pairwise Segment.Disjoint) :
    ∃ s use, Booted (kernelWith image) (some "program") s ∧ Inv (kernelWith image) 256 strict s use ∧
      s.current = 1 ∧ s.viewer = 0 ∧ Dealt (kernelWith image) 1 s use
        ((deal (bootFrees (kernelWith image)) image.pageNumbers).page STACK_PAGE) := by
  obtain ⟨hroom, hsegs, -⟩ := hplaces
  obtain ⟨t, use, hsetup, hinv, hdealt, -, hrunnable, hviewer⟩ :=
    (inv_boot (kernelWith image) strict fun _ => 0).processSetup (.nothing 1) hroom hsegs
      hstrict
  have hcheck := kernelWith_check (t := t) hdealt (fun _ _ _ _ _ _ _ _ => rfl) rfl
  have howned : Owned (kernelWith image) { t with current := 1 } use := hinv.owned.congr rfl rfl rfl rfl
  exact ⟨_, use, kernelStart_program hempty hsetup hrunnable hcheck,
    ⟨howned, hinv.roots, hinv.viewer, hinv.low, hinv.counted, hinv.noLost⟩, rfl, hviewer,
    ⟨howned, hdealt.frees_eq, hdealt.first, hdealt.low, hdealt.high, hdealt.frames, hdealt.kernel⟩⟩

section Viewer

variable {b : Build} {s : State} {f : Nat} {rest : List Nat}

/-- The memory viewer takes its page at first. -/
theorem memshow_first (hviewer : s.viewer = 0) (hf : frees b s = f :: rest) :
    memshow b (s.allocated f).mem s = .ok { s.allocated f with viewer := f * PAGESIZE } := by
  have hne : f * PAGESIZE ≠ 0 := by
    have hbounds := free_bounds (mem_frees.mp (hf ▸ List.mem_cons_self))
    simp only [PAGESIZE]
    omega
  rw [memshow, if_pos hviewer, kalloc_cons hf]
  simp only [hne, if_false, ok_bind, ite_self]

/-- Later it has one. -/
theorem memshow_again (hviewer : s.viewer ≠ 0) : memshow b s.mem s = .ok s := by
  rw [memshow, if_neg hviewer]
  simp only [ok_bind, ite_self]

end Viewer

/-! ## A process without segments -/

/-- A kernel with a program that has its stack only. -/
abbrev idle : Build := kernelWith ⟨false, []⟩

theorem idle_places : Places (bootFrees idle) (images idle (some "program")) :=
  show Places (bootFrees idle) [⟨false, []⟩] from ⟨by decide +kernel, by simp, trivial⟩

/-- The state in which the process first runs: it has the tables for its stack, and there are free
pages. -/
theorem exists_idle :
    ∃ s use f rest p, Booted idle (some "program") s ∧ Inv idle 256 True s use ∧ s.current = 1 ∧
      s.viewer = 0 ∧ frees idle s = f :: rest ∧ 2 ≤ rest.length ∧ use p = some (.table 1 0 0) ∧
      ∀ q, use q ≠ some (.table 1 0 2) := by
  obtain ⟨s, use, hbooted, hinv, hcurrent, hviewer, hdealt⟩ :=
    exists_booted True rfl idle_places fun _ => List.Pairwise.nil
  have hroom : ((deal (bootFrees idle) []).page STACK_PAGE).first.length ≤ 4 ∧
      3 ≤ ((deal (bootFrees idle) []).page STACK_PAGE).frees.length := by decide +kernel
  obtain ⟨f, rest, hf⟩ := List.exists_cons_of_length_pos (Nat.lt_of_lt_of_le (by decide) hroom.2)
  obtain ⟨p, hp⟩ := hdealt.low
  refine ⟨s, use, f, rest, p, hbooted, hinv, hcurrent, hviewer, hdealt.frees_eq.trans hf, ?_, hp,
    fun q hq => ?_⟩
  · rw [hf, List.length_cons] at hroom
    omega
  · rcases hdealt.region_le hroom.1 hq with htwo | htwo <;> cases htwo

/-- The process can have the first page of the kernel for itself: the call that asks for its address
is not rejected, and replaces the mapping of the kernel. -/
theorem idle_maps_kernel : ∃ s t page, Reachable idle (fun _ _ => True) s ∧
    BadAddress KERNEL_START_ADDR ∧ ¬Rejects idle KERNEL_START_ADDR s ∧
    syscallPageAlloc idle KERNEL_START_ADDR s = .ok (0, t) ∧ UserMaps t 1 KERNEL_START_ADDR page := by
  obtain ⟨s, use, f, rest, p, hbooted, hinv, hcurrent, -, hf, -, hp, -⟩ := exists_idle
  have hp' : use p = some (.table s.current 0 (virtualPage KERNEL_START_ADDR / 512)) := by
    rw [hcurrent]
    exact hp
  obtain ⟨t, use', hrun, hm⟩ := syscallPageAlloc_enough hinv.owned (arrives_table hp') (by decide)
    (by decide) hf (Nat.zero_le _)
  have hleaf : use' f = some (.leaf 1 (virtualPage KERNEL_START_ADDR)) := hcurrent ▸ hm.leaf
  have hmaps := (hm.owned.writes hm.keepsTables).userMaps_of_leaf (by decide) hleaf
  refine ⟨s, _, f, .init ⟨_, hbooted⟩, .inr (.inl (by decide)), ?_, hrun, hmaps⟩
  rintro ⟨u, hreject, -⟩
  have hresult := syscallPageAlloc_result hf hreject
  omega

end Kernel
