import CS24.Kernel.WorldStart

/-!
# The checks of page tables

`run` looks at the table of the process before it runs it: the table has to map the kernel to
itself.  `process_setup` makes these mappings, and in a run whose processes ask for addresses that
are allowed nothing changes them.  So the kernel is never stopped by its own checks.
-/

namespace Kernel

open Bytes System Relation

/-- The addresses that `check_pagetable` looks at are in the kernel. -/
structure Build.Checkable (b : Build) : Prop where
  entry_low : PAGESIZE ≤ b.exceptionEntry
  entry_high : b.exceptionEntry < PROC_START_ADDR
  pagetable_low : PAGESIZE ≤ b.kernelPagetable
  pagetable_high : b.kernelPagetable < PROC_START_ADDR

/-- The walk for a page in the table of process `pid` ends in entry `e` at level 0. -/
def Walks (s : State) (pid page e : Nat) : Prop :=
  ∃ it, vmiter s.mem (s.pagetable pid) (page * PAGESIZE) = .ok it ∧ it.level = 0 ∧ it.entry s.mem = e

/-- All tables have the mappings of the kernel. -/
def KernelMapped (s : State) : Prop :=
  ∀ pid, s.pagetable pid ≠ 0 → ∀ page, 1 ≤ page → page < 256 → Walks s pid page (kernelEntry page)

section Walks

variable {b : Build} {low : Nat} {strict : Prop} {s t u : State} {use use' : Uses}
  {pid addr page e : Nat} {marks : Mem}

/-- The walk ends in the entry of the record. -/
theorem Owned.walks_iff (h : Owned b s use) (hroot : HasRoot s use pid) (hpage : page < 512) :
    Walks s pid page e ↔ HasEntry s use pid 0 page e := by
  have hva : vaIsCanonical (page * PAGESIZE) := page_canonical (by omega)
  have hnumber := virtualPage_mul hpage
  constructor
  · rintro ⟨it, hit, hlevel, hentry⟩
    obtain ⟨level, -, p, it', harrives, hit'⟩ := h.vmiter_spec hroot hva
    obtain rfl := Except.ok.inj (hit'.symm.trans hit)
    obtain ⟨rfl, htable, -⟩ := harrives
    obtain rfl : level = 0 := hlevel
    rw [number_zero, hnumber] at htable
    refine ⟨p, htable, ?_⟩
    rw [← hentry]
    simp only [Vmiter.entry, entrySlot, number_zero, hnumber]
  · rintro ⟨p, hp, hentry⟩
    rw [← hnumber] at hp
    refine ⟨_, (arrives_table (s := s) hp).vmiter_eq h hva, rfl, ?_⟩
    simp only [Vmiter.entry, entrySlot, number_zero, hnumber, hentry]

/-- Steps that keep the entries keep the mappings of the kernel. -/
theorem KernelMapped.of_entries (hk : KernelMapped s) (h : Inv b low strict s use)
    (h' : Inv b low strict t use') (hpagetable : t.pagetable = s.pagetable)
    (hentries : ∀ pid page e, page < 256 → HasEntry s use pid 0 page e → HasEntry t use' pid 0 page e) :
    KernelMapped t := by
  intro pid hne page hpos hlt
  have hroot' := (h'.roots pid).resolve_right fun hnone => hne hnone.1
  rw [hpagetable] at hne
  have hroot := (h.roots pid).resolve_right fun hnone => hne hnone.1
  rw [h'.owned.walks_iff hroot' (by omega)]
  refine hentries pid page _ hlt ?_
  rw [← h.owned.walks_iff hroot (by omega)]
  exact hk pid hne page hpos hlt

/-- Entries of tables that stay, with what is in them. -/
theorem HasEntry.keep (hentry : HasEntry s use pid 0 page e)
    (hkeeps : ∀ p region, use p = some (.table pid 0 region) → use' p = some (.table pid 0 region))
    (hmem : ∀ a region, use (a / PAGESIZE) = some (.table pid 0 region) → t.mem a = s.mem a) :
    HasEntry t use' pid 0 page e := by
  obtain ⟨p, hp, hload⟩ := hentry
  refine ⟨p, hkeeps p _ hp, (load_slot_congr (Nat.mod_lt _ (by decide)) fun a ha ha' => ?_).trans hload⟩
  have hpage : a / PAGESIZE = p := by
    simp only [PAGESIZE] at ha ha' ⊢
    omega
  exact hmem a _ (hpage.symm ▸ hp)

theorem KernelMapped.memshow (hk : KernelMapped s) (h : Inv b low strict s use)
    (hrun : Kernel.memshow b marks s = .ok t) : KernelMapped t := by
  obtain ⟨use', h', hpagetable, -, -, hkeeps, -⟩ := h.memshow hrun
  refine hk.of_entries h h' hpagetable fun pid page e _ hentry => ?_
  exact hentry.keep (fun p region => hkeeps p _) fun a region => h.memshow_mem hrun Use.noConfusion

/-- **A system call** with an address that is allowed. -/
theorem KernelMapped.pageAlloc {r : Int} (hk : KernelMapped s) (h : Inv b 256 False s use)
    (hroot : HasRoot s use s.current) (haddr : ValidAddress addr)
    (hrun : syscallPageAlloc b addr s = .ok (r, u)) : KernelMapped u := by
  rcases syscallPageAlloc_spec h.owned hroot hrun with ⟨-, rfl⟩ | hmapped
  · exact hk
  obtain ⟨-, -, -, f, rest, level, s', use', -, hm, rfl⟩ := hmapped
  have hinv := h.mapped hm haddr.low False.elim
  have hpagetable : s'.pagetable = s.pagetable := by rw [hm.same]
  refine hk.of_entries h hinv hpagetable fun pid page e hlt hentry => ?_
  have hne : page ≠ virtualPage addr := (hlt.trans_le haddr.low).ne
  obtain ⟨p, hp, hload⟩ := hm.entries pid page e (.inr hne) hentry
  have hpf : p ≠ f := by
    rintro rfl
    cases hp.symm.trans hm.leaf
  exact ⟨p, hp, (load_slot_fill (Nat.mod_lt _ (by decide)) hpf).trans hload⟩

/-- What a process writes. -/
theorem KernelMapped.user (hk : KernelMapped s) (h : Inv b low strict s use)
    (hroot : HasRoot s use s.current) {mem : Mem}
    (hmem : ∀ a, mem a ≠ s.mem a → ∃ va, UserMaps s s.current va (a / PAGESIZE)) :
    KernelMapped { s with mem := mem } := by
  refine hk.of_entries h (h.user hroot hmem) rfl fun pid page e _ hentry => ?_
  refine hentry.keep (fun _ _ hp => hp) fun a region hp => ?_
  by_contra hne
  obtain ⟨va, hmaps⟩ := hmem a hne
  rcases h.userMaps_cases hmaps with hleaf | ⟨hconsole, -⟩
  · cases hp.symm.trans hleaf
  · exact h.owned.ne_console (Owned.use_ne_none hp) hconsole

/-- A process that runs. -/
theorem KernelMapped.run (hk : KernelMapped s) (hrun : Kernel.run b pid s = .ok t) : KernelMapped t := by
  unfold Kernel.run at hrun
  split_ifs at hrun
  obtain ⟨-, -, hrun⟩ := Checked.bind_eq_ok hrun
  cases hrun
  exact hk

/-- **Turns** keep the mappings of the kernel in the tables of all processes, if the addresses of
`sys_page_alloc` are ones that are allowed. -/
theorem KernelMapped.turn (hk : KernelMapped s) (h : Inv b 256 False s use) (hroot : HasRoot s use s.current)
    (hturn : Turn b (fun _ => ValidAddress) s u) : KernelMapped u := by
  cases hturn with
  | pageAlloc haddr hshow hcall =>
      obtain ⟨use', hinv, hpagetable, -, hcurrent, hkeeps, -⟩ := h.memshow hshow
      have hroot' := hroot.keep (t := _) (congrFun hpagetable s.current) fun q => hkeeps q _
      rw [← hcurrent] at hroot'
      exact (hk.memshow h hshow).pageAlloc hinv hroot' haddr hcall
  | getpid hshow => exact hk.memshow h hshow
  | schedule hshow hnext => exact (hk.memshow h hshow).run hnext
  | @fault t _ _ _ hshow hnext =>
      have hk' : KernelMapped t := hk.memshow h hshow
      exact KernelMapped.run (s := { t with procState := Function.update t.procState t.current .broken })
        hk' hnext
  | user hmem => exact hk.user h hroot hmem

end Walks

/-! ## The start -/

section Start

variable {b : Build} {strict : Prop} {s t : State} {use use' : Uses} {pid page e r : Nat}
  {pgm : ProgramImage} {command : Option String}

/-- The entries of other processes stay. -/
theorem Extends.hasEntry_other {pid' : Nat} (he : Extends b pid (s.withRoot pid r) use t use')
    (hne : pid' ≠ pid) (hentry : HasEntry s use pid' 0 page e) : HasEntry t use' pid' 0 page e := by
  have hkeeps : ∀ p region, use p = some (.table pid' 0 region) → use' p = some (.table pid' 0 region) :=
    fun p region hp => he.keeps p _ hp (by rintro _ ⟨⟩)
  refine hentry.keep hkeeps fun a region hp => he.mem a fun u hu => ?_
  obtain rfl := Option.some.inj (hu.symm.trans (hkeeps _ _ hp))
  exact ⟨hp, hne⟩

/-- A process that is set up has the mappings. -/
theorem KernelMapped.processSetup (hk : KernelMapped s) (h : Inv b 256 strict s use)
    (hno : NoProcess use pid) (hroom : pgm.pageNumbers.length + 6 ≤ (frees b s).length)
    (hsegs : ∀ seg ∈ pgm.segments, seg.InRange ∧ seg.Fits (deal (frees b s) pgm.pageNumbers))
    (hrun : Kernel.processSetup b pid pgm s = .ok t) : KernelMapped t := by
  have hrange : ∀ seg ∈ pgm.segments, seg.InRange := fun seg hseg => (hsegs seg hseg).1
  obtain ⟨r, s₁, use₁, hsetup, hroot, hdealt, hroom₁, hextends₁, -⟩ :=
    processSetup_pages h.owned hno (pageNumbers_range hrange) hroom
  obtain ⟨s₂, use₂, hfinish, hextends₂, hdealt₂, -⟩ := finishSetup_spec hdealt hroom₁
    (fun seg hseg => (hsegs seg hseg).2) fun seg hseg => (hrange seg hseg).va_lt
  have hextends := hextends₁.trans hextends₂
  obtain rfl := Except.ok.inj (((hsetup pgm rfl).trans (hroot ▸ hfinish)).symm.trans hrun)
  have hwalks : ∀ pid page, s₂.pagetable pid ≠ 0 → 1 ≤ page → page < 256 →
      Walks s₂ pid page (kernelEntry page) := by
    intro pid' page hne hpos hlt
    by_cases hpid : pid' = pid
    · subst hpid
      obtain ⟨p, hp⟩ := hdealt₂.low
      exact (hdealt₂.owned.walks_iff (hdealt₂.owned.hasRoot hp) (by omega)).mpr (hdealt₂.kernel page hpos hlt)
    · have hpagetable : s₂.pagetable pid' = s.pagetable pid' := by
        rw [hextends.same]
        exact Function.update_of_ne hpid ..
      rw [hpagetable] at hne
      have hroot := (h.roots pid').resolve_right fun hnone => hne hnone.1
      have hroot' : HasRoot s₂ use₂ pid' := hroot.keep hpagetable fun q hq =>
        hextends.keeps q _ hq (by rintro _ ⟨⟩)
      rw [hextends.owned.walks_iff hroot' (by omega)]
      refine hextends.hasEntry_other hpid ?_
      rw [← h.owned.walks_iff hroot (by omega)]
      exact hk pid' hne page hpos hlt
  exact fun pid hne page hpos hlt => hwalks pid page hne hpos hlt

/-- By induction on the list of processes. -/
theorem KernelMapped.processSetups {processes : List (Nat × ProgramImage)} (hk : KernelMapped s)
    (h : Inv b 256 strict s use) (hpids : (processes.map Prod.fst).Nodup)
    (hno : ∀ x ∈ processes, NoProcess use x.1)
    (hplaces : Places (frees b s) (processes.map Prod.snd))
    (hstrict : strict → ∀ x ∈ processes, x.2.segments.Pairwise Segment.Disjoint)
    (hrun : processes.foldlM (fun s x => Kernel.processSetup b x.1 x.2 s) s = .ok t) :
    KernelMapped t := by
  induction processes generalizing s use with
  | nil =>
      obtain rfl := Except.ok.inj hrun
      exact hk
  | cons x processes ih =>
      obtain ⟨hroom, hsegs, hplaces⟩ := hplaces
      rw [List.map_cons, List.nodup_cons] at hpids
      obtain ⟨s₁, use₁, hsetup, hinv, hdealt, hothers, -⟩ := h.processSetup
        (hno x List.mem_cons_self) hroom hsegs fun hs => hstrict hs x List.mem_cons_self
      rw [List.foldlM_cons, hsetup] at hrun
      exact ih (hk.processSetup h (hno x List.mem_cons_self) hroom hsegs hsetup) hinv hpids.2
        (fun y hy => hothers y.1 (fun heq => hpids.1 (heq ▸ List.mem_map_of_mem hy))
          (hno y (List.mem_cons_of_mem _ hy)))
        (by rw [hdealt.frees_eq]; exact hplaces)
        (fun hs y hy => hstrict hs y (List.mem_cons_of_mem _ hy)) hrun

theorem Booted.kernelMapped (h : Booted b command s)
    (hplaces : Places (bootFrees b) (images b command)) : KernelMapped s := by
  obtain ⟨mem, hstart⟩ := h
  have hstart : ((initialProcesses b command).foldlM (fun s x => Kernel.processSetup b x.1 x.2 s)
      (bootState mem) >>= run b 1) = .ok s := hstart
  obtain ⟨t, hsetups, hrun⟩ := Checked.bind_eq_ok hstart
  have hfrees : frees b (bootState mem) = bootFrees b := frees_congr rfl
  have hk : KernelMapped (bootState mem) := fun pid hne => absurd rfl hne
  have hk' := hk.processSetups (inv_boot b False mem) (initialProcesses_nodup b command)
    (fun _ _ _ _ h => nomatch h) (by rw [hfrees]; exact hplaces) False.elim hsetups
  exact hk'.run hrun

end Start

/-! ## Runs -/

section Runs

variable {b : Build} {command : Option String} {s : State} {use : Uses} {pid va : Nat}

/-- What holds in every state of a run. -/
theorem reach_kernelMapped (hplaces : Places (bootFrees b) (images b command))
    (hreach : Reach (Booted b command) (Turn b fun _ => ValidAddress) s) :
    ∃ use, Inv b 256 False s use ∧ HasRoot s use s.current ∧ KernelMapped s := by
  have hinv : ∀ {s}, Reach (Booted b command) (Turn b fun _ => ValidAddress) s →
      ∃ use, Inv b 256 False s use ∧ HasRoot s use s.current := fun hreach =>
    reach_inv le_rfl hplaces False.elim (fun _ _ hok => hok.low) False.elim hreach
  have hk : KernelMapped s := by
    refine hreach.invariant_of_reach (fun s hs => hs.kernelMapped hplaces) fun s t hr hk hturn => ?_
    obtain ⟨use, hinv, hroot⟩ := hinv hr
    exact hk.turn hinv hroot hturn
  obtain ⟨use, hinv, hroot⟩ := hinv hreach
  exact ⟨use, hinv, hroot, hk⟩

/-- The kernel is mapped to itself. -/
theorem KernelMapped.translate (hk : KernelMapped s) (h : Owned b s use) (hroot : HasRoot s use pid)
    (hlow : PAGESIZE ≤ va) (hhigh : va < PROC_START_ADDR) :
    memoryVirtualToPhysical (s.pagetable pid) va s = .ok va := by
  have hpage : virtualPage va = va / PAGESIZE := by
    simp only [virtualPage, PAGESIZE, PROC_START_ADDR] at hhigh ⊢
    omega
  have hbounds : 1 ≤ va / PAGESIZE ∧ va / PAGESIZE < 256 := by
    simp only [PAGESIZE, PROC_START_ADDR] at hlow hhigh ⊢
    omega
  have hne : s.pagetable pid ≠ 0 := by
    obtain ⟨p, hp, huse⟩ := hroot
    have := h.bounds (Owned.use_ne_none huse)
    rw [hp]
    simp only [PAGESIZE]
    omega
  obtain ⟨p, hp, hentry⟩ := (h.walks_iff hroot (by omega)).mp (hk pid hne _ hbounds.1 hbounds.2)
  have hflags : ∃ perm, (perm = 3 ∨ perm = 7) ∧
      kernelEntry (va / PAGESIZE) = va / PAGESIZE * PAGESIZE + perm := by
    unfold kernelEntry
    split_ifs
    · exact ⟨7, .inr rfl, rfl⟩
    · exact ⟨3, .inl rfl, rfl⟩
  obtain ⟨perm, hperm, hflags⟩ := hflags
  rw [← hpage] at hp hentry
  have hit := arrives_table (s := s) hp
  have hload : load64 s.mem (entrySlot va 0 p) = va / PAGESIZE * PAGESIZE + perm := by
    rw [entrySlot, number_zero, hentry, hpage, hflags]
  rw [memoryVirtualToPhysical, hit.vmiter_eq h (canonical_of_lt (hhigh.trans (by decide))), ok_bind,
    hit.pa_eq hload (by omega) hperm, Nat.div_add_mod']

/-- **The check** of the table of a process. -/
theorem KernelMapped.checkPagetable (hk : KernelMapped s) (h : Owned b s use) (hroot : HasRoot s use pid)
    (hb : b.Checkable) : checkPagetable b (s.pagetable pid) s = .ok () := by
  have halign : s.pagetable pid % PAGESIZE = 0 := by
    obtain ⟨p, hp, -⟩ := hroot
    rw [hp]
    exact Nat.mul_mod_left ..
  rw [Kernel.checkPagetable, halign]
  simp only [ne_eq, not_true_eq_false, if_false, hk.translate h hroot hb.entry_low hb.entry_high,
    hk.translate h hroot hb.pagetable_low hb.pagetable_high, ok_bind]
  rfl

/-- What can run is run. -/
theorem KernelMapped.run_ok {low : Nat} {strict : Prop} (hk : KernelMapped s) (h : Inv b low strict s use)
    (hb : b.Checkable) (hrunnable : s.procState pid = .runnable) :
    Kernel.run b pid s = .ok { s with current := pid } := by
  have hroot := (h.roots pid).resolve_right fun hnone => hnone.2 hrunnable
  rw [Kernel.run, if_neg (not_not.mpr hrunnable), hk.checkPagetable h.owned hroot hb]
  rfl

theorem lookup_first (b : Build) (command : Option String) :
    ((initialProcesses b command).lookup 1).isSome := by
  unfold initialProcesses
  split
  · split_ifs <;> rfl
  · rfl

/-- The pages that are left when processes were set up. -/
def leftover (free : List Nat) (pgms : List ProgramImage) : List Nat :=
  pgms.foldl (fun free pgm => ((deal free pgm.pageNumbers).page STACK_PAGE).frees) free

@[simp] theorem leftover_nil (free : List Nat) : leftover free [] = free := rfl

@[simp] theorem leftover_cons (free : List Nat) (pgm : ProgramImage) (pgms : List ProgramImage) :
    leftover free (pgm :: pgms) = leftover ((deal free pgm.pageNumbers).page STACK_PAGE).frees pgms := rfl

/-- By induction on the list of processes. -/
theorem Inv.processSetups_left {processes : List (Nat × ProgramImage)} {t : State} {strict : Prop}
    (h : Inv b 256 strict s use) (hpids : (processes.map Prod.fst).Nodup)
    (hno : ∀ x ∈ processes, NoProcess use x.1) (hplaces : Places (frees b s) (processes.map Prod.snd))
    (hstrict : strict → ∀ x ∈ processes, x.2.segments.Pairwise Segment.Disjoint)
    (hrun : processes.foldlM (fun s x => Kernel.processSetup b x.1 x.2 s) s = .ok t) :
    frees b t = leftover (frees b s) (processes.map Prod.snd) ∧ t.viewer = s.viewer := by
  induction processes generalizing s use with
  | nil =>
      obtain rfl := Except.ok.inj hrun
      exact ⟨by rw [List.map_nil, leftover_nil], rfl⟩
  | cons x processes ih =>
      obtain ⟨hroom, hsegs, hplaces⟩ := hplaces
      rw [List.map_cons, List.nodup_cons] at hpids
      obtain ⟨s₁, use₁, hsetup, hinv, hdealt, hothers, -, hviewer⟩ := h.processSetup
        (hno x List.mem_cons_self) hroom hsegs fun hs => hstrict hs x List.mem_cons_self
      rw [List.foldlM_cons, hsetup] at hrun
      obtain ⟨hleft, hviewer'⟩ := ih hinv hpids.2
        (fun y hy => hothers y.1 (fun heq => hpids.1 (heq ▸ List.mem_map_of_mem hy))
          (hno y (List.mem_cons_of_mem _ hy)))
        (by rw [hdealt.frees_eq]; exact hplaces)
        (fun hs y hy => hstrict hs y (List.mem_cons_of_mem _ hy)) hrun
      refine ⟨hleft.trans ?_, hviewer'.trans hviewer⟩
      rw [hdealt.frees_eq, List.map_cons, leftover_cons]

/-- **The kernel starts.** If the images are placed, `kernel_start` gets to the first process. -/
theorem kernelStart_ok (hplaces : Places (bootFrees b) (images b command))
    (hdisjoint : ∀ pgm ∈ images b command, pgm.segments.Pairwise Segment.Disjoint) (hb : b.Checkable)
    (mem : Mem) : ∃ s, kernelStart b command mem = .ok s ∧ s.world = initialWorld b command ∧
      frees b s = leftover (bootFrees b) (images b command) ∧ s.viewer = 0 := by
  have hfrees : frees b (bootState mem) = bootFrees b := frees_congr rfl
  have hplaces' : Places (frees b (bootState mem)) ((initialProcesses b command).map Prod.snd) := by
    rw [hfrees]
    exact hplaces
  have hdisjoint' : ∀ x ∈ initialProcesses b command, x.2.segments.Pairwise Segment.Disjoint :=
    fun x hx => hdisjoint x.2 (List.mem_map_of_mem hx)
  have hno : ∀ x ∈ initialProcesses b command, NoProcess (fun _ => none) x.1 := fun _ _ _ _ h => nomatch h
  have hpids := initialProcesses_nodup b command
  obtain ⟨t, use, hsetups, hinv⟩ := (inv_boot b False mem).processSetups hpids hno hplaces' False.elim
  have hempty : KernelMapped (bootState mem) := fun pid hne => absurd rfl hne
  have hk := hempty.processSetups (inv_boot b False mem) hpids hno hplaces' False.elim hsetups
  have hrunnable : t.procState 1 = .runnable := by
    obtain ⟨pgm, hpgm⟩ := Option.isSome_iff_exists.mp (lookup_first b command)
    have hstatus := ((inv_boot b False mem).processSetups_world hpids hno hplaces' hdisjoint' hsetups 1).2
    rw [hpgm] at hstatus
    exact hstatus
  have hstart : kernelStart b command mem = .ok { t with current := 1 } := by
    change ((initialProcesses b command).foldlM (fun s x => Kernel.processSetup b x.1 x.2 s)
      (bootState mem) >>= Kernel.run b 1) = _
    rw [hsetups]
    exact hk.run_ok hinv hb hrunnable
  obtain ⟨hleft, hviewer⟩ := (inv_boot b False mem).processSetups_left hpids hno hplaces' False.elim hsetups
  refine ⟨_, hstart, Booted.world ⟨mem, hstart⟩ hplaces hdisjoint, ?_, hviewer⟩
  rw [← hfrees]
  exact hleft

end Runs

end Kernel
