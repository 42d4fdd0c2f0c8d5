import CS24.Kernel.Boot

/-!
# Isolation of processes

Each physical page that a process can access is its own, or the console.  The invariant of runs
says so.
-/

namespace Kernel

open Bytes System

/-- The number of the page of the console. -/
abbrev CONSOLE_PAGE : Nat := CONSOLE_ADDR / PAGESIZE

/-- The arguments of `sys_page_alloc` that are allowed. -/
def ValidAddress (addr : Nat) : Prop :=
  addr % PAGESIZE = 0 ∧ PROC_START_ADDR ≤ addr ∧ addr < MEMSIZE_VIRTUAL

/-- The page is none of the kernel: not page 0, nor in its image, its stack or the memory of
devices, nor a table. -/
structure Harmless (b : Build) (s : State) (page : Nat) : Prop where
  not_null : page ≠ 0
  not_image : ¬(KERNEL_START_ADDR ≤ page * PAGESIZE ∧ page * PAGESIZE < roundUpPage b.kernelEnd)
  not_stack : ¬(KERNEL_STACK_TOP - PAGESIZE ≤ page * PAGESIZE ∧ page * PAGESIZE < KERNEL_STACK_TOP)
  not_io : ¬(IOPHYSMEM ≤ page * PAGESIZE ∧ page * PAGESIZE < EXTPHYSMEM)
  not_table : ∀ pid level, ¬TablePage s pid level page

/-- **Isolation.** No process can access a page of another one, a page of the kernel, or an address
below `PROC_START_ADDR`; but for the console. -/
structure Isolated (b : Build) (s : State) : Prop where
  separate : ∀ pid pid' va va' page, UserMaps s pid va page → UserMaps s pid' va' page →
    page ≠ CONSOLE_PAGE → pid = pid'
  harmless : ∀ pid va page, UserMaps s pid va page → page ≠ CONSOLE_PAGE → Harmless b s page
  above : ∀ pid va page, UserMaps s pid va page → va < PROC_START_ADDR → va / PAGESIZE = CONSOLE_PAGE

section Rootless

variable {b : Build} {s : State} {use : Uses} {pid va page level : Nat} {it : Vmiter}

/-- Without a table the walk ends in page 0. -/
theorem present_of_null (hnull : s.pagetable pid = 0)
    (hit : vmiter s.mem (s.pagetable pid) va = .ok it) : it.entry s.mem = 0 := by
  rw [vmiter, hnull] at hit
  split_ifs at hit with hva
  · have hlow : 0 + 8 * pageindex va 3 < PAGESIZE := by
      have hindex : pageindex va 3 < 512 := Nat.mod_lt _ (by decide)
      simp only [PAGESIZE]
      omega
    rw [down, if_pos (.inl hlow)] at hit
    cases hit
  · cases hit
    rfl

theorem not_mapsTo_of_null (hnull : s.pagetable pid = 0) : ¬MapsTo s pid va page := by
  rintro ⟨it, hit, hpresent, -⟩
  rw [present_of_null hnull hit] at hpresent
  exact hpresent (Nat.zero_and _)

theorem UserMaps.mapsTo (h : UserMaps s pid va page) : MapsTo s pid va page := by
  obtain ⟨it, hit, huser, hpage⟩ := h
  refine ⟨it, hit, fun hzero => ?_, hpage⟩
  rw [Vmiter.user, decide_eq_true_iff, Vmiter.permissions] at huser
  have hph : it.entry s.mem &&& it.perm &&& PTE_P = 0 := by
    rw [Nat.and_right_comm, hzero, Nat.zero_and]
  rw [if_pos hph] at huser
  cases huser

theorem not_tablePage_of_null (hnull : s.pagetable pid = 0) : ¬TablePage s pid level page := by
  intro htable
  induction htable with
  | root hne heq =>
      rw [hnull] at heq
      simp only [PAGESIZE] at heq
      omega
  | entry _ _ _ ih => exact ih

end Rootless

section Isolated

variable {b : Build} {low : Nat} {strict : Prop} {s : State} {use : Uses} {pid va page level : Nat}

/-- What a process can access, in a state of a run. -/
theorem Inv.userMaps_cases (h : Inv b low strict s use) (hmaps : UserMaps s pid va page) :
    use page = some (.leaf pid (virtualPage va)) ∨
      page = CONSOLE_PAGE ∧ virtualPage va = CONSOLE_PAGE := by
  rcases h.roots pid with hroot | ⟨hnull, -⟩
  · exact h.owned.userMaps_cases hroot hmaps
  · exact absurd hmaps.mapsTo (not_mapsTo_of_null hnull)

theorem Inv.tablePage (h : Inv b low strict s use) (htable : TablePage s pid level page) :
    ∃ region, use page = some (.table pid level region) := by
  rcases h.roots pid with hroot | ⟨hnull, -⟩
  · exact (h.owned.tablePage_iff hroot).mp htable
  · exact absurd htable (not_tablePage_of_null hnull)

/-- Pages of processes are allocated, and no tables. -/
theorem Inv.harmless (h : Inv b low strict s use) {y : Nat} (hleaf : use page = some (.leaf pid y)) :
    Harmless b s page := by
  obtain ⟨hreserved, himage, hstack, -⟩ := h.owned.allocatable page (Owned.use_ne_none hleaf)
  have hbounds := h.owned.bounds (Owned.use_ne_none hleaf)
  refine ⟨by omega, fun hin => ?_, fun hin => ?_, fun hin => hreserved (.inr hin),
    fun pid' level htable => ?_⟩
  · rcases himage with hlow | hhigh <;> omega
  · rcases hstack with hlow | hhigh <;> omega
  · obtain ⟨region, huse⟩ := h.tablePage htable
    cases huse.symm.trans hleaf

theorem Inv.isolated (h : Inv b 256 strict s use) : Isolated b s where
  separate := by
    intro pid pid' va va' page hmaps hmaps' hne
    have hleaf := (h.userMaps_cases hmaps).resolve_right fun hconsole => hne hconsole.1
    have hleaf' := (h.userMaps_cases hmaps').resolve_right fun hconsole => hne hconsole.1
    exact (Use.leaf.inj (Option.some.inj (hleaf.symm.trans hleaf'))).1
  harmless := by
    intro pid va page hmaps hne
    exact h.harmless ((h.userMaps_cases hmaps).resolve_right fun hconsole => hne hconsole.1)
  above := by
    intro pid va page hmaps hva
    have hpage : virtualPage va = va / PAGESIZE := by
      simp only [virtualPage, PAGESIZE, PROC_START_ADDR] at hva ⊢
      omega
    rcases h.userMaps_cases hmaps with hleaf | ⟨-, hconsole⟩
    · have hlow := h.low page pid _ hleaf
      rw [hpage] at hlow
      simp only [PAGESIZE, PROC_START_ADDR] at hva hlow
      omega
    · rw [← hpage, hconsole]

end Isolated

theorem ValidAddress.low {addr : Nat} (h : ValidAddress addr) : 256 ≤ virtualPage addr := by
  obtain ⟨-, hlow, hhigh⟩ := h
  simp only [PROC_START_ADDR, MEMSIZE_VIRTUAL] at hlow hhigh
  simp only [virtualPage, PAGESIZE]
  omega

end Kernel
