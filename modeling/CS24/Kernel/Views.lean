import CS24.Kernel.Segments

/-!
# What a process sees

The address space of a process as the hardware sees it: which bytes it reads, which pages are
its tables and which it can access.  Where the pages have a record of their uses, this is what
the record says.
-/

namespace Kernel

open Bytes

/-- The byte that is read at an address through the table of process `pid`. -/
def readByte (s : State) (pid va : Nat) : Option UInt8 :=
  match vmiter s.mem (s.pagetable pid) va with
  | .ok it => if it.entry s.mem &&& PTE_P = 0 then none else some (s.mem (it.pa s.mem))
  | .error _ => none

/-- The pages that the walks of process `pid` go through. -/
inductive TablePage (s : State) (pid : Nat) : (level page : Nat) → Prop
  | root {page : Nat} : page ≠ 0 → s.pagetable pid = page * PAGESIZE → TablePage s pid 3 page
  | entry {level page i : Nat} : TablePage s pid (level + 1) page → i < 512 →
      load64 s.mem (slot page i) &&& (PTE_P ||| PTE_PS) = PTE_P →
      TablePage s pid level ((load64 s.mem (slot page i) &&& PTE_PAMASK) / PAGESIZE)

/-- The address space of process `pid` has page `page` at an address, for the kernel or for the
process. -/
def MapsTo (s : State) (pid va page : Nat) : Prop :=
  ∃ it, vmiter s.mem (s.pagetable pid) va = .ok it ∧ it.entry s.mem &&& PTE_P ≠ 0 ∧
    it.pa s.mem / PAGESIZE = page

section Views

/-- The process that runs and the states of processes do not matter. -/
theorem Owned.congr {b : Build} {s s' : State} {use : Uses} (h : Owned b s use)
    (hmem : s'.mem = s.mem) (hrefcount : s'.refcount = s.refcount)
    (hpagetable : s'.pagetable = s.pagetable) (hviewer : s'.viewer = s.viewer) : Owned b s' use := by
  obtain ⟨mem, refcount, pagetable, procState, current, viewer⟩ := s'
  obtain rfl : mem = s.mem := hmem
  obtain rfl : refcount = s.refcount := hrefcount
  obtain rfl : pagetable = s.pagetable := hpagetable
  obtain rfl : viewer = s.viewer := hviewer
  exact ⟨h.used, h.allocatable, h.entries, h.linked⟩

variable {b : Build} {s : State} {use : Uses} {pid va page p q level region : Nat}

/-- The pages of the process. -/
theorem Owned.readByte_eq (h : Owned b s use) (hva : vaIsCanonical va)
    (hq : use q = some (.leaf pid (virtualPage va))) :
    readByte s pid va = some (s.mem (q * PAGESIZE + va % PAGESIZE)) := by
  obtain ⟨p, hp, hentry⟩ := h.linked q _ hq
  have hit := arrives_table (s := s) hp
  have hentry' : load64 s.mem (entrySlot va 0 p) = q * PAGESIZE + 7 := by
    rw [entrySlot, number_zero, hentry]
  have hpa := hit.pa_eq hentry' (h.bounds (Owned.use_ne_none hq)).2 (.inr rfl)
  have hpresent : (q * PAGESIZE + 7) &&& PTE_P ≠ 0 := by
    rw [flags_eq (by decide) (by decide)]
    decide
  rw [readByte, hit.vmiter_eq h hva]
  simp only [Vmiter.entry, hentry', hpresent, if_false, hpa]

/-- The iterator for a page of the process. -/
theorem Owned.leaf_vmiter (h : Owned b s use) (hva : vaIsCanonical va)
    (hq : use q = some (.leaf pid (virtualPage va))) :
    ∃ it, vmiter s.mem (s.pagetable pid) va = .ok it ∧ it.perm = 0xFFF ∧
      it.entry s.mem = q * PAGESIZE + 7 ∧ it.pa s.mem / PAGESIZE = q := by
  obtain ⟨p, hp, hentry⟩ := h.linked q _ hq
  have hit := arrives_table (s := s) hp
  have hentry' : load64 s.mem (entrySlot va 0 p) = q * PAGESIZE + 7 := by
    rw [entrySlot, number_zero, hentry]
  refine ⟨_, hit.vmiter_eq h hva, rfl, hentry', ?_⟩
  rw [hit.pa_eq hentry' (h.bounds (Owned.use_ne_none hq)).2 (.inr rfl)]
  simp only [PAGESIZE]
  omega

/-- A page of the process is one that it can access. -/
theorem Owned.userMaps_of_leaf (h : Owned b s use) (hva : vaIsCanonical va)
    (hq : use q = some (.leaf pid (virtualPage va))) : UserMaps s pid va q := by
  obtain ⟨it, hit, hall, hentry, hpa⟩ := h.leaf_vmiter hva hq
  refine ⟨it, hit, ?_, hpa⟩
  have hperm : (q * PAGESIZE + 7) &&& 0xFFF = 7 := by
    rw [flags_eq (by decide) (by decide)]
    rfl
  simp only [Vmiter.user, Vmiter.permissions, hentry, hall, hperm]
  decide

theorem Owned.mapsTo_of_leaf (h : Owned b s use) (hva : vaIsCanonical va)
    (hq : use q = some (.leaf pid (virtualPage va))) : MapsTo s pid va q := by
  obtain ⟨it, hit, -, hentry, hpa⟩ := h.leaf_vmiter hva hq
  refine ⟨it, hit, ?_, hpa⟩
  rw [hentry, flags_eq (by decide) (by decide)]
  decide

/-- **Mappings.** What is mapped is a page of the process, or one that the kernel mapped below
`PROC_START_ADDR` to itself. -/
theorem Owned.mapped_cases (h : Owned b s use) (hroot : HasRoot s use pid) {it : Vmiter}
    (hit : vmiter s.mem (s.pagetable pid) va = .ok it) (hpresent : it.entry s.mem &&& PTE_P ≠ 0) :
    it.perm = 0xFFF ∧
      (use (it.pa s.mem / PAGESIZE) = some (.leaf pid (virtualPage va)) ∨
        KernelLeaf (virtualPage va) (it.entry s.mem) ∧ it.pa s.mem / PAGESIZE = virtualPage va) := by
  have hva : vaIsCanonical va := by
    by_contra hnot
    rw [vmiter, if_neg hnot] at hit
    cases hit
    exact hpresent (Nat.zero_and _)
  obtain ⟨level, -, p, it', harrives, hvmiter⟩ := h.vmiter_spec hroot hva
  obtain rfl := Except.ok.inj (hvmiter.symm.trans hit)
  have heq : it'.entry s.mem = load64 s.mem (entrySlot va level p) := by rw [harrives.eq]; rfl
  have hperm : it'.perm = 0xFFF := by rw [harrives.eq]
  refine ⟨hperm, ?_⟩
  rcases Nat.eq_zero_or_pos level with rfl | hpos
  · have hentry := h.entry_number harrives.table
    rw [number_zero] at hentry
    have hpage : ∀ {q perm}, load64 s.mem (entrySlot va 0 p) = q * PAGESIZE + perm → q < 512 →
        perm = 3 ∨ perm = 7 → it'.pa s.mem / PAGESIZE = q := by
      intro q perm hload hq hflags
      rw [harrives.pa_eq hload hq hflags]
      simp only [PAGESIZE]
      omega
    rw [heq]
    generalize hload : load64 s.mem (entrySlot va 0 p) = e at *
    rw [heq] at hpresent
    cases hentry with
    | absent => exact absurd (Nat.zero_and _) hpresent
    | leaf hq =>
        rw [hpage rfl (h.bounds (Owned.use_ne_none hq)).2 (.inr rfl)]
        exact .inl hq
    | kernel hkernel =>
        have hlt : virtualPage va < 512 := hkernel.1.trans (by decide)
        refine .inr ⟨hkernel, ?_⟩
        rcases hkernel.2 with rfl | ⟨-, rfl⟩
        · exact hpage rfl hlt (.inl rfl)
        · exact hpage rfl hlt (.inr rfl)
  · obtain ⟨n, rfl⟩ := Nat.exists_eq_succ_of_ne_zero (Nat.ne_zero_of_lt hpos)
    rw [heq, harrives.entry_zero] at hpresent
    exact absurd (Nat.zero_and _) hpresent

/-- **Accesses.** What a process can access is one of its pages, or the console. -/
theorem Owned.userMaps_cases (h : Owned b s use) (hroot : HasRoot s use pid)
    (hmaps : UserMaps s pid va page) :
    use page = some (.leaf pid (virtualPage va)) ∨
      page = CONSOLE_ADDR / PAGESIZE ∧ virtualPage va = CONSOLE_ADDR / PAGESIZE := by
  obtain ⟨it, hit, huser, rfl⟩ := hmaps
  rw [Vmiter.user, decide_eq_true_iff, Vmiter.permissions] at huser
  have hpresent : it.entry s.mem &&& PTE_P ≠ 0 := by
    intro hzero
    have hph : it.entry s.mem &&& it.perm &&& PTE_P = 0 := by
      rw [Nat.and_right_comm, hzero, Nat.zero_and]
    rw [if_pos hph] at huser
    cases huser
  obtain ⟨hperm, hleaf | ⟨hkernel, hpage⟩⟩ := h.mapped_cases hroot hit hpresent
  · exact .inl hleaf
  · refine .inr ?_
    obtain ⟨-, hthree | ⟨hconsole, -⟩⟩ := hkernel
    · -- other pages of the kernel are not for processes
      rw [hperm, hthree, flags_eq (by decide) (by decide)] at huser
      cases huser
    · exact ⟨hpage.trans hconsole, hconsole⟩

/-- **Tables.** The walks go through the tables of the record. -/
theorem Owned.tablePage_iff (h : Owned b s use) (hroot : HasRoot s use pid) :
    TablePage s pid level page ↔ ∃ region, use page = some (.table pid level region) := by
  constructor
  · intro htable
    induction htable with
    | root hne heq =>
        obtain ⟨p, hp, huse⟩ := hroot
        have hpage := heq.symm.trans hp
        simp only [PAGESIZE] at hpage
        obtain rfl := Nat.eq_of_mul_eq_mul_right (by decide) hpage
        exact ⟨0, huse⟩
    | @entry level page i _ hi hpresent ih =>
        obtain ⟨region, huse⟩ := ih
        rcases (h.entries page pid (level + 1) region huse i hi).present with hzero | ⟨q, hq, huse'⟩
        · rw [hzero] at hpresent
          cases hpresent
        · have hbounds := h.bounds (Owned.use_ne_none huse')
          rw [hq, address_eq (by decide) (by omega), Nat.mul_div_cancel _ (by decide)]
          exact ⟨_, huse'⟩
  · rintro ⟨region, huse⟩
    have hlevel := h.level_le huse
    induction hn : 3 - level generalizing level page region with
    | zero =>
        rcases h.linked page _ huse with ⟨rfl, -, heq⟩ | ⟨hlt, -⟩
        · exact .root (by have := h.bounds (Owned.use_ne_none huse); omega) heq
        · omega
    | succ n ih =>
        rcases h.linked page _ huse with ⟨rfl, -⟩ | ⟨-, p, hp, hentry⟩
        · omega
        · have hbounds := h.bounds (Owned.use_ne_none huse)
          have habove := ih (region / 512) hp (by omega) (by omega)
          have hbelow := TablePage.entry habove (Nat.mod_lt region (show 0 < 512 by decide))
            (by rw [hentry, flags_eq (by decide) (by decide)]; decide)
          rwa [hentry, address_eq (by decide) (by omega), Nat.mul_div_cancel _ (by decide)] at hbelow

end Views

end Kernel
