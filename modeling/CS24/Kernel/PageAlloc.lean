import CS24.Kernel.Loads

/-!
# `sys_page_alloc`

The system call takes a page, maps it and clears what is mapped.  It does not look at its
argument, nor at what the mapping returns.  So an argument that is no good is not rejected, and
when the tables for a mapping do not fit any more the kernel stops: there is no address where
the page could be cleared.
-/

namespace Kernel

open Bytes

section Calls

variable {b : Build} {s u : State} {use : Uses} {pid addr level p f : Nat} {rest : List Nat}
  {it : Vmiter} {r : Int}

/-- Without a free page the call fails. -/
theorem syscallPageAlloc_nil (hf : frees b s = []) : syscallPageAlloc b addr s = .ok (-1, s) := by
  rw [syscallPageAlloc, kalloc_nil hf]
  rfl

/-- With one, it maps the page and clears it. -/
theorem syscallPageAlloc_cons (hf : frees b s = f :: rest) :
    syscallPageAlloc b addr s = (do
      let (_, s) ← memoryMap b (s.pagetable s.current) addr (f * PAGESIZE) PTE_PWU (s.allocated f)
      let ptr ← memoryVirtualToPhysical (s.pagetable s.current) addr s
      let s ← memset ptr 0 PAGESIZE s
      .ok (0, s)) := by
  have hne : f * PAGESIZE ≠ 0 := by
    have hbounds := free_bounds (mem_frees.mp (hf ▸ List.mem_cons_self))
    simp only [PAGESIZE]
    omega
  rw [syscallPageAlloc, kalloc_cons hf]
  simp only [hne, if_false]
  rfl

/-- With a free page the call does not fail with a result. -/
theorem syscallPageAlloc_result (hf : frees b s = f :: rest)
    (h : syscallPageAlloc b addr s = .ok (r, u)) : r = 0 := by
  rw [syscallPageAlloc_cons hf] at h
  obtain ⟨⟨_, s₁⟩, -, h⟩ := Checked.bind_eq_ok h
  obtain ⟨ptr, -, h⟩ := Checked.bind_eq_ok h
  obtain ⟨s₂, -, h⟩ := Checked.bind_eq_ok h
  cases h
  rfl

end Calls

/-! ## Arguments -/

/-- The arguments that the documentation of `sys_page_alloc` excludes. -/
def BadAddress (addr : Nat) : Prop :=
  addr % PAGESIZE ≠ 0 ∨ addr < PROC_START_ADDR ∨ MEMSIZE_VIRTUAL ≤ addr

/-- The call returns -1, and all tables and counts stay as they are. -/
def Rejects (b : Build) (addr : Nat) (s : State) : Prop :=
  ∃ u, syscallPageAlloc b addr s = .ok (-1, u) ∧ u.refcount = s.refcount ∧
    u.pagetable = s.pagetable ∧
    ∀ pid level a, TablePage s pid level (a / PAGESIZE) → u.mem a = s.mem a

/-- **Arguments.** An argument that is no good is rejected only if no page is free. -/
theorem syscallPageAlloc_rejects_iff {b : Build} {addr : Nat} {s : State} (_ : BadAddress addr) :
    Rejects b addr s ↔ frees b s = [] := by
  constructor
  · rintro ⟨u, hrun, -⟩
    cases hf : frees b s with
    | nil => rfl
    | cons f rest =>
        have hresult := syscallPageAlloc_result hf hrun
        omega
  · intro hf
    exact ⟨s, syscallPageAlloc_nil hf, rfl, rfl, fun _ _ _ _ => rfl⟩

theorem rejects_null_iff : Rejects (kernelWith smallImage) 0 (bootState fun _ => 0) ↔
    frees (kernelWith smallImage) (bootState fun _ => 0) = [] :=
  syscallPageAlloc_rejects_iff (.inr (.inl (by decide)))

/-! ## Pages that are mapped -/

section Maps

variable {b : Build} {s u : State} {use : Uses} {pid addr level p f : Nat} {rest : List Nat}
  {it : Vmiter} {r : Int}

theorem down_va {mem : Mem} {table pep perm : Nat} (h : down mem table addr level pep perm = .ok it) :
    it.va = addr := by
  induction level generalizing pep perm with
  | zero =>
      unfold down at h
      dsimp only at h
      split_ifs at h
      cases h
      rfl
  | succ level ih =>
      unfold down at h
      dsimp only at h
      split_ifs at h
      · exact ih h
      · cases h
        rfl

/-- An address that is not that of a page stops the kernel. -/
theorem memoryMap_unaligned {table pa perm : Nat} {x : Int × State} (haddr : addr % PAGESIZE ≠ 0) :
    memoryMap b table addr pa perm s ≠ .ok x := by
  intro h
  obtain ⟨it, hit, hmap⟩ := Checked.bind_eq_ok h
  have hva : it.va = addr := by
    rw [vmiter] at hit
    split_ifs at hit
    · exact down_va hit
    · cases hit
      rfl
  rw [Vmiter.tryMap, hva] at hmap
  simp only [haddr, ne_eq, not_false_eq_true, if_true] at hmap
  cases hmap

/-- So does one that is not canonical. -/
theorem memoryMap_not_canonical {table : Nat} {x : Int × State} (haddr : ¬vaIsCanonical addr)
    (hf : f < 512) : memoryMap b table addr (f * PAGESIZE) PTE_PWU s ≠ .ok x := by
  intro h
  by_cases halign : addr % PAGESIZE = 0
  · have hit : vmiter s.mem table addr = .ok ⟨table, none, 3, 0, addr⟩ := by
      rw [vmiter, if_neg haddr]
    rw [memoryMap, hit] at h
    have hmask : f * PAGESIZE &&& PTE_PAMASK = f * PAGESIZE := by
      have haddress := address_eq (f := 0) (q := f) (by decide) (by omega)
      rwa [Nat.add_zero] at haddress
    have hmap : Vmiter.tryMap b ⟨table, none, 3, 0, addr⟩ (f * PAGESIZE) PTE_PWU s = .error .assertion := by
      unfold Vmiter.tryMap
      simp [hmask, halign]
    cases hmap.symm.trans h
  · exact memoryMap_unaligned halign h

/-- **Enough pages.** The page is mapped and cleared. -/
theorem syscallPageAlloc_enough (h : Owned b s use) (hit : Arrives s use s.current addr level p it)
    (hva : vaIsCanonical addr) (halign : addr % PAGESIZE = 0) (hf : frees b s = f :: rest)
    (henough : level ≤ rest.length) :
    ∃ s' use', syscallPageAlloc b addr s =
        .ok (0, { s' with mem := fill s'.mem (f * PAGESIZE) 0 PAGESIZE }) ∧
      Mapped b s.current (virtualPage addr) level f rest s use s' use' := by
  obtain ⟨s', use', hrun, hm⟩ := h.mapped hit hva halign hf henough
  have hsame : s'.pagetable s'.current = s'.pagetable s.current := by rw [hm.same]
  have hptr := hm.owned.translate hva hm.leaf
  rw [halign, Nat.add_zero, ← hsame] at hptr
  refine ⟨s', use', ?_, hm⟩
  rw [syscallPageAlloc_cons hf, hrun, ok_bind]
  dsimp only
  rw [hptr, ok_bind, memset_page (free_bounds (mem_frees.mp (hf ▸ List.mem_cons_self)))]
  rfl

/-- **Not enough pages.** The page that would be cleared is at address -1. -/
theorem syscallPageAlloc_short (h : Owned b s use) (hit : Arrives s use s.current addr level p it)
    (hva : vaIsCanonical addr) (halign : addr % PAGESIZE = 0) (hf : frees b s = f :: rest)
    (hshort : rest.length < level) : syscallPageAlloc b addr s = .error .pageFault := by
  obtain ⟨s', use', p', it', hrun, howned, -, hcurrent, hit'⟩ := h.not_mapped hit hva halign hf hshort
  obtain ⟨n, hn⟩ := Nat.exists_eq_add_of_lt hshort
  have hlevel : level - rest.length = n + 1 := by omega
  rw [hlevel] at hit'
  have hptr := howned.translate_absent hva hit'
  rw [← hcurrent] at hptr
  have hset : memset (2 ^ 64 - 1) 0 PAGESIZE s' = .error .pageFault := by
    rw [memset, if_neg (by decide), if_neg (by decide)]
  rw [syscallPageAlloc_cons hf, hrun, ok_bind]
  dsimp only
  rw [hptr, ok_bind, hset]
  rfl

/-- **The system call.** It fails as there is no page, or the page that it takes is mapped and
cleared. -/
theorem syscallPageAlloc_spec (h : Owned b s use) (hroot : HasRoot s use s.current)
    (hrun : syscallPageAlloc b addr s = .ok (r, u)) :
    r = -1 ∧ u = s ∨
      r = 0 ∧ vaIsCanonical addr ∧ addr % PAGESIZE = 0 ∧ ∃ f rest level s' use',
        frees b s = f :: rest ∧ Mapped b s.current (virtualPage addr) level f rest s use s' use' ∧
        u = { s' with mem := fill s'.mem (f * PAGESIZE) 0 PAGESIZE } := by
  cases hf : frees b s with
  | nil =>
      rw [syscallPageAlloc_nil hf] at hrun
      obtain ⟨rfl, rfl⟩ := Prod.mk.inj (Except.ok.inj hrun)
      exact .inl ⟨rfl, rfl⟩
  | cons f rest =>
      obtain ⟨x, hmap, -⟩ := Checked.bind_eq_ok ((syscallPageAlloc_cons hf).symm.trans hrun)
      have halign : addr % PAGESIZE = 0 := by
        by_contra hne
        exact memoryMap_unaligned hne hmap
      have hva : vaIsCanonical addr := by
        by_contra hne
        exact memoryMap_not_canonical hne (free_bounds (mem_frees.mp (hf ▸ List.mem_cons_self))).2 hmap
      obtain ⟨level, -, p, it, hit, -⟩ := h.vmiter_spec hroot hva
      rcases Nat.lt_or_ge rest.length level with hshort | henough
      · cases (syscallPageAlloc_short h hit hva halign hf hshort).symm.trans hrun
      · obtain ⟨s', use', hrun', hm⟩ := syscallPageAlloc_enough h hit hva halign hf henough
        obtain ⟨rfl, rfl⟩ := Prod.mk.inj (Except.ok.inj (hrun'.symm.trans hrun))
        exact .inr ⟨rfl, hva, halign, f, rest, level, s', use', rfl, hm, rfl⟩

end Maps

/-! ## Memory that runs out -/

/-- If the page or one of the tables that are missing cannot be allocated, the call returns -1, and
all mappings and counts stay as they are; and the address that is cleared is mapped. -/
def Atomic (b : Build) (addr : Nat) (s : State) : Prop :=
  (∀ it, vmiter s.mem (s.pagetable s.current) addr = .ok it → (frees b s).length < it.level + 1 →
    ∃ u, syscallPageAlloc b addr s = .ok (-1, u) ∧ u.refcount = s.refcount ∧
      ∀ pid va page, MapsTo u pid va page ↔ MapsTo s pid va page) ∧
  ∀ f rest result t, frees b s = f :: rest →
    memoryMap b (s.pagetable s.current) addr (f * PAGESIZE) PTE_PWU (s.allocated f) = .ok (result, t) →
    ∃ page, MapsTo t t.current addr page

/-- A call with a free page does not return -1, so it is not atomic where pages are missing. -/
theorem atomic_iff_of_maps {b : Build} {s : State} {addr : Nat} {it : Vmiter}
    (hit : vmiter s.mem (s.pagetable s.current) addr = .ok it)
    (hmaps : ∀ f rest result t, frees b s = f :: rest → it.level ≤ rest.length →
      memoryMap b (s.pagetable s.current) addr (f * PAGESIZE) PTE_PWU (s.allocated f) = .ok (result, t) →
      ∃ page, MapsTo t t.current addr page) :
    Atomic b addr s ↔ frees b s = [] ∨ it.level < (frees b s).length := by
  constructor
  · rintro ⟨hatomic, -⟩
    by_contra hnot
    rw [not_or, Nat.not_lt] at hnot
    obtain ⟨f, rest, hf⟩ := List.exists_cons_of_ne_nil hnot.1
    obtain ⟨u, hrun, -⟩ := hatomic it hit (by omega)
    have hresult := syscallPageAlloc_result hf hrun
    omega
  · rintro (hnil | hlt)
    · refine ⟨fun _ _ _ => ⟨s, syscallPageAlloc_nil hnil, rfl, fun _ _ _ => Iff.rfl⟩, ?_⟩
      intro f rest result t hf
      cases hnil.symm.trans hf
    · refine ⟨fun it' hit' hshort => ?_, fun f rest result t hf => hmaps f rest result t hf ?_⟩
      · obtain rfl := Except.ok.inj (hit.symm.trans hit')
        omega
      · rw [hf, List.length_cons] at hlt
        omega

/-- **Memory that runs out.** The call is atomic if no page is free, or if the page and all tables
can be allocated. -/
theorem atomic_iff {b : Build} {s : State} {use : Uses} {addr level p : Nat} {it : Vmiter}
    (h : Owned b s use) (hit : Arrives s use s.current addr level p it) (hva : vaIsCanonical addr)
    (halign : addr % PAGESIZE = 0) :
    Atomic b addr s ↔ frees b s = [] ∨ it.level < (frees b s).length := by
  have hlevel : it.level = level := by rw [hit.eq]
  refine atomic_iff_of_maps (hit.vmiter_eq h hva) fun f rest result t hf henough hrun => ?_
  obtain ⟨s', use', hrun', hm⟩ := h.mapped hit hva halign hf (by omega)
  obtain ⟨-, rfl⟩ := Prod.mk.inj (Except.ok.inj (hrun'.symm.trans hrun))
  have hcurrent : s'.current = s.current := by rw [hm.same]
  exact ⟨f, hm.owned.mapsTo_of_leaf hva (by rw [hcurrent]; exact hm.leaf)⟩

end Kernel
