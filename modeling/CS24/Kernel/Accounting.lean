import CS24.Kernel.Processes

/-!
# Which pages have a count

A page with a reference count is reached through the page table of some process, if nothing was
mapped twice; or it is the page of the memory viewer, which no process has.
-/

namespace Kernel

open Bytes System

/-- A page that some process has: one of its tables, or what is mapped at an address from
`PROC_START_ADDR` on. -/
def AccountedFor (s : State) (page : Nat) : Prop :=
  (∃ pid level, TablePage s pid level page) ∨
    ∃ pid va, PROC_START_ADDR ≤ va ∧ va < 2 ^ 64 ∧ MapsTo s pid va page

section Addresses

variable {b : Build} {s : State} {use : Uses} {pid va p page level region : Nat}

/-- The tables of a level are for the parts of the address space. -/
theorem Owned.region_lt (h : Owned b s use) (hp : use p = some (.table pid level region)) :
    region < 512 ^ (3 - level) := by
  have hlevel := h.level_le hp
  induction hn : 3 - level generalizing level region p with
  | zero =>
      rcases h.linked p _ hp with ⟨-, rfl, -⟩ | ⟨hlt, -⟩
      · decide
      · omega
  | succ n ih =>
      rcases h.linked p _ hp with ⟨rfl, -⟩ | ⟨hlt, q, hq, -⟩
      · omega
      · have hbelow := ih hq (by omega) (by omega)
        rw [pow_succ]
        omega

/-- Each page of a process is at some address. -/
theorem Owned.exists_address (h : Owned b s use) (hq : use p = some (.leaf pid page)) (hlow : 256 ≤ page) :
    ∃ va, PROC_START_ADDR ≤ va ∧ va < 2 ^ 64 ∧ vaIsCanonical va ∧ virtualPage va = page := by
  have hlt : page < 2 ^ 36 := by
    obtain ⟨q, htable, -⟩ := h.linked p _ hq
    have hregion := h.region_lt htable
    omega
  simp only [PROC_START_ADDR, vaIsCanonical, VA_LOWMAX, VA_HIGHMIN, virtualPage, PAGESIZE]
  -- addresses of the upper half are at the end of the 64 bits
  by_cases hhalf : page < 2 ^ 35
  · exact ⟨page * 4096, by omega, by omega, by omega, by omega⟩
  · exact ⟨page * 4096 + (2 ^ 64 - 2 ^ 48), by omega, by omega, by omega, by omega⟩

/-- An address from `PROC_START_ADDR` on is not one of the kernel. -/
theorem virtualPage_ge (hva : vaIsCanonical va) (hlow : PROC_START_ADDR ≤ va) (hhigh : va < 2 ^ 64) :
    256 ≤ virtualPage va := by
  simp only [PROC_START_ADDR, vaIsCanonical, VA_LOWMAX, VA_HIGHMIN, virtualPage, PAGESIZE] at *
  omega

end Addresses

section Accounting

variable {b : Build} {low : Nat} {strict : Prop} {s : State} {use : Uses} {pid va page : Nat}

/-- What is mapped from `PROC_START_ADDR` on is a page of the process. -/
theorem Inv.leaf_of_mapsTo (h : Inv b low strict s use) (hmaps : MapsTo s pid va page)
    (hlow : PROC_START_ADDR ≤ va) (hhigh : va < 2 ^ 64) : use page = some (.leaf pid (virtualPage va)) := by
  rcases h.roots pid with hroot | ⟨hnull, -⟩
  · obtain ⟨it, hit, hpresent, rfl⟩ := hmaps
    refine (h.owned.mapped_cases hroot hit hpresent).2.resolve_right fun hkernel => ?_
    have hva : vaIsCanonical va := by
      by_contra hnot
      rw [vmiter, if_neg hnot] at hit
      cases hit
      exact hpresent (Nat.zero_and _)
    have hge := virtualPage_ge hva hlow hhigh
    have hlt := hkernel.1.1
    simp only [PAGESIZE, PROC_START_ADDR] at hlt
    omega
  · exact absurd hmaps (not_mapsTo_of_null hnull)

/-- The process can read what is mapped there. -/
theorem Inv.exists_userByte {addr : Nat} (h : Inv b low strict s use) (hmaps : MapsTo s pid addr page)
    (haddr : ValidAddress addr) : ∃ x, userByte s pid addr = some x := by
  have hva : vaIsCanonical addr := haddr.canonical_page rfl
  have hhigh : addr < 2 ^ 64 := haddr.2.2.trans (by decide)
  exact ⟨_, h.owned.userByte_leaf hva (h.leaf_of_mapsTo hmaps haddr.2.1 hhigh)⟩

/-- **The pages of processes** are those of which the record says so. -/
theorem Inv.accountedFor_iff (h : Inv b 256 strict s use) : AccountedFor s page ↔
    (∃ pid level region, use page = some (.table pid level region)) ∨
      ∃ pid y, use page = some (.leaf pid y) := by
  constructor
  · rintro (⟨pid, level, htable⟩ | ⟨pid, va, hlow, hhigh, hmaps⟩)
    · obtain ⟨region, huse⟩ := h.tablePage htable
      exact .inl ⟨pid, level, region, huse⟩
    · exact .inr ⟨pid, _, h.leaf_of_mapsTo hmaps hlow hhigh⟩
  · rintro (⟨pid, level, region, huse⟩ | ⟨pid, y, huse⟩)
    · exact .inl ⟨pid, level, (h.owned.tablePage_iff (h.owned.hasRoot huse)).mpr ⟨region, huse⟩⟩
    · obtain ⟨va, hlow, hhigh, hva, rfl⟩ := h.owned.exists_address huse (h.low page pid y huse)
      exact .inr ⟨pid, va, hlow, hhigh, h.owned.mapsTo_of_leaf hva huse⟩

/-- The pages of processes and that of the memory viewer have a count. -/
theorem Inv.refcount_ne_zero (h : Inv b 256 strict s use)
    (hpage : AccountedFor s page ∨ s.viewer ≠ 0 ∧ s.viewer = page * PAGESIZE) : s.refcount page ≠ 0 := by
  refine h.owned.used page ?_
  rcases hpage with hpage | ⟨hne, hpage⟩
  · rcases h.accountedFor_iff.mp hpage with ⟨pid, level, region, huse⟩ | ⟨pid, y, huse⟩ <;>
      exact Owned.use_ne_none huse
  · obtain ⟨p, hp, huse⟩ := h.viewer.resolve_left hne
    have hsame := hpage.symm.trans hp
    simp only [PAGESIZE] at hsame
    obtain rfl := Nat.eq_of_mul_eq_mul_right (by decide) hsame
    exact Owned.use_ne_none huse

/-- If no page is lost, there are no others with a count. -/
theorem Inv.accountedFor (h : Inv b 256 strict s use) (hstrict : strict) (hpage : s.refcount page ≠ 0) :
    AccountedFor s page ∨ s.viewer ≠ 0 ∧ s.viewer = page * PAGESIZE := by
  obtain ⟨u, huse⟩ := Option.ne_none_iff_exists'.mp (h.counted page hpage)
  cases u with
  | table pid level region => exact .inl (h.accountedFor_iff.mpr (.inl ⟨pid, level, region, huse⟩))
  | leaf pid y => exact .inl (h.accountedFor_iff.mpr (.inr ⟨pid, y, huse⟩))
  | viewer =>
      have hviewer : s.viewer = page * PAGESIZE := h.owned.linked page _ huse
      have hbounds := h.owned.bounds (Owned.use_ne_none huse)
      refine .inr ⟨?_, hviewer⟩
      rw [hviewer]
      simp only [PAGESIZE]
      omega
  | lost => exact absurd huse (h.noLost hstrict page)

end Accounting

/-- **Accounting.** In every run with valid addresses the pages of processes and that of the memory
viewer have a count.  No others have one, if the segments of images have no pages in common and no
address is asked for that is mapped. -/
theorem reach_accounted {b : Build} {command : Option String}
    (hplaces : Places (bootFrees b) (images b command)) :
    (∀ s, Reach (Booted b command) (Turn b fun _ => ValidAddress) s →
      ∀ page, AccountedFor s page ∨ s.viewer ≠ 0 ∧ s.viewer = page * PAGESIZE → s.refcount page ≠ 0) ∧
    ((∀ pgm ∈ images b command, pgm.segments.Pairwise Segment.Disjoint) →
      ∀ s, Reach (Booted b command)
          (Turn b fun s addr => ValidAddress addr ∧ ∀ page, ¬MapsTo s s.current addr page) s →
        ∀ page, s.refcount page ≠ 0 ↔
          AccountedFor s page ∨ s.viewer ≠ 0 ∧ s.viewer = page * PAGESIZE) := by
  constructor
  · intro s hreach page
    have hinv : ∃ use, Inv b 256 False s use ∧ HasRoot s use s.current :=
      reach_inv le_rfl hplaces False.elim (fun _ _ hok => hok.low) False.elim hreach
    obtain ⟨use, hinv, -⟩ := hinv
    exact hinv.refcount_ne_zero
  · intro hdisjoint s hreach page
    have hinv : ∃ use, Inv b 256 True s use ∧ HasRoot s use s.current :=
      reach_inv le_rfl hplaces (fun _ => hdisjoint) (fun _ _ hok => hok.1.low) (fun _ _ _ hok => hok.2)
        hreach
    obtain ⟨use, hinv, -⟩ := hinv
    exact ⟨hinv.accountedFor trivial, hinv.refcount_ne_zero⟩

/-- After the first process has asked for a page that it does not have. -/
theorem small_accounted : ∃ s t, Booted small none s ∧
    Turn small (fun s addr => ValidAddress addr ∧ ∀ page, ¬MapsTo s s.current addr page) s t ∧
    ∀ page, t.refcount page ≠ 0 ↔ AccountedFor t page ∨ t.viewer ≠ 0 ∧ t.viewer = page * PAGESIZE := by
  obtain ⟨s, t, u, hbooted, hworld, hshow, hcall⟩ := exists_small
  have haddr : ValidAddress 0x110000 := ⟨by decide, by decide, by decide⟩
  obtain ⟨use, hinv, -⟩ : ∃ use, Inv small 256 False s use ∧ HasRoot s use s.current :=
    hbooted.inv small_places False.elim
  have hcurrent : s.current = 1 := congrArg World.current hworld
  have hnew : ∀ page, ¬MapsTo s s.current 0x110000 page := by
    intro page hmaps
    obtain ⟨x, hx⟩ := hinv.exists_userByte hmaps haddr
    have hnone : userByte s 1 0x110000 = none := congrFun (congrFun (congrArg World.memory hworld) 1) 0x110000
    rw [hcurrent, hnone] at hx
    cases hx
  have hturn : Turn small (fun s addr => ValidAddress addr ∧ ∀ page, ¬MapsTo s s.current addr page) s u :=
    .pageAlloc ⟨haddr, hnew⟩ hshow hcall
  exact ⟨s, u, hbooted, hturn,
    (reach_accounted small_places).2 small_disjoint u (.step (.init hbooted) hturn)⟩

/-- As soon as the process has asked for its number, the memory viewer has a page that no process
has. -/
theorem idle_not_accounted : ∃ s page, Reachable idle (fun _ => ValidAddress) s ∧
    s.refcount page ≠ 0 ∧ ¬AccountedFor s page := by
  obtain ⟨s, use, f, rest, p, hbooted, hinv, -, hviewer, hf, -⟩ := exists_idle
  have hshow := memshow_first hviewer hf
  obtain ⟨use₁, hinv₁, -⟩ := hinv.memshow hshow
  have hbounds := free_bounds (mem_frees.mp (hf ▸ List.mem_cons_self))
  have hne : f * PAGESIZE ≠ 0 := by
    simp only [PAGESIZE]
    omega
  obtain ⟨q, hq, huse⟩ := hinv₁.viewer.resolve_left hne
  refine ⟨_, q, .step (.init ⟨_, hbooted⟩) (.getpid hshow), hinv₁.owned.used q (Owned.use_ne_none huse), ?_⟩
  rw [hinv₁.accountedFor_iff]
  rintro (⟨pid, level, region, htable⟩ | ⟨pid, y, hleaf⟩)
  · cases huse.symm.trans htable
  · cases huse.symm.trans hleaf

end Kernel
