import CS24.Kernel.Ownership

/-!
# Walks through a page table

In a memory whose pages have a record of their uses, the walk for an address goes from
one table of the process to the next, and ends in an entry at level 0 or in an empty
entry above it.
-/

namespace Kernel

open Bytes

/-- The number of the entry for an address among those of all tables of a level. -/
def number (va level : Nat) : Nat := virtualPage va / 512 ^ level

/-- The entry for an address in the table in page `p`. -/
def entrySlot (va level p : Nat) : Nat := slot p (number va level % 512)

/-- A walk for `va` in the table of `pid` that ended at a level in page `p`. -/
structure Arrives (s : State) (use : Uses) (pid va level p : Nat) (it : Vmiter) : Prop where
  eq : it = ⟨s.pagetable pid, some (entrySlot va level p), level, 0xFFF, va⟩
  table : use p = some (.table pid level (number va level / 512))
  ends : level = 0 ∨ load64 s.mem (entrySlot va level p) = 0

/-! ## Entries -/

section Entries

variable {use : Uses} {pid level y e q f va : Nat}

theorem number_succ : number va (level + 1) = number va level / 512 := by
  rw [number, number, pow_succ, ← Nat.div_div_eq_div_mul]

/-- There is one table at the top. -/
theorem number_root (va : Nat) : number va 3 / 512 = 0 := by
  rw [number, virtualPage, Nat.div_div_eq_div_mul, Nat.div_div_eq_div_mul]
  exact Nat.div_eq_of_lt (Nat.mod_lt _ (by decide))

theorem pageindex_eq (hlevel : level ≤ 3) : pageindex va level = number va level % 512 := by
  unfold pageindex number virtualPage
  interval_cases level <;> simp only [PAGEOFFBITS, PAGEINDEXBITS, PAGESIZE] <;> omega

/-- The flags of an entry. -/
theorem flags_eq (hf : f < 4096) {m : Nat} (hm : m < 4096) : (q * PAGESIZE + f) &&& m = f &&& m :=
  Packed.and_low (k := 12) hf hm

/-- The address in an entry. -/
theorem address_eq (hf : f < 4096) (hq : q < 2 ^ 40) :
    (q * PAGESIZE + f) &&& PTE_PAMASK = q * PAGESIZE :=
  Packed.and_high (k := 12) (n := 40) hf hq

/-- A table passes all permissions on. -/
theorem permissions_eq : 0xFFF &&& ((q * PAGESIZE + 7) ||| (2 ^ 64 - 1 - PTE_PWU)) = 0xFFF := by
  rw [Nat.and_or_distrib_left, Nat.and_comm, flags_eq (by decide) (by decide)]
  decide

/-- At level 0 a walk ends. -/
theorem down_zero {mem : Mem} {pt p : Nat}
    (hslot : PAGESIZE ≤ entrySlot va 0 p ∧ entrySlot va 0 p + 8 ≤ MEMSIZE_PHYSICAL)
    (haddress : load64 mem (entrySlot va 0 p) &&& PTE_PAMASK < 0x100000000) :
    down mem pt va 0 (entrySlot va 0 p) 0xFFF = .ok ⟨pt, some (entrySlot va 0 p), 0, 0xFFF, va⟩ := by
  rw [down, if_neg (by omega)]
  simp only [if_neg (Nat.not_le.mpr haddress)]

/-- Above, it goes on in the table that the entry leads to. -/
theorem down_table {mem : Mem} {pt p : Nat}
    (hslot : PAGESIZE ≤ entrySlot va (level + 1) p ∧ entrySlot va (level + 1) p + 8 ≤ MEMSIZE_PHYSICAL)
    (hlevel : level ≤ 3) (hq : q < 512)
    (hentry : load64 mem (entrySlot va (level + 1) p) = q * PAGESIZE + 7) :
    down mem pt va (level + 1) (entrySlot va (level + 1) p) 0xFFF =
      down mem pt va level (entrySlot va level q) 0xFFF := by
  -- the address in the entry is that of the next table
  have hnext : (q * PAGESIZE + 7 &&& PTE_PAMASK) + 8 * pageindex va level = entrySlot va level q := by
    rw [address_eq (by decide) (by omega), pageindex_eq hlevel]
    rfl
  have hpresent : q * PAGESIZE + 7 &&& (PTE_P ||| PTE_PS) = PTE_P := by
    rw [flags_eq (by decide) (by decide)]
    decide
  rw [down, if_neg (by omega)]
  simp only [hentry, hpresent, if_true, hnext, permissions_eq]

/-- A present entry above level 0 leads to a table. -/
theorem EntryOk.present (h : EntryOk use pid (level + 1) y e) :
    e = 0 ∨ ∃ q, e = q * PAGESIZE + 7 ∧ use q = some (.table pid level y) := by
  cases h with
  | absent => exact .inl rfl
  | table hq => exact .inr ⟨_, rfl, hq⟩

end Entries

namespace Owned

variable {b : Build} {s : State} {use : Uses} {p pid level va : Nat}

/-- The pages that entries lead to are in memory. -/
theorem address_lt {y e : Nat} (h : Owned b s use) (he : EntryOk use pid level y e) :
    e &&& PTE_PAMASK < 0x100000000 := by
  have hpage : ∀ q f, q < 512 → f < 4096 → (q * PAGESIZE + f) &&& PTE_PAMASK < 0x100000000 := by
    intro q f hq hf
    rw [address_eq hf (by omega)]
    simp only [PAGESIZE]
    omega
  cases he with
  | absent => rw [Nat.zero_and]; decide
  | table huse | leaf huse =>
      exact hpage _ 7 (h.bounds fun hnone => by cases hnone.symm.trans huse).2 (by decide)
  | kernel hkernel =>
      obtain ⟨hlt, rfl | ⟨-, rfl⟩⟩ := hkernel
      · exact hpage y 3 (hlt.trans (by decide)) (by decide)
      · exact hpage y 7 (hlt.trans (by decide)) (by decide)

theorem level_le {region : Nat} (h : Owned b s use) (hp : use p = some (.table pid level region)) :
    level ≤ 3 := by
  rcases h.linked p _ hp with ⟨rfl, -⟩ | ⟨hlt, -⟩ <;> omega

/-- The entry for an address. -/
theorem entry_number (h : Owned b s use)
    (hp : use p = some (.table pid level (number va level / 512))) :
    EntryOk use pid level (number va level) (load64 s.mem (entrySlot va level p)) := by
  have hentry := h.entries p pid level _ hp (number va level % 512) (Nat.mod_lt _ (by decide))
  rwa [Nat.div_add_mod'] at hentry

/-- The entries of a table can be read. -/
theorem slot_readable (h : Owned b s use) (hp : use p ≠ none) (va level : Nat) :
    PAGESIZE ≤ entrySlot va level p ∧ entrySlot va level p + 8 ≤ MEMSIZE_PHYSICAL := by
  have hbounds := h.bounds hp
  have hindex := Nat.mod_lt (number va level) (show 0 < 512 by decide)
  simp only [entrySlot, slot, PAGESIZE, MEMSIZE_PHYSICAL]
  omega

/-- **Walks.** From a table of the process the walk goes down to its end. -/
theorem down_spec (h : Owned b s use)
    (hp : use p = some (.table pid level (number va level / 512))) :
    ∃ level' ≤ level, ∃ p' it, Arrives s use pid va level' p' it ∧
      down s.mem (s.pagetable pid) va level (entrySlot va level p) 0xFFF = .ok it := by
  induction level generalizing p with
  | zero =>
      have hslot := h.slot_readable (fun hnone => by cases hnone.symm.trans hp) va 0
      exact ⟨0, le_refl _, p, _, ⟨rfl, hp, .inl rfl⟩, down_zero hslot (h.address_lt (h.entry_number hp))⟩
  | succ level ih =>
      have hslot := h.slot_readable (fun hnone => by cases hnone.symm.trans hp) va (level + 1)
      have hlevel := h.level_le hp
      rcases (h.entry_number hp).present with hzero | ⟨q, hq, huse⟩
      · refine ⟨level + 1, le_refl _, p, _, ⟨rfl, hp, .inr hzero⟩, ?_⟩
        rw [down, if_neg (by omega)]
        simp [hzero]
      · have hbound := h.bounds fun hnone => by cases hnone.symm.trans huse
        rw [number_succ] at huse
        obtain ⟨level', hle, p', it, harrives, hdown⟩ := ih huse
        exact ⟨level', by omega, p', it, harrives,
          (down_table hslot (by omega) hbound.2 hq).trans hdown⟩

/-- The iterator for an address of a process. -/
theorem vmiter_spec (h : Owned b s use) (hpid : HasRoot s use pid) (hva : vaIsCanonical va) :
    ∃ level ≤ 3, ∃ p it, Arrives s use pid va level p it ∧
      vmiter s.mem (s.pagetable pid) va = .ok it := by
  obtain ⟨p, hroot, hp⟩ := hpid
  rw [← number_root va] at hp
  obtain ⟨level, hle, p', it, harrives, hdown⟩ := h.down_spec hp
  refine ⟨level, hle, p', it, harrives, ?_⟩
  rw [vmiter, if_pos hva, ← hdown, hroot, pageindex_eq (le_refl _)]
  rfl

/-- Above a table for an address, the entries for the address are present. -/
theorem entry_ne_zero (h : Owned b s use) {p' level' : Nat}
    (hp : use p = some (.table pid level (number va level / 512)))
    (hp' : use p' = some (.table pid level' (number va level' / 512))) (hlt : level < level') :
    load64 s.mem (entrySlot va level' p') ≠ 0 := by
  obtain ⟨k, rfl⟩ := Nat.exists_eq_add_of_lt hlt
  induction k generalizing p level with
  | zero =>
      have hlevel := h.level_le hp'
      obtain ⟨rfl, -⟩ | ⟨-, q, hq, he⟩ := h.linked p _ hp
      · omega
      · rw [← number_succ] at hq he
        obtain rfl := h.table_unique hq hp'
        rw [entrySlot, he]
        exact Nat.succ_ne_zero _
  | succ k ih =>
      have hlevel := h.level_le hp'
      obtain ⟨rfl, -⟩ | ⟨-, q, hq, -⟩ := h.linked p _ hp
      · omega
      · rw [← number_succ] at hq
        have hnext : level + 1 + k + 1 = level + (k + 1) + 1 := by omega
        rw [← hnext] at hp' ⊢
        exact ih hq hp' (by omega)

/-- The walks for an address of a process end in one place. -/
theorem arrives_unique (h : Owned b s use) {p' level' : Nat} {it it' : Vmiter}
    (hit : Arrives s use pid va level p it) (hit' : Arrives s use pid va level' p' it') :
    level = level' ∧ p = p' := by
  have hle : ∀ {l l' q q' : Nat} {i i' : Vmiter}, Arrives s use pid va l q i →
      Arrives s use pid va l' q' i' → l' ≤ l := by
    intro l l' q q' i i' ha ha'
    by_contra hlt
    have hlt : l < l' := Nat.lt_of_not_le hlt
    rcases ha'.ends with hzero | hzero
    · omega
    · exact h.entry_ne_zero ha.table ha'.table hlt hzero
  obtain rfl := le_antisymm (hle hit' hit) (hle hit hit')
  exact ⟨rfl, h.table_unique hit.table hit'.table⟩

end Owned

end Kernel
