import CS24.Kernel.Mapping

/-!
# The kernel's part of an address space

`process_setup` begins with an empty table and maps the pages below `PROC_START_ADDR` for the
kernel.  This takes four pages: the table itself and one table for each level below.
-/

namespace Kernel

open Bytes

/-- A page is used for process `pid`. -/
def OfProcess (pid : Nat) : Use → Prop
  | .table pid' _ _ => pid' = pid
  | .leaf pid' _ => pid' = pid
  | .viewer => False
  | .lost => False

/-- From `s` to `s'` only the address space of process `pid` changes, and only by pages that
are taken into use. -/
structure Extends (b : Build) (pid : Nat) (s : State) (use : Uses) (s' : State) (use' : Uses) :
    Prop where
  owned : Owned b s' use'
  keeps : ∀ q u, use q = some u → (∀ page, u ≠ .leaf pid page) → use' q = some u
  leaves : ∀ q page, use q = some (.leaf pid page) →
    use' q = some (.leaf pid page) ∨ use' q = some .lost
  fresh : ∀ q u, use' q = some u → use q = some u ∨ OfProcess pid u ∨ u = .lost
  refcount : ∀ q, use' q = none → s'.refcount q = s.refcount q
  mem : ∀ a, (∀ u, use' (a / PAGESIZE) = some u → use (a / PAGESIZE) = some u ∧ ¬ OfProcess pid u) →
    s'.mem a = s.mem a
  same : s' = { s with mem := s'.mem, refcount := s'.refcount }

namespace Extends

variable {b : Build} {pid : Nat} {s s' s'' : State} {use use' use'' : Uses}

/-- Nothing is added, -/
theorem refl (h : Owned b s use) : Extends b pid s use s use where
  owned := h
  keeps := fun _ _ h _ => h
  leaves := fun _ _ h => .inl h
  fresh := fun _ _ h => .inl h
  refcount := fun _ _ => rfl
  mem := fun _ _ => rfl
  same := rfl

/-- A page that was in use before is still. -/
theorem none_of_none (h : Extends b pid s use s' use') {q : Nat} (hq : use' q = none) :
    use q = none := by
  by_contra hsome
  obtain ⟨u, hu⟩ := Option.ne_none_iff_exists'.mp hsome
  by_cases hleaf : ∃ page, u = .leaf pid page
  · obtain ⟨page, rfl⟩ := hleaf
    rcases h.leaves q page hu with h' | h' <;> cases hq.symm.trans h'
  · cases hq.symm.trans (h.keeps q u hu fun page heq => hleaf ⟨page, heq⟩)

/-- and what two steps add is added. -/
theorem trans (h : Extends b pid s use s' use') (h' : Extends b pid s' use' s'' use'') :
    Extends b pid s use s'' use'' where
  owned := h'.owned
  keeps := fun q u hq hu => h'.keeps q u (h.keeps q u hq hu) hu
  leaves := by
    intro q page hq
    rcases h.leaves q page hq with hq' | hq'
    · exact h'.leaves q page hq'
    · exact .inr (h'.keeps q _ hq' (by rintro _ ⟨⟩))
  fresh := by
    intro q u hq
    rcases h'.fresh q u hq with hq' | hu
    · exact h.fresh q u hq'
    · exact .inr hu
  refcount := fun q hq => (h'.refcount q hq).trans (h.refcount q (h'.none_of_none hq))
  mem := by
    intro a ha
    have hlast : ∀ u, use'' (a / PAGESIZE) = some u →
        use' (a / PAGESIZE) = some u ∧ ¬ OfProcess pid u := by
      intro u hu
      obtain ⟨hold, hof⟩ := ha u hu
      refine ⟨h.keeps _ u hold ?_, hof⟩
      rintro page rfl
      exact hof rfl
    have hfirst : ∀ u, use' (a / PAGESIZE) = some u →
        use (a / PAGESIZE) = some u ∧ ¬ OfProcess pid u := by
      intro u hu
      by_cases hleaf : ∃ page, u = .leaf pid page
      · -- a leaf of the process would still be one, or be lost
        obtain ⟨page, rfl⟩ := hleaf
        rcases h'.leaves _ page hu with hnow | hnow
        · exact absurd rfl (ha _ hnow).2
        · cases hu.symm.trans (hlast _ hnow).1
      · exact ha u (h'.keeps _ u hu fun page heq => hleaf ⟨page, heq⟩)
    rw [h'.mem a hlast, h.mem a hfirst]
  same := by
    have h₁ := h.same
    have h₂ := h'.same
    rw [h₁] at h₂
    exact h₂

end Extends

/-- New tables extend what is there, -/
theorem Grows.extends {b : Build} {pid va n : Nat} {s s' : State} {use use' : Uses}
    (h : Grows b pid va s use s' use' n) : Extends b pid s use s' use' where
  owned := h.owned
  keeps := fun q u hq _ => h.keeps q u hq
  leaves := fun q page hq => .inl (h.keeps q _ hq)
  fresh := by
    intro q u hq
    rcases h.fresh q u hq with hold | ⟨-, l, rfl⟩
    · exact .inl hold
    · exact .inr (.inl rfl)
  refcount := by
    intro q hq
    refine h.refcount q (hq.trans ?_)
    by_contra hsome
    obtain ⟨u, hu⟩ := Option.ne_none_iff_exists'.mp (Ne.symm hsome)
    cases hq.symm.trans (h.keeps q u hu)
  mem := fun a ha => h.mem a fun l region htable => (ha _ htable).2 rfl
  same := h.same

/-- and so does a page that is mapped. -/
theorem Mapped.extends {b : Build} {pid page level f : Nat} {rest : List Nat} {s s' : State}
    {use use' : Uses} (h : Mapped b pid page level f rest s use s' use') :
    Extends b pid s use s' use' where
  owned := h.owned
  keeps := fun q u hq hu => h.keeps q u hq (hu page)
  leaves := by
    intro q page' hq
    by_cases heq : page' = page
    · exact .inr (h.retires q (heq ▸ hq))
    · exact .inl (h.keeps q _ hq (by rintro ⟨⟩; exact heq rfl))
  fresh := by
    intro q u hq
    rcases h.fresh q u hq with hold | rfl | ⟨-, rfl⟩ | ⟨-, l, rfl⟩
    · exact .inl hold
    · obtain rfl := Option.some.inj (hq.symm.trans h.leaf)
      exact .inr (.inl rfl)
    · exact .inr (.inr rfl)
    · exact .inr (.inl rfl)
  refcount := h.refcount
  mem := by
    intro a ha
    refine h.mem a ?_ fun l region htable => (ha _ htable).2 rfl
    rintro rfl
    exact (ha _ h.leaf).2 rfl
  same := h.same

/-! ## Entries of the kernel -/

section KernelEntries

variable {b : Build} {s : State} {use : Uses} {pid va p q page e perm : Nat}

/-- With a table at level 0 only the entry is written. -/
theorem memoryMap_of_vmiter (va q perm : Nat) (hp : use p = some (.table pid 0 (virtualPage va / 512)))
    (hit : vmiter s.mem (s.pagetable pid) va =
      .ok ⟨s.pagetable pid, some (entrySlot va 0 p), 0, 0xFFF, va⟩)
    (halign : va % PAGESIZE = 0) (hq : q < 512) (hperm : perm = 3 ∨ perm = 7) :
    memoryMap b (s.pagetable pid) va (q * PAGESIZE) perm s = .ok (0,
      { s with mem := store64 s.mem (slot p (virtualPage va % 512)) (q * PAGESIZE + perm) }) := by
  have hdone : addTables b perm 3 ⟨s.pagetable pid, some (entrySlot va 0 p), 0, 0xFFF, va⟩ s =
      .ok (some ⟨s.pagetable pid, some (entrySlot va 0 p), 0, 0xFFF, va⟩, s) := by
    rw [addTables, if_neg (by simp)]
  rw [memoryMap, hit]
  change Vmiter.tryMap b _ _ _ s = _
  rw [tryMap_eq (arrives_table hp) halign hq hperm, hdone, ← number_zero]
  rfl

/-- In a table that is there a page can be mapped. -/
theorem memoryMap_table (h : Owned b s use) (va q perm : Nat)
    (hp : use p = some (.table pid 0 (virtualPage va / 512))) (hva : vaIsCanonical va)
    (halign : va % PAGESIZE = 0) (hq : q < 512) (hperm : perm = 3 ∨ perm = 7) :
    memoryMap b (s.pagetable pid) va (q * PAGESIZE) perm s = .ok (0,
      { s with mem := store64 s.mem (slot p (virtualPage va % 512)) (q * PAGESIZE + perm) }) :=
  memoryMap_of_vmiter va q perm hp ((arrives_table hp).vmiter_eq h hva) halign hq hperm

/-- The page at address 0 is mapped to nobody. -/
theorem mapToNobody_zero (h : Owned b s use) (hp : use p = some (.table pid 0 0)) :
    mapToNobody b (s.pagetable pid) 0 s = .ok { s with mem := store64 s.mem (slot p 0) 0 } := by
  have hit : Arrives s use pid 0 0 p _ := arrives_table hp
  have hslot : entrySlot 0 0 p = slot p 0 := rfl
  have hmap : Vmiter.tryMap b ⟨s.pagetable pid, some (slot p 0), 0, 0xFFF, 0⟩ 0 0 s =
      .ok (0, { s with mem := store64 s.mem (slot p 0) 0 }) := by
    simp [Vmiter.tryMap, addTables, bind, Except.bind]
  rw [mapToNobody, memoryMap, hit.vmiter_eq h (.inl (by decide)), hslot]
  exact congrArg (· >>= _) hmap

/-- Where no page was mapped none is retired. -/
theorem retire_eq (hno : ∀ q, use q ≠ some (.leaf pid page)) : retire use pid page = use :=
  funext fun q => if_neg (hno q)

/-- The kernel's entries are written in the tables that are there. -/
theorem Owned.storesKernel (h : Owned b s use) (va page e : Nat)
    (hno : ∀ q, use q ≠ some (.leaf pid page))
    (hp : use p = some (.table pid 0 (page / 512))) (he : e = 0 ∨ KernelLeaf page e) :
    Grows b pid va s use { s with mem := store64 s.mem (slot p (page % 512)) e } use 0 where
  owned := by
    have howned := h.mapsKernel hp he
    rwa [retire_eq hno] at howned
  frees_eq := rfl
  keeps := fun _ _ h => h
  fresh := fun _ _ h => .inl h
  refcount := fun _ _ => rfl
  mem := by
    intro a ha
    have hne : a / PAGESIZE ≠ p := by
      intro heq
      rw [heq] at ha
      exact ha _ _ hp
    exact store_slot_other (Nat.mod_lt _ (by decide)) hne
  same := rfl

end KernelEntries

/-! ## The mappings of the kernel -/

/-- The entry for a page of the kernel: only the console is for processes, too. -/
def kernelEntry (page : Nat) : Nat :=
  if page = CONSOLE_ADDR / PAGESIZE then page * PAGESIZE + 7 else page * PAGESIZE + 3

/-- No page is mapped for the process. -/
def NoLeaf (use : Uses) (pid : Nat) : Prop := ∀ q page, use q ≠ some (.leaf pid page)

section MapKernel

variable {b : Build} {s s' : State} {use use' : Uses} {pid va p r n : Nat}

/-- New tables map no page, -/
theorem Grows.noLeaf (h : Grows b pid va s use s' use' n) (hno : NoLeaf use pid) : NoLeaf use' pid := by
  intro q page hq
  rcases h.fresh q _ hq with hold | ⟨-, l, hnew⟩
  · exact hno q page hold
  · cases hnew

/-- and leave the top tables. -/
theorem Grows.pagetable_eq (h : Grows b pid va s use s' use' n) : s'.pagetable = s.pagetable := by
  rw [h.same]

/-- Addresses below 2 MiB are in the first table. -/
theorem virtualPage_mul {page : Nat} (hpage : page < 512) : virtualPage (page * PAGESIZE) = page := by
  simp only [virtualPage, PAGESIZE]
  omega

/-- Addresses in the lower half are canonical. -/
theorem canonical_of_lt {va : Nat} (hva : va < 2 ^ 47) : vaIsCanonical va :=
  .inl (by simp only [VA_LOWMAX]; omega)

/-- A step that does not fail is followed by the next one. -/
theorem ok_bind {α β : Type} (a : α) (f : α → Except Panic β) : (Except.ok a >>= f) = f a := rfl

/-- The callers of `memory_map` do not look at what it returns. -/
theorem discard_ok {x : Except Panic (Int × State)} {result : Int} (h : x = .ok (result, s)) :
    (do let (_, s) ← x; .ok s) = (.ok s : Except Panic State) := by
  rw [h]
  rfl

/-- The pages behind the first one.  By induction on how many. -/
theorem mapKernelPages (h : Owned b s use) (hp : use p = some (.table pid 0 0)) (hno : NoLeaf use pid)
    (hn : n ≤ 255) :
    ∃ t, ((List.range n).map fun k => (k + 1) * PAGESIZE).foldlM
        (fun t va => mapToKernelSpace b (s.pagetable pid) va t) s = .ok t ∧
      Grows b pid 0 s use t use 0 ∧
      ∀ k < n, load64 t.mem (slot p (k + 1)) = (k + 1) * PAGESIZE + 3 := by
  induction n with
  | zero => exact ⟨s, rfl, .refl h, fun k hk => absurd hk (Nat.not_lt_zero k)⟩
  | succ n ih =>
      obtain ⟨t, hrun, hgrows, hentries⟩ := ih (by omega)
      have hpage : virtualPage ((n + 1) * PAGESIZE) = n + 1 := virtualPage_mul (by omega)
      have hdiv : (n + 1) / 512 = 0 := by omega
      have hmod : (n + 1) % 512 = n + 1 := by omega
      have hmap := memoryMap_table hgrows.owned ((n + 1) * PAGESIZE) (n + 1) 3
        (by rw [hpage, hdiv, hp]) (canonical_of_lt (by simp only [PAGESIZE]; omega))
        (Nat.mul_mod_left ..) (by omega) (.inl rfl)
      have hstore := hgrows.owned.storesKernel 0 (n + 1) ((n + 1) * PAGESIZE + 3)
        (fun q => hno q _) (by rw [hdiv, hp])
        (.inr ⟨by simp only [PROC_START_ADDR, PAGESIZE]; omega, .inl rfl⟩)
      rw [hpage, hmod] at hmap
      rw [hmod] at hstore
      refine ⟨_, ?_, hgrows.trans hstore, ?_⟩
      · rw [List.range_succ, List.map_append, List.foldlM_append, hrun]
        rw [congrFun hgrows.pagetable_eq pid] at hmap
        exact congrArg (· >>= pure) (discard_ok hmap)
      · intro k hk
        by_cases hlast : k = n
        · subst hlast
          exact load64_store64_same (by simp only [PAGESIZE]; omega)
        · rw [← hentries k (by omega)]
          exact load64_store64_apart (slot_apart (by omega) (by omega) (.inr (by omega)))

/-- The addresses below `PROC_START_ADDR`. -/
theorem pagesBetween_kernel : pagesBetween 0 PROC_START_ADDR =
    0 :: (List.range 255).map fun k => (k + 1) * PAGESIZE := by
  have hcount : (PROC_START_ADDR - 0 + PAGESIZE - 1) / PAGESIZE = 255 + 1 := by decide
  rw [pagesBetween, hcount, List.range_succ_eq_map, List.map_cons, List.map_map]
  refine congrArg₂ List.cons (by rw [Nat.zero_mul]) (List.map_congr_left fun k _ => ?_)
  rw [Function.comp_apply, Nat.zero_add]

/-- **The kernel's mappings.** In an empty table they take three pages. -/
theorem mapKernel_spec (h : Owned b s use) (hr : use r = some (.table pid 3 0))
    (hempty : load64 s.mem (slot r 0) = 0) (hno : NoLeaf use pid) (hfrees : 3 ≤ (frees b s).length) :
    ∃ s' use' p, mapKernel b (s.pagetable pid) s = .ok s' ∧ Grows b pid 0 s use s' use' 3 ∧
      use' p = some (.table pid 0 0) ∧
      ∀ page, 1 ≤ page → page < 256 → load64 s'.mem (slot p page) = kernelEntry page := by
  have hit : Arrives s use pid 0 3 r ⟨s.pagetable pid, some (entrySlot 0 3 r), 3, 0xFFF, 0⟩ :=
    ⟨rfl, hr, .inr hempty⟩
  -- page 0 is mapped first, which adds the tables
  obtain ⟨s₁, use₁, p, hgrows₁, -, hp, hmap⟩ := memoryMap_enough h hit
    (canonical_of_lt (by decide)) rfl (show 0 < 512 by decide) (show 3 = 3 ∨ 3 = 7 from .inl rfl) hfrees
  have hno₁ := hgrows₁.noLeaf hno
  have hzero := hgrows₁.owned.storesKernel 0 0 (0 * PAGESIZE + 3) (fun q => hno₁ q _) hp
    (.inr ⟨by decide, .inl rfl⟩)
  obtain ⟨s₂, hrun₂, hgrows₂, hentries⟩ := mapKernelPages hzero.owned hp hno₁ (le_refl 255)
  have hnobody := mapToNobody_zero hgrows₂.owned hp
  have hzero' := hgrows₂.owned.storesKernel 0 0 0 (fun q => hno₁ q _) hp (.inl rfl)
  have hconsole := memoryMap_table hzero'.owned CONSOLE_ADDR (CONSOLE_ADDR / PAGESIZE) 7
    hp (canonical_of_lt (by decide)) (by decide) (by decide) (.inr rfl)
  have hstore := hzero'.owned.storesKernel 0 (CONSOLE_ADDR / PAGESIZE)
    (CONSOLE_ADDR / PAGESIZE * PAGESIZE + 7) (fun q => hno₁ q _) hp
    (.inr ⟨by decide, .inr ⟨rfl, rfl⟩⟩)
  refine ⟨_, use₁, p, ?_, ((hgrows₁.trans hzero).trans hgrows₂).trans (hzero'.trans hstore), hp, ?_⟩
  · have hpt₁ : s₁.pagetable pid = s.pagetable pid := congrFun hgrows₁.pagetable_eq pid
    have hpt₂ : s₂.pagetable pid = s.pagetable pid := (congrFun hgrows₂.pagetable_eq pid).trans hpt₁
    have hfirst : mapToKernelSpace b (s.pagetable pid) 0 s =
        .ok { s₁ with mem := store64 s₁.mem (slot p 0) (0 * PAGESIZE + 3) } :=
      discard_ok hmap
    have hforeach : memoryForeach PROC_START_ADDR (mapToKernelSpace b (s.pagetable pid)) s = .ok s₂ := by
      rw [memoryForeach, pagesBetween_kernel, List.foldlM_cons, hfirst, ← hpt₁]
      exact hrun₂
    rw [hpt₂] at hnobody
    rw [show s₂.pagetable pid = s.pagetable pid from hpt₂] at hconsole
    rw [mapKernel, hforeach]
    change (mapToNobody b (s.pagetable pid) 0 s₂ >>= _) = _
    rw [hnobody]
    exact discard_ok hconsole
  · intro page hpage hlt
    by_cases heq : page = CONSOLE_ADDR / PAGESIZE
    · subst heq
      exact load64_store64_same (by decide)
    · obtain ⟨k, rfl⟩ := Nat.exists_eq_add_of_le' hpage
      rw [kernelEntry, if_neg heq, ← hentries k (by omega)]
      exact (load64_store64_apart (slot_apart (by decide) (by omega) (.inr (Ne.symm heq)))).trans
        (load64_store64_apart (slot_apart (by decide) (by omega) (.inr (by omega))))

end MapKernel

end Kernel
