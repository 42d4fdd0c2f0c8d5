import CS24.Kernel.Allocation

/-!
# A page for a process

`process_setup` and `syscall_page_alloc` take a page and map it.  The page is the next free
one, the tables that the mapping needs are in the pages behind it, and a page that was mapped
at the same address before is lost.
-/

namespace Kernel

open Bytes

section Arrives

variable {b : Build} {s s' : State} {use use' : Uses} {pid va level p q : Nat} {it : Vmiter}

/-- A walk stays where it was if its table does. -/
theorem Arrives.keep (hit : Arrives s use pid va level p it)
    (htable : use' p = some (.table pid level (number va level / 512)))
    (hpagetable : s'.pagetable pid = s.pagetable pid)
    (hentry : load64 s'.mem (entrySlot va level p) = load64 s.mem (entrySlot va level p)) :
    Arrives s' use' pid va level p it := by
  refine ⟨?_, htable, ?_⟩
  · rw [hit.eq, hpagetable]
  · rw [hentry]
    exact hit.ends

/-- Allocating a page has no effect on a walk. -/
theorem Arrives.allocated (hit : Arrives s use pid va level p it) (hq : use q = none) :
    Arrives (s.allocated q) (relabel use q .lost) pid va level p it := by
  have hne : p ≠ q := by
    rintro rfl
    cases hq.symm.trans hit.table
  refine hit.keep ?_ rfl (load_slot_fill (Nat.mod_lt _ (by decide)) hne)
  rw [relabel_other hne, hit.table]

/-- With a table at level 0 the walk gets there. -/
theorem arrives_table (hp : use p = some (.table pid 0 (virtualPage va / 512))) :
    Arrives s use pid va 0 p ⟨s.pagetable pid, some (entrySlot va 0 p), 0, 0xFFF, va⟩ :=
  ⟨rfl, by rwa [number_zero], .inl rfl⟩

end Arrives

/-- Page `f` was taken and mapped for `page`, with `level` new tables in the pages that were free
behind it. -/
structure Mapped (b : Build) (pid page level f : Nat) (rest : List Nat) (s : State) (use : Uses)
    (s' : State) (use' : Uses) : Prop where
  owned : Owned b s' use'
  frees_eq : frees b s' = rest.drop level
  leaf : use' f = some (.leaf pid page)
  table : ∃ p, use' p = some (.table pid 0 (page / 512))
  keeps : ∀ q u, use q = some u → u ≠ .leaf pid page → use' q = some u
  retires : ∀ q, use q = some (.leaf pid page) → use' q = some .lost
  fresh : ∀ q u, use' q = some u → use q = some u ∨ q = f ∨
    use q = some (.leaf pid page) ∧ u = .lost ∨
    q ∈ rest.take level ∧ ∃ l, u = .table pid l (page / 512 ^ l / 512)
  refcount : ∀ q, use' q = none → s'.refcount q = s.refcount q
  filled : ∀ a, a / PAGESIZE = f → s'.mem a = 0xCC
  mem : ∀ a, a / PAGESIZE ≠ f → (∀ l region, use' (a / PAGESIZE) ≠ some (.table pid l region)) →
    s'.mem a = s.mem a
  entries : ∀ pid' page' e, pid' ≠ pid ∨ page' ≠ page → HasEntry s use pid' 0 page' e →
    HasEntry s' use' pid' 0 page' e
  same : s' = { s with mem := s'.mem, refcount := s'.refcount }

namespace Owned

variable {b : Build} {s : State} {use : Uses} {pid va level p f : Nat} {rest : List Nat} {it : Vmiter}

/-- A free page has no use. -/
theorem unused (h : Owned b s use) (hf : frees b s = f :: rest) : use f = none := by
  by_contra hsome
  exact h.used f hsome (mem_frees.mp (hf ▸ List.mem_cons_self)).2

/-- **A page is mapped.** -/
theorem mapped (h : Owned b s use) (hit : Arrives s use pid va level p it)
    (hva : vaIsCanonical va) (halign : va % PAGESIZE = 0) (hf : frees b s = f :: rest)
    (hfrees : level ≤ rest.length) :
    ∃ s' use', memoryMap b (s.pagetable pid) va (f * PAGESIZE) PTE_PWU (s.allocated f) = .ok (0, s') ∧
      Mapped b pid (virtualPage va) level f rest s use s' use' := by
  have hfree : Free b s f := mem_frees.mp (hf ▸ List.mem_cons_self)
  have hunused := h.unused hf
  have hrest : frees b (s.allocated f) = rest := frees_allocated hf
  obtain ⟨s', use', p', hgrows, hkeeps, htable, hrun⟩ := memoryMap_enough (h.allocates hfree)
    (hit.allocated hunused) hva halign (free_bounds hfree).2 (.inr rfl) (hrest ▸ hfrees)
  have hlost : use' f = some .lost := hgrows.keeps _ _ relabel_self
  have hpf : p' ≠ f := by
    rintro rfl
    cases hlost.symm.trans htable
  have hbefore : ∀ {q u}, use q = some u → use' q = some u := fun hq =>
    hgrows.keeps _ _ (relabel_keeps_none hunused hq)
  have hindex : virtualPage va % 512 < 512 := Nat.mod_lt _ (by decide)
  have hused : ∀ {q u}, use q = some u → q ≠ f := by
    rintro q u hq rfl
    cases hunused.symm.trans hq
  refine ⟨_, _, hrun, hgrows.owned.mapsPage htable hlost, ?_, relabel_self, ⟨p', ?_⟩, ?_, ?_, ?_, ?_, ?_,
    ?_, ?_, ?_⟩
  · exact hgrows.frees_eq.trans (congrArg _ hrest)
  · rw [relabel_other hpf, retire_keeps htable (by rintro ⟨⟩)]
  · intro q u hq hu
    rw [relabel_other (hused hq), retire_keeps (hbefore hq) hu]
  · intro q hq
    rw [relabel_other (hused hq), retire, if_pos (hbefore hq)]
  · intro q u hq
    rcases relabel_cases hq with ⟨hqf, -⟩ | ⟨hqf, hq⟩
    · exact .inr (.inl hqf)
    rcases retire_cases hq with ⟨hleaf, rfl⟩ | hq
    · rcases hgrows.fresh q _ hleaf with hold | ⟨-, l, hnew⟩
      · exact .inr (.inr (.inl ⟨(relabel_other hqf).symm.trans hold, rfl⟩))
      · cases hnew
    · rcases hgrows.fresh q u hq with hold | hnew
      · exact .inl ((relabel_other hqf).symm.trans hold)
      · exact .inr (.inr (.inr (hrest ▸ hnew)))
  · intro q hq
    obtain ⟨hqf, hretired⟩ := relabel_eq_none hq
    have hnone : use' q = none := retire_none.mp hretired
    have hnone' : relabel use f .lost q = none := by
      by_contra hsome
      obtain ⟨u, hu⟩ := Option.ne_none_iff_exists'.mp hsome
      cases hnone.symm.trans (hgrows.keeps q u hu)
    exact (hgrows.refcount q (hnone.trans hnone'.symm)).trans (Function.update_of_ne hqf ..)
  · intro a ha
    have hstays := hgrows.mem a (by rw [ha, hlost]; rintro _ _ ⟨⟩)
    exact (store_slot_other hindex (by rwa [ha, ne_comm])).trans (hstays.trans (fill_page_inside ha))
  · intro a ha hno
    have hp' : a / PAGESIZE ≠ p' := by
      intro heq
      rw [heq] at hno
      exact hno 0 _ ((relabel_other hpf).trans (retire_keeps htable (by rintro ⟨⟩)))
    have hstays := hgrows.mem a fun l region htable' =>
      hno l region ((relabel_other ha).trans (retire_keeps htable' (by rintro ⟨⟩)))
    exact (store_slot_other hindex hp').trans (hstays.trans (fill_page_other ha))
  · rintro pid' page' e hne ⟨r, hr, he⟩
    have hrf : r ≠ f := hused hr
    have hindex' : page' % 512 < 512 := Nat.mod_lt _ (by decide)
    obtain ⟨r', hr', he'⟩ := hkeeps pid' page' e ⟨r, (relabel_other hrf).trans hr,
      (load_slot_fill hindex' hrf).trans he⟩
    have hrf' : r' ≠ f := by
      rintro rfl
      cases hlost.symm.trans hr'
    refine ⟨r', (relabel_other hrf').trans (retire_keeps hr' (by rintro ⟨⟩)), Eq.trans ?_ he'⟩
    refine load64_store64_apart (slot_apart hindex hindex' ?_)
    -- an entry of the same table is another one
    by_contra hsame
    rw [not_or, not_not, not_not] at hsame
    obtain ⟨rfl, hmod⟩ := hsame
    obtain ⟨rfl, -, hdiv⟩ := Use.table.inj (Option.some.inj (htable.symm.trans hr'))
    rcases hne with hne | hne
    · exact hne rfl
    · omega
  · have hsame := hgrows.same
    rw [hsame]
    rfl

/-- Without enough pages for the tables the page is not mapped. -/
theorem not_mapped (h : Owned b s use) (hit : Arrives s use pid va level p it)
    (hva : vaIsCanonical va) (halign : va % PAGESIZE = 0) (hf : frees b s = f :: rest)
    (hfrees : rest.length < level) :
    ∃ s' use' p' it', memoryMap b (s.pagetable pid) va (f * PAGESIZE) PTE_PWU (s.allocated f) =
        .ok (-1, s') ∧ Owned b s' use' ∧ s'.pagetable = s.pagetable ∧ s'.current = s.current ∧
      Arrives s' use' pid va (level - rest.length) p' it' := by
  have hfree : Free b s f := mem_frees.mp (hf ▸ List.mem_cons_self)
  have hrest : frees b (s.allocated f) = rest := frees_allocated hf
  obtain ⟨s', use', p', it', hgrows, hit', hrun⟩ := memoryMap_short (h.allocates hfree)
    (hit.allocated (h.unused hf)) hva halign (free_bounds hfree).2 (.inr rfl) (hrest ▸ hfrees)
  rw [hrest] at hit'
  have hsame := hgrows.same
  exact ⟨s', use', p', it', hrun, hgrows.owned, by rw [hsame]; rfl, by rw [hsame]; rfl, hit'⟩

end Owned

/-! ## Translations -/

section Translations

variable {b : Build} {s : State} {use : Uses} {pid va level p q perm : Nat} {it : Vmiter}

/-- Where an entry at level 0 leads. -/
theorem Arrives.pa_eq (hit : Arrives s use pid va 0 p it)
    (hentry : load64 s.mem (entrySlot va 0 p) = q * PAGESIZE + perm) (hq : q < 512)
    (hperm : perm = 3 ∨ perm = 7) : it.pa s.mem = q * PAGESIZE + va % PAGESIZE := by
  obtain ⟨rfl, -, -⟩ := hit
  have hlt : perm < 4096 := by omega
  have hpresent : (q * PAGESIZE + perm) &&& PTE_P ≠ 0 := by
    rw [flags_eq hlt (by decide)]
    rcases hperm with rfl | rfl <;> decide
  have haddress := address_eq hlt (show q < 2 ^ 40 by omega)
  simp only [Vmiter.pa, Vmiter.entry, hentry, hpresent, if_false, haddress, lt_irrefl]
  rfl

/-- **Mapped pages.** The address of a page that is the target of a virtual page. -/
theorem Owned.translate (h : Owned b s use) (hva : vaIsCanonical va)
    (hq : use q = some (.leaf pid (virtualPage va))) :
    memoryVirtualToPhysical (s.pagetable pid) va s = .ok (q * PAGESIZE + va % PAGESIZE) := by
  obtain ⟨p, hp, hentry⟩ := h.linked q _ hq
  have hit := arrives_table (s := s) hp
  rw [memoryVirtualToPhysical, hit.vmiter_eq h hva]
  refine congrArg Except.ok (hit.pa_eq ?_ (h.bounds (Owned.use_ne_none hq)).2 (.inr rfl))
  rw [entrySlot, number_zero, hentry]

/-- Where tables are missing there is no address. -/
theorem Owned.translate_absent (h : Owned b s use) (hva : vaIsCanonical va)
    (hit : Arrives s use pid va (level + 1) p it) :
    memoryVirtualToPhysical (s.pagetable pid) va s = .ok (2 ^ 64 - 1) := by
  rw [memoryVirtualToPhysical, hit.vmiter_eq h hva]
  have hzero := hit.entry_zero
  obtain ⟨rfl, -, -⟩ := hit
  refine congrArg Except.ok ?_
  simp only [Vmiter.pa, Vmiter.entry, hzero, Nat.zero_and, if_true]

end Translations

end Kernel
