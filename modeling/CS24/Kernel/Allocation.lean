import CS24.Kernel.Updates
import CS24.Kernel.Walk

/-!
# Tables on demand

`kalloc` takes the free pages in ascending order.  A mapping first adds the tables that are
missing on the way to the entry at level 0: as many as the level at which the walk ends, each
in the next free page.
-/

namespace Kernel

open Bytes

/-- The free pages, in the order in which `kalloc` takes them. -/
def frees (b : Build) (s : State) : List Nat :=
  (List.range NPAGES).filter fun page => Free b s page

section Kalloc

variable {b : Build} {s s' : State} {p : Nat} {rest : List Nat}

/-- The list has the free pages, -/
theorem mem_frees : p ∈ frees b s ↔ Free b s p := by
  rw [frees, List.mem_filter, List.mem_range, decide_eq_true_iff, and_iff_right_iff_imp]
  rintro ⟨⟨-, -, -, hlt⟩, -⟩
  simp only [PAGESIZE, MEMSIZE_PHYSICAL, NPAGES] at hlt ⊢
  omega

/-- in ascending order, -/
theorem frees_sorted : (frees b s).Pairwise (· < ·) :=
  List.pairwise_lt_range.filter _

/-- as the counts say. -/
theorem frees_congr (h : s'.refcount = s.refcount) : frees b s' = frees b s := by
  simp only [frees, Free, h]

/-- Without the first one it is the rest. -/
theorem frees_allocated (h : frees b s = p :: rest) : frees b (s.allocated p) = rest := by
  have hsorted : (p :: rest).Pairwise (· < ·) := h ▸ frees_sorted
  have hfree : ∀ q, Free b (s.allocated p) q ↔ Free b s q ∧ q ≠ p := by
    intro q
    by_cases hq : q = p
    · subst hq
      have hp : Free b s q := mem_frees.mp (h ▸ List.mem_cons_self)
      simp [Free, State.allocated, hp.2]
    · simp [Free, State.allocated, hq]
  have hfilter : frees b (s.allocated p) = (frees b s).filter (· ≠ p) := by
    rw [frees, frees, List.filter_filter]
    refine List.filter_congr fun q _ => ?_
    simp [hfree, and_comm]
  rw [hfilter, h, List.filter_cons_of_neg (by simp), List.filter_eq_self.mpr]
  intro q hq
  have := (List.pairwise_cons.mp hsorted).1 q hq
  simp only [ne_eq, decide_not, Bool.not_eq_true', decide_eq_false_iff_not]
  omega

/-- `kalloc` returns the first free page and counts it, or 0. -/
theorem kalloc_eq : kalloc b PAGESIZE s =
    match frees b s with
    | [] => (0, s)
    | p :: _ => (p * PAGESIZE, s.allocated p) := by
  have hfind : (List.range NPAGES).find? (fun page => Free b s page) = (frees b s).head? := by
    rw [frees, List.head?_filter]
  rw [kalloc, if_neg (lt_irrefl _), hfind]
  cases frees b s <;> rfl

/-- Nothing is free. -/
theorem kalloc_nil (h : frees b s = []) : kalloc b PAGESIZE s = (0, s) := by
  rw [kalloc_eq, h]

/-- The first free page is taken. -/
theorem kalloc_cons (h : frees b s = p :: rest) :
    kalloc b PAGESIZE s = (p * PAGESIZE, s.allocated p) := by
  rw [kalloc_eq, h]

/-- A free page is neither the first one nor behind the memory. -/
theorem free_bounds (h : Free b s p) : 0 < p ∧ p < 512 := by
  obtain ⟨⟨hreserved, -, -, hlt⟩, -⟩ := h
  simp only [reservedPhysicalAddress, PAGESIZE, MEMSIZE_PHYSICAL] at hreserved hlt
  omega

end Kalloc

/-- A page of memory can be set. -/
theorem memset_page {s : State} {p : Nat} {c : UInt8} (hp : 0 < p ∧ p < 512) :
    memset (p * PAGESIZE) c PAGESIZE s = .ok { s with mem := fill s.mem (p * PAGESIZE) c PAGESIZE } := by
  rw [memset, if_neg (by decide), if_pos]
  simp only [PAGESIZE, MEMSIZE_PHYSICAL]
  omega

/-! ## Adding tables -/

/-- From `s` to `s'` the process gets `n` more tables for an address, and nothing else happens. -/
structure Grows (b : Build) (pid va : Nat) (s : State) (use : Uses) (s' : State) (use' : Uses)
    (n : Nat) : Prop where
  owned : Owned b s' use'
  frees_eq : frees b s' = (frees b s).drop n
  keeps : ∀ q u, use q = some u → use' q = some u
  fresh : ∀ q u, use' q = some u → use q = some u ∨
    q ∈ (frees b s).take n ∧ ∃ level, u = .table pid level (number va level / 512)
  refcount : ∀ q, use' q = use q → s'.refcount q = s.refcount q
  mem : ∀ a, (∀ level region, use' (a / PAGESIZE) ≠ some (.table pid level region)) →
    s'.mem a = s.mem a
  same : s' = { s with mem := s'.mem, refcount := s'.refcount }

namespace Grows

variable {b : Build} {pid va m n : Nat} {s s' s'' : State} {use use' use'' : Uses}

/-- No tables are added, -/
theorem refl (h : Owned b s use) : Grows b pid va s use s use 0 where
  owned := h
  frees_eq := rfl
  keeps := fun _ _ h => h
  fresh := fun _ _ h => .inl h
  refcount := fun _ _ => rfl
  mem := fun _ _ => rfl
  same := rfl

/-- or those of two steps are. -/
theorem trans (h : Grows b pid va s use s' use' m) (h' : Grows b pid va s' use' s'' use'' n) :
    Grows b pid va s use s'' use'' (m + n) where
  owned := h'.owned
  frees_eq := by rw [h'.frees_eq, h.frees_eq, List.drop_drop]
  keeps := fun q u hq => h'.keeps q u (h.keeps q u hq)
  fresh := by
    intro q u hq
    have htake : (frees b s).take (m + n) = (frees b s).take m ++ (frees b s').take n := by
      rw [List.take_add, h.frees_eq]
    rw [htake, List.mem_append]
    rcases h'.fresh q u hq with hold | ⟨hmem, hu⟩
    · exact (h.fresh q u hold).imp_right fun ⟨hmem, hu⟩ => ⟨.inl hmem, hu⟩
    · exact .inr ⟨.inr hmem, hu⟩
  refcount := by
    intro q hq
    have hmid : use' q = use q := by
      cases hold : use q with
      | some u => exact h.keeps q u hold
      | none =>
          cases hnew : use' q with
          | none => rfl
          | some u => exact absurd (h'.keeps q u hnew) (by simp [hq, hold])
    rw [h'.refcount q (hq.trans hmid.symm), h.refcount q hmid]
  mem := by
    intro a ha
    rw [h'.mem a ha, h.mem a fun level region hmid => ha level region (h'.keeps _ _ hmid)]
  same := by
    have h₁ := h.same
    have h₂ := h'.same
    rw [h₁] at h₂
    exact h₂

end Grows

/-- The entries at level 0 stay as they are. -/
def KeepsEntries (s : State) (use : Uses) (s' : State) (use' : Uses) : Prop :=
  ∀ pid page e, HasEntry s use pid 0 page e → HasEntry s' use' pid 0 page e

section Tables

variable {b : Build} {s : State} {use : Uses} {pid va level p q : Nat}

/-- Above level 0 a walk ends in an empty entry. -/
theorem Arrives.entry_zero {it : Vmiter} (hit : Arrives s use pid va (level + 1) p it) :
    load64 s.mem (entrySlot va (level + 1) p) = 0 := by
  rcases hit.ends with hlevel | hzero
  · omega
  · exact hzero

/-- The entry of a table. -/
theorem table_entry : q * PAGESIZE ||| PTE_P ||| PTE_W ||| PTE_U = q * PAGESIZE + 7 := by
  rw [Nat.or_assoc, Nat.or_assoc]
  exact Packed.or_low (k := 12) (by decide)

/-- The state after the next free page became a table below the entry for an address. -/
def State.withTable (s : State) (va level p q : Nat) : State :=
  { s.allocated q with
    mem := store64 (fill (s.allocated q).mem (q * PAGESIZE) 0 PAGESIZE) (entrySlot va (level + 1) p)
      (q * PAGESIZE + 7) }

/-- One more table. -/
theorem Owned.grows (h : Owned b s use) {it : Vmiter} {rest : List Nat}
    (hit : Arrives s use pid va (level + 1) p it) (hq : frees b s = q :: rest) :
    Grows b pid va s use (s.withTable va level p q)
        (relabel use q (.table pid level (number va level / 512))) 1 ∧
      Arrives (s.withTable va level p q) (relabel use q (.table pid level (number va level / 512)))
        pid va level q { it with level := level, pep := some (entrySlot va level q) } ∧
      KeepsEntries s use (s.withTable va level p q)
        (relabel use q (.table pid level (number va level / 512))) := by
  have hfree : Free b s q := mem_frees.mp (hq ▸ List.mem_cons_self)
  have hnone : use q = none := by
    by_contra hsome
    exact h.used q hsome hfree.2
  have hp : p ≠ q := by
    rintro rfl
    cases hnone.symm.trans hit.table
  have hzero := hit.entry_zero
  have hindex : number va (level + 1) % 512 < 512 := Nat.mod_lt _ (by decide)
  have hother : ∀ {r u}, use r = some u → relabel use q (.table pid level (number va level / 512)) r =
      some u := relabel_keeps_none hnone
  refine ⟨⟨?_, ?_, fun _ _ => hother, ?_, ?_, ?_, rfl⟩, ⟨?_, relabel_self, .inr ?_⟩, ?_⟩
  · -- the page is allocated, and then put below the entry
    have hallocated := h.allocates hfree
    have htable : relabel use q .lost p =
        some (.table pid (level + 1) (number va (level + 1) / 512)) := by
      rw [relabel_other hp, hit.table]
    have hstill : load64 (s.allocated q).mem (slot p (number va (level + 1) % 512)) = 0 :=
      (load_slot_fill hindex hp).trans hzero
    have howned : Owned b (s.withTable va level p q)
        (relabel (relabel use q .lost) q (.table pid level (number va (level + 1)))) :=
      hallocated.addsTable htable hstill relabel_self
    rwa [relabel_relabel, number_succ] at howned
  · have hrefcount : (s.withTable va level p q).refcount = (s.allocated q).refcount := rfl
    rw [frees_congr hrefcount, frees_allocated hq, hq, List.drop_one, List.tail_cons]
  · intro r u hr
    rcases relabel_cases hr with ⟨rfl, rfl⟩ | ⟨-, hold⟩
    · exact .inr ⟨by simp [hq], level, rfl⟩
    · exact .inl hold
  · intro r hr
    have hrq : r ≠ q := by
      rintro rfl
      rw [relabel_self, hnone] at hr
      cases hr
    simp [State.withTable, State.allocated, Function.update_of_ne hrq]
  · intro a ha
    have hq' : a / PAGESIZE ≠ q := by
      intro heq
      rw [heq] at ha
      exact ha _ _ relabel_self
    have hp' : a / PAGESIZE ≠ p := by
      intro heq
      rw [heq] at ha
      exact ha _ _ (hother hit.table)
    exact (store_slot_other hindex hp').trans ((fill_page_other hq').trans (fill_page_other hq'))
  · rw [hit.eq]
    rfl
  · have hbounds := slot_bounds (p := q) (Nat.mod_lt (number va level) (show 0 < 512 by decide))
    exact (load64_store64_apart (slot_apart hindex (Nat.mod_lt _ (by decide)) (.inl hp))).trans
      (load64_fill_zero hbounds.1 hbounds.2)
  · rintro pid' page e ⟨r, hr, he⟩
    have hrq : r ≠ q := by
      rintro rfl
      cases hnone.symm.trans hr
    have hrp : p ≠ r := by
      rintro rfl
      cases hr.symm.trans hit.table
    refine ⟨r, hother hr, Eq.trans ?_ he⟩
    have hpage : page % 512 < 512 := Nat.mod_lt _ (by decide)
    exact (load64_store64_apart (slot_apart hindex hpage (.inl hrp))).trans
      ((load_slot_fill hpage hrq).trans (load_slot_fill hpage hrq))

/-- A turn of the loop that finds a free page. -/
theorem addTables_cons (h : Owned b s use) {it : Vmiter} {rest : List Nat} {perm turns : Nat}
    (hit : Arrives s use pid va (level + 1) p it) (hq : frees b s = q :: rest) (hperm : perm ≠ 0) :
    addTables b perm (turns + 1) it s =
      addTables b perm turns { it with level := level, pep := some (entrySlot va level q) }
        (s.withTable va level p q) := by
  have hbounds : 0 < q ∧ q < 512 := free_bounds (mem_frees.mp (hq ▸ List.mem_cons_self))
  have hzero := hit.entry_zero
  obtain ⟨hgrows, hnext, -⟩ := h.grows hit hq
  -- the walk goes on into the new table
  have htable : relabel use q (.table pid level (number va level / 512)) p =
      some (.table pid (level + 1) (number va (level + 1) / 512)) := hgrows.keeps _ _ hit.table
  have hdown : down (s.withTable va level p q).mem (s.pagetable pid) va (level + 1)
      (entrySlot va (level + 1) p) 0xFFF =
        .ok { it with level := level, pep := some (entrySlot va level q) } := by
    obtain ⟨level', -, p', it', hit', hdown⟩ :=
      hgrows.owned.down_spec htable
    obtain ⟨rfl, rfl⟩ := hgrows.owned.arrives_unique hnext hit'
    exact hdown.trans (congrArg _ (hit'.eq.trans hnext.eq.symm))
  obtain ⟨rfl, -, -⟩ := hit
  have hne : q * PAGESIZE ≠ 0 := by
    simp only [PAGESIZE]
    omega
  rw [addTables, if_pos ⟨Nat.succ_pos _, hperm⟩]
  simp only [Vmiter.entry, hzero, Nat.zero_and, ne_eq, not_true_eq_false, if_false, kalloc_cons hq, hne,
    memset_page hbounds]
  change (do
    let it ← down (store64 _ _ _) _ _ _ _ _
    addTables b perm turns it _) = _
  rw [table_entry]
  exact congrArg (· >>= _) hdown

/-- **Enough pages.** The loop adds a table for each level. -/
theorem addTables_enough (h : Owned b s use) {it : Vmiter} {perm turns : Nat}
    (hit : Arrives s use pid va level p it) (hturns : level ≤ turns) (hperm : perm ≠ 0)
    (hfrees : level ≤ (frees b s).length) :
    ∃ s' use' p' it', addTables b perm turns it s = .ok (some it', s') ∧
      Grows b pid va s use s' use' level ∧ Arrives s' use' pid va 0 p' it' ∧
      KeepsEntries s use s' use' := by
  induction level generalizing s use p it turns with
  | zero =>
      refine ⟨s, use, p, it, ?_, .refl h, hit, fun _ _ _ h => h⟩
      obtain ⟨rfl, -, -⟩ := hit
      cases turns with
      | zero => rfl
      | succ turns => rw [addTables, if_neg (by simp)]
  | succ level ih =>
      obtain ⟨turns, rfl⟩ := Nat.exists_eq_add_of_lt (Nat.lt_of_succ_le hturns)
      obtain ⟨q, rest, hq⟩ := List.exists_cons_of_length_pos (Nat.lt_of_succ_le hfrees |>.pos)
      obtain ⟨hgrows, hnext, hkeeps⟩ := h.grows hit hq
      have hlength : level ≤ (frees b (s.withTable va level p q)).length := by
        rw [hgrows.frees_eq, List.length_drop]
        omega
      obtain ⟨s', use', p', it', hrun, hgrows', hit', hkeeps'⟩ :=
        ih hgrows.owned hnext (Nat.le_add_right level turns) hlength
      refine ⟨s', use', p', it', ?_, ?_, hit', fun _ _ _ h => hkeeps' _ _ _ (hkeeps _ _ _ h)⟩
      · rw [addTables_cons h hit hq hperm, hrun]
      · rw [Nat.add_comm]
        exact hgrows.trans hgrows'

/-- **Not enough pages.** The loop adds tables until no page is free. -/
theorem addTables_short (h : Owned b s use) {it : Vmiter} {perm turns : Nat}
    (hit : Arrives s use pid va level p it) (hturns : level ≤ turns) (hperm : perm ≠ 0)
    (hfrees : (frees b s).length < level) :
    ∃ s' use' p' it', addTables b perm turns it s = .ok (none, s') ∧
      Grows b pid va s use s' use' (frees b s).length ∧
      Arrives s' use' pid va (level - (frees b s).length) p' it' := by
  induction hn : (frees b s).length generalizing s use p it turns level with
  | zero =>
      obtain ⟨level, rfl⟩ := Nat.exists_eq_succ_of_ne_zero (Nat.ne_zero_of_lt hfrees)
      obtain ⟨turns, rfl⟩ := Nat.exists_eq_add_of_lt (Nat.lt_of_succ_le hturns)
      refine ⟨s, use, p, it, ?_, .refl h, hit⟩
      have hzero := hit.entry_zero
      obtain ⟨rfl, -, -⟩ := hit
      rw [addTables, if_pos ⟨Nat.succ_pos _, hperm⟩]
      simp only [Vmiter.entry, hzero, Nat.zero_and, ne_eq, not_true_eq_false, if_false,
        kalloc_nil (List.eq_nil_of_length_eq_zero hn), if_true]
  | succ n ih =>
      obtain ⟨level, rfl⟩ := Nat.exists_eq_succ_of_ne_zero (Nat.ne_zero_of_lt hfrees)
      obtain ⟨turns, rfl⟩ := Nat.exists_eq_add_of_lt (Nat.lt_of_succ_le hturns)
      obtain ⟨q, rest, hq⟩ := List.exists_cons_of_length_eq_add_one hn
      obtain ⟨hgrows, hnext, -⟩ := h.grows hit hq
      have hlength : (frees b (s.withTable va level p q)).length = n := by
        rw [hgrows.frees_eq, List.length_drop, hn, Nat.add_sub_cancel]
      obtain ⟨s', use', p', it', hrun, hgrows', hit'⟩ :=
        ih hgrows.owned hnext (Nat.le_add_right level turns) (by omega) hlength
      refine ⟨s', use', p', it', ?_, ?_, ?_⟩
      · rw [addTables_cons h hit hq hperm, hrun]
      · rw [Nat.add_comm]
        exact hgrows.trans hgrows'
      · rwa [Nat.succ_sub_succ]

end Tables

/-! ## Mappings -/

section Mappings

variable {b : Build} {s : State} {use : Uses} {pid va level p q perm : Nat} {it : Vmiter}

/-- At the lowest level it is the page. -/
theorem number_zero : number va 0 = virtualPage va := by
  rw [number, pow_zero, Nat.div_one]

/-- The iterator of a walk. -/
theorem Arrives.vmiter_eq (h : Owned b s use) (hva : vaIsCanonical va)
    (hit : Arrives s use pid va level p it) : vmiter s.mem (s.pagetable pid) va = .ok it := by
  obtain ⟨level', -, p', it', hit', heq⟩ := h.vmiter_spec (h.hasRoot hit.table) hva
  obtain ⟨rfl, rfl⟩ := h.arrives_unique hit hit'
  rw [heq, hit.eq, hit'.eq]

/-- The checks of `try_map` pass for a page of memory. -/
theorem tryMap_eq (hit : Arrives s use pid va level p it) (halign : va % PAGESIZE = 0)
    (hq : q < 512) (hperm : perm = 3 ∨ perm = 7) :
    it.tryMap b (q * PAGESIZE) perm s = (do
      match ← addTables b perm 3 it s with
      | (none, s) => .ok (-1, s)
      | (some it, s) =>
        match it.level, it.pep with
        | 0, some pep => .ok (0, { s with mem := store64 s.mem pep (q * PAGESIZE + perm) })
        | _, _ => .ok (0, s)) := by
  obtain ⟨rfl, -, -⟩ := hit
  have hsmall : q * PAGESIZE ≠ 2 ^ 64 - 1 := by
    have hlt : q * PAGESIZE < 512 * PAGESIZE := Nat.mul_lt_mul_of_pos_right hq (by decide)
    exact ne_of_lt (hlt.trans (by decide))
  have hmask : q * PAGESIZE &&& PTE_PAMASK = q * PAGESIZE := by
    have haddress := address_eq (f := 0) (q := q) (by decide) (by omega)
    rwa [Nat.add_zero] at haddress
  have hor : q * PAGESIZE ||| perm = q * PAGESIZE + perm :=
    Packed.or_low (k := 12) (by rcases hperm with rfl | rfl <;> decide)
  have hpa : (if q * PAGESIZE = 2 ^ 64 - 1 ∧ perm = 0 then 0 else q * PAGESIZE) = q * PAGESIZE :=
    if_neg fun h => hsmall h.1
  have hrange : ¬(perm &&& PTE_P ≠ 0 ∧
      (q * PAGESIZE = 2 ^ 64 - 1 ∨ q * PAGESIZE &&& PTE_PAMASK ≠ q * PAGESIZE)) :=
    fun h => h.2.elim hsmall (absurd hmask)
  have hpresent : perm &&& PTE_P ≠ 0 := by rcases hperm with rfl | rfl <;> decide
  have hallowed : perm &&& 0xFFF &&& PTE_PWU = perm &&& PTE_PWU := by
    rcases hperm with rfl | rfl <;> decide
  unfold Vmiter.tryMap
  dsimp only
  rewrite [hpa, if_neg (not_not.mpr halign), if_neg hrange, if_neg fun h => hpresent h.1,
    if_neg (not_not.mpr hallowed), hor]
  rfl

/-- **A mapping.** With a free page for each missing table, the entry is written. -/
theorem memoryMap_enough (h : Owned b s use) (hit : Arrives s use pid va level p it)
    (hva : vaIsCanonical va) (halign : va % PAGESIZE = 0) (hq : q < 512) (hperm : perm = 3 ∨ perm = 7)
    (hfrees : level ≤ (frees b s).length) :
    ∃ s' use' p', Grows b pid va s use s' use' level ∧ KeepsEntries s use s' use' ∧
      use' p' = some (.table pid 0 (virtualPage va / 512)) ∧
      memoryMap b (s.pagetable pid) va (q * PAGESIZE) perm s = .ok (0,
        { s' with
          mem := store64 s'.mem (slot p' (virtualPage va % 512)) (q * PAGESIZE + perm) }) := by
  have hlevel : level ≤ 3 := h.level_le hit.table
  have hne : perm ≠ 0 := by omega
  obtain ⟨s', use', p', it', hrun, hgrows, hit', hkeeps⟩ :=
    addTables_enough h hit hlevel hne hfrees
  have htable := hit'.table
  have heq := hit'.eq
  rw [number_zero] at htable
  rw [entrySlot, number_zero] at heq
  refine ⟨s', use', p', hgrows, hkeeps, htable, ?_⟩
  rw [memoryMap, hit.vmiter_eq h hva]
  change it.tryMap b (q * PAGESIZE) perm s = _
  rw [tryMap_eq hit halign hq hperm, hrun, heq]
  rfl

/-- Without, it is not, and nobody is told. -/
theorem memoryMap_short (h : Owned b s use) (hit : Arrives s use pid va level p it)
    (hva : vaIsCanonical va) (halign : va % PAGESIZE = 0) (hq : q < 512) (hperm : perm = 3 ∨ perm = 7)
    (hfrees : (frees b s).length < level) :
    ∃ s' use' p' it', Grows b pid va s use s' use' (frees b s).length ∧
      Arrives s' use' pid va (level - (frees b s).length) p' it' ∧
      memoryMap b (s.pagetable pid) va (q * PAGESIZE) perm s = .ok (-1, s') := by
  have hlevel : level ≤ 3 := h.level_le hit.table
  obtain ⟨s', use', p', it', hrun, hgrows, hit'⟩ :=
    addTables_short h hit hlevel (by omega : perm ≠ 0) hfrees
  refine ⟨s', use', p', it', hgrows, hit', ?_⟩
  rw [memoryMap, hit.vmiter_eq h hva]
  change it.tryMap b (q * PAGESIZE) perm s = _
  rw [tryMap_eq hit halign hq hperm, hrun]
  rfl

end Mappings

end Kernel
