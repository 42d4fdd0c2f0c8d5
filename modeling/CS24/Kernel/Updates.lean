import CS24.Kernel.Ownership

/-!
# How the record of uses follows the kernel

Each operation of the kernel on a page has its effect on the record: a page that is
allocated is lost until something leads to it, an entry that is written takes a lost page
into use and loses the page it led to before, and what is written to a page that is not
a table has no effect.
-/

namespace Kernel

open Bytes

/-- The tables in `mem` are those in `mem'`. -/
def KeepsTables (use : Uses) (mem mem' : Mem) : Prop :=
  ∀ p pid level region, use p = some (.table pid level region) →
    ∀ a, p * PAGESIZE ≤ a → a < p * PAGESIZE + PAGESIZE → mem' a = mem a

/-- The record without the use of a page as the target of virtual page `page`. -/
def retire (use : Uses) (pid page : Nat) : Uses := fun q =>
  if use q = some (.leaf pid page) then some .lost else use q

section Slots

variable {p q i j : Nat} {mem mem' : Mem}

/-- Two slots are the same or apart. -/
theorem slot_apart (hi : i < 512) (hj : j < 512) (hne : p ≠ q ∨ i ≠ j) :
    Apart (slot p i) 8 (slot q j) 8 := by
  simp only [Apart, slot, PAGESIZE]
  omega

/-- The slots of a page are in the page. -/
theorem slot_bounds (hi : i < 512) :
    p * PAGESIZE ≤ slot p i ∧ slot p i + 8 ≤ p * PAGESIZE + PAGESIZE := by
  simp only [slot, PAGESIZE]
  omega

/-- A write to a slot leaves the other pages. -/
theorem store_slot_other {a v : Nat} (hi : i < 512) (ha : a / PAGESIZE ≠ p) :
    store64 mem (slot p i) v a = mem a := by
  have hbounds := slot_bounds (p := p) hi
  refine store64_other ?_
  simp only [PAGESIZE] at ha hbounds
  omega

/-- Setting a page leaves the other pages. -/
theorem fill_page_other {c : UInt8} {a : Nat} (ha : a / PAGESIZE ≠ q) :
    fill mem (q * PAGESIZE) c PAGESIZE a = mem a := by
  refine fill_other ?_
  simp only [PAGESIZE] at ha ⊢
  omega

/-- Each byte of the page is filled. -/
theorem fill_page_inside {c : UInt8} {a : Nat} (ha : a / PAGESIZE = q) :
    fill mem (q * PAGESIZE) c PAGESIZE a = c := by
  simp only [PAGESIZE] at ha ⊢
  exact fill_inside (by omega) (by omega)

/-- A write to one page leaves the slots of the others. -/
theorem load_slot_congr (hi : i < 512)
    (hmem : ∀ a, p * PAGESIZE ≤ a → a < p * PAGESIZE + PAGESIZE → mem' a = mem a) :
    load64 mem' (slot p i) = load64 mem (slot p i) := by
  have hbounds := slot_bounds (p := p) hi
  refine load64_congr fun a ha ha' => hmem a (by omega) (by omega)

/-- Setting one page leaves the slots of the others. -/
theorem load_slot_fill {c : UInt8} (hi : i < 512) (hne : p ≠ q) :
    load64 (fill mem (q * PAGESIZE) c PAGESIZE) (slot p i) = load64 mem (slot p i) := by
  refine load_slot_congr hi fun a ha ha' => fill_other ?_
  simp only [PAGESIZE] at ha ha' ⊢
  omega

/-- A write to one page that is no table leaves the tables. -/
theorem keepsTables_of_outside {use : Uses}
    (hp : ∀ pid level region, use p ≠ some (.table pid level region))
    (hmem : ∀ a, a / PAGESIZE ≠ p → mem' a = mem a) : KeepsTables use mem mem' := by
  intro q pid level region hq a ha ha'
  refine hmem a ?_
  rintro rfl
  have hpage : a / PAGESIZE = q := by
    simp only [PAGESIZE] at ha ha' ⊢
    omega
  exact hp pid level region (by rw [hpage]; exact hq)

end Slots

/-- The record after page `q` was taken into use. -/
def relabel (use : Uses) (q : Nat) (u : Use) : Uses := Function.update use q (some u)

section Relabel

variable {use : Uses} {p q : Nat} {u v : Use}

/-- The page has its new use, -/
theorem relabel_self : relabel use q u q = some u := Function.update_self ..

/-- and the others have theirs. -/
theorem relabel_other (hne : p ≠ q) : relabel use q u p = use p := Function.update_of_ne hne ..

/-- The last use counts. -/
theorem relabel_relabel : relabel (relabel use q u) q v = relabel use q v := Function.update_idem ..

/-- A page that was in use before keeps its use. -/
theorem relabel_keeps (hq : use q = some .lost ∨ use q = none) (hv : v ≠ .lost)
    (hp : use p = some v) : relabel use q u p = some v := by
  rw [relabel_other, hp]
  rintro rfl
  grind

/-- When a page without a use gets one, the others keep theirs. -/
theorem relabel_keeps_none (hq : use q = none) (hp : use p = some v) : relabel use q u p = some v := by
  rw [relabel_other, hp]
  rintro rfl
  cases hq.symm.trans hp

/-- No page is allocated. -/
theorem relabel_none (hq : use q = some .lost) : relabel use q u p = none ↔ use p = none := by
  by_cases hne : p = q
  · subst hne
    simp [relabel_self, hq]
  · rw [relabel_other hne]

/-- The uses in the new record. -/
theorem relabel_cases (hp : relabel use q u p = some v) :
    p = q ∧ v = u ∨ p ≠ q ∧ use p = some v := by
  by_cases hne : p = q
  · rw [hne, relabel_self] at hp
    exact .inl ⟨hne, (Option.some.inj hp).symm⟩
  · exact .inr ⟨hne, (relabel_other hne).symm.trans hp⟩

/-- A use that is not the new one was there before. -/
theorem relabel_fresh (hv : v ≠ u) (hp : relabel use q u p = some v) : use p = some v := by
  rcases relabel_cases hp with ⟨-, hu⟩ | ⟨-, hold⟩
  · exact absurd hu hv
  · exact hold

/-- A page without a use had none, and is another one. -/
theorem relabel_eq_none (hp : relabel use q u p = none) : p ≠ q ∧ use p = none := by
  have hne : p ≠ q := by
    rintro rfl
    cases relabel_self.symm.trans hp
  exact ⟨hne, (relabel_other hne).symm.trans hp⟩

/-- The other uses stay. -/
theorem retire_keeps {pid page : Nat} (hp : use p = some v) (hv : v ≠ .leaf pid page) :
    retire use pid page p = some v := by
  rw [retire, if_neg, hp]
  rw [hp]
  exact fun heq => hv (Option.some.inj heq)

/-- No page gets a use or loses it. -/
theorem retire_none {pid page : Nat} : retire use pid page p = none ↔ use p = none := by
  rw [retire]
  split <;> simp_all

/-- The page that is retired is lost, and the others are as before. -/
theorem retire_cases {pid page : Nat} (hp : retire use pid page p = some v) :
    use p = some (.leaf pid page) ∧ v = .lost ∨ use p = some v := by
  rw [retire] at hp
  split at hp
  · exact .inl ⟨‹_›, (Option.some.inj hp).symm⟩
  · exact .inr hp

end Relabel

/-- Entries do not depend on the record of other pages. -/
theorem EntryOk.mono {use use' : Uses} {pid level y e : Nat} (h : EntryOk use pid level y e)
    (htable : ∀ q level, use q = some (.table pid level y) → use' q = some (.table pid level y))
    (hleaf : ∀ q, level = 0 → use q = some (.leaf pid y) → use' q = some (.leaf pid y)) :
    EntryOk use' pid level y e := by
  cases h with
  | absent => exact .absent
  | table hq => exact .table (htable _ _ hq)
  | kernel he => exact .kernel he
  | leaf hq => exact .leaf (hleaf _ rfl hq)

/-- What a page is reached from does not depend on the rest of the state. -/
theorem Linked.mono {s s' : State} {use use' : Uses} {q : Nat} {u : Use}
    (h : Linked s use q u) (hpagetable : s'.pagetable = s.pagetable)
    (hviewer : s'.viewer = s.viewer)
    (htable : ∀ pid level y, u = .table pid level y →
      HasEntry s use pid (level + 1) y (q * PAGESIZE + 7) →
      HasEntry s' use' pid (level + 1) y (q * PAGESIZE + 7))
    (hleaf : ∀ pid y, u = .leaf pid y → HasEntry s use pid 0 y (q * PAGESIZE + 7) →
      HasEntry s' use' pid 0 y (q * PAGESIZE + 7)) : Linked s' use' q u := by
  cases u with
  | table pid level region =>
      rcases h with ⟨hlevel, hregion, hroot⟩ | ⟨hlevel, he⟩
      · exact .inl ⟨hlevel, hregion, by rw [hpagetable, hroot]⟩
      · exact .inr ⟨hlevel, htable _ _ _ rfl he⟩
  | leaf pid page => exact hleaf _ _ rfl h
  | viewer => exact hviewer.trans h
  | lost => trivial

/-- The state after page `p` was allocated. -/
def State.allocated (s : State) (p : Nat) : State :=
  { s with
    refcount := Function.update s.refcount p (s.refcount p + 1)
    mem := fill s.mem (p * PAGESIZE) 0xCC PAGESIZE }

namespace Owned

variable {b : Build} {s : State} {use : Uses} {p q pid level region i : Nat}

/-- A page with a use is one that has one. -/
theorem use_ne_none {u : Use} (hp : use p = some u) : use p ≠ none := by
  rw [hp]
  exact Option.some_ne_none u

/-- Writes outside the tables. -/
theorem writes (h : Owned b s use) {mem : Mem} (hmem : KeepsTables use s.mem mem) :
    Owned b { s with mem := mem } use := by
  have hslot : ∀ {p pid level region i}, use p = some (.table pid level region) → i < 512 →
      load64 mem (slot p i) = load64 s.mem (slot p i) :=
    fun hp hi => load_slot_congr hi (hmem _ _ _ _ hp)
  refine ⟨h.used, h.allocatable, ?_, ?_⟩
  · intro p pid level region hp i hi
    rw [hslot hp hi]
    exact h.entries p pid level region hp i hi
  · intro q u hq
    have hentry : ∀ {pid level y e}, HasEntry s use pid level y e →
        HasEntry { s with mem := mem } use pid level y e := by
      rintro pid level y e ⟨p, hp, he⟩
      exact ⟨p, hp, (hslot hp (Nat.mod_lt _ (by decide))).trans he⟩
    exact (h.linked q u hq).mono rfl rfl (fun _ _ _ _ => hentry) fun _ _ _ => hentry

/-- An allocated page is lost at first. -/
theorem allocates (h : Owned b s use) (hp : Free b s p) :
    Owned b (s.allocated p) (relabel use p .lost) := by
  have hnone : use p = none := by
    by_contra hsome
    exact h.used p hsome hp.2
  have hother : ∀ {q u}, use q = some u → relabel use p .lost q = some u :=
    relabel_keeps_none hnone
  have hfill : KeepsTables use s.mem (fill s.mem (p * PAGESIZE) 0xCC PAGESIZE) :=
    keepsTables_of_outside (p := p) (fun _ _ _ htable => by cases hnone.symm.trans htable)
      fun _ => fill_page_other
  obtain ⟨hused, halloc, hentries, hlinked⟩ := h.writes hfill
  refine ⟨?_, ?_, ?_, ?_⟩
  · intro q hq
    by_cases hqp : q = p
    · subst hqp
      simp [State.allocated, hp.2]
    · rw [relabel_other hqp] at hq
      simp only [State.allocated, Function.update_of_ne hqp]
      exact hused q hq
  · intro q hq
    by_cases hqp : q = p
    · exact hqp ▸ hp.1
    · rw [relabel_other hqp] at hq
      exact halloc q hq
  · intro q pid level region hq i hi
    exact (hentries q pid level region (relabel_fresh (by rintro ⟨⟩) hq) i hi).mono
      (fun _ _ huse => hother huse) fun _ _ huse => hother huse
  · intro q u hq
    cases u with
    | lost => trivial
    | _ =>
        refine (hlinked q _ (relabel_fresh (by rintro ⟨⟩) hq)).mono rfl rfl ?_ ?_
        · rintro pid level y - ⟨q', hq', he⟩
          exact ⟨q', hother hq', he⟩
        · rintro pid y - ⟨q', hq', he⟩
          exact ⟨q', hother hq', he⟩

/-- The entry for a page changes, and with it the use of the page that it led to and of
the one that it leads to. -/
theorem setLeaf (h : Owned b s use) {page e : Nat} {use' : Uses}
    (hp : use p = some (.table pid 0 (page / 512))) (hlt : e < 2 ^ 64)
    (hnone : ∀ q, use' q = none ↔ use q = none)
    (hkeep : ∀ q u, u ≠ .lost → u ≠ .leaf pid page → (use' q = some u ↔ use q = some u))
    (he : EntryOk use' pid 0 page e)
    (hnew : ∀ q, use' q = some (.leaf pid page) → e = q * PAGESIZE + 7) :
    Owned b { s with mem := store64 s.mem (slot p (page % 512)) e } use' := by
  have hindex := Nat.mod_lt page (show 0 < 512 by decide)
  have hsame : load64 (store64 s.mem (slot p (page % 512)) e) (slot p (page % 512)) = e :=
    load64_store64_same hlt
  have hother : ∀ {p' i}, i < 512 → p' ≠ p ∨ i ≠ page % 512 →
      load64 (store64 s.mem (slot p (page % 512)) e) (slot p' i) = load64 s.mem (slot p' i) := by
    intro p' i hi hne
    refine load64_store64_apart (slot_apart hindex hi ?_)
    exact hne.imp Ne.symm Ne.symm
  have htable : ∀ {p' pid' level region}, use' p' = some (.table pid' level region) ↔
      use p' = some (.table pid' level region) :=
    hkeep _ _ (by rintro ⟨⟩) (by rintro ⟨⟩)
  refine ⟨?_, ?_, ?_, ?_⟩
  · intro q hq
    exact h.used q (mt (hnone q).mpr hq)
  · intro q hq
    exact h.allocatable q (mt (hnone q).mpr hq)
  · intro p' pid' level region hp' i hi
    have hold := htable.mp hp'
    by_cases hslot : p' = p ∧ i = page % 512
    · obtain ⟨rfl, rfl⟩ := hslot
      obtain ⟨rfl, rfl, rfl⟩ := Use.table.inj (Option.some.inj (hold.symm.trans hp))
      rw [hsame, Nat.div_add_mod']
      exact he
    · rw [hother hi (by tauto)]
      refine (h.entries p' pid' level region hold i hi).mono (fun _ _ => htable.mpr) ?_
      -- a target of this entry is not the target that changes
      rintro q rfl hq
      refine (hkeep q _ (by rintro ⟨⟩) ?_).mpr hq
      intro heq
      obtain ⟨rfl, rfl⟩ := Use.leaf.inj heq
      rw [show (region * 512 + i) / 512 = region by omega] at hp
      exact hslot ⟨h.table_unique hold hp, by omega⟩
  · intro q u hq
    by_cases hlost : u = .lost
    · rw [hlost]
      trivial
    · by_cases hu : u = .leaf pid page
      · subst hu
        exact ⟨p, htable.mpr hp, hsame.trans (hnew q hq)⟩
      · refine (h.linked q u ((hkeep q u hlost hu).mp hq)).mono rfl rfl ?_ ?_
        · rintro pid' level y - ⟨p', hp', he'⟩
          refine ⟨p', htable.mpr hp', (hother (Nat.mod_lt _ (by decide)) ?_).trans he'⟩
          refine Or.inl ?_
          rintro rfl
          cases hp'.symm.trans hp
        · rintro pid' y rfl ⟨p', hp', he'⟩
          refine ⟨p', htable.mpr hp', (hother (Nat.mod_lt _ (by decide)) ?_).trans he'⟩
          by_contra hslot
          rw [not_or, not_not, not_not] at hslot
          obtain ⟨rfl, hy⟩ := hslot
          obtain ⟨rfl, -, hdiv⟩ := Use.table.inj (Option.some.inj (hp'.symm.trans hp))
          exact hu (by rw [show y = page by omega])

/-- A lost page becomes the target of a virtual page. -/
theorem mapsPage (h : Owned b s use) {page : Nat}
    (hp : use p = some (.table pid 0 (page / 512))) (hq : use q = some .lost) :
    Owned b { s with mem := store64 s.mem (slot p (page % 512)) (q * PAGESIZE + 7) }
      (relabel (retire use pid page) q (.leaf pid page)) := by
  have hbound := h.bounds (use_ne_none hq)
  refine h.setLeaf hp (by simp only [PAGESIZE]; omega) ?_ ?_ (.leaf relabel_self) ?_
  · intro q'
    by_cases hne : q' = q
    · subst hne
      simp [hq, relabel_self]
    · rw [relabel_other hne, retire]
      split <;> simp_all
  · intro q' u hlost hu
    by_cases hne : q' = q
    · subst hne
      rw [relabel_self, hq]
      grind
    · rw [relabel_other hne, retire]
      grind
  · intro q' hq'
    by_cases hne : q' = q
    · rw [hne]
    · rw [relabel_other hne, retire] at hq'
      grind

/-- An entry below `PROC_START_ADDR` gets the mapping of the kernel, or none. -/
theorem mapsKernel (h : Owned b s use) {page e : Nat}
    (hp : use p = some (.table pid 0 (page / 512))) (he : e = 0 ∨ KernelLeaf page e) :
    Owned b { s with mem := store64 s.mem (slot p (page % 512)) e } (retire use pid page) := by
  refine h.setLeaf hp ?_ ?_ ?_ ?_ ?_
  · rcases he with rfl | ⟨hlt, rfl | ⟨-, rfl⟩⟩
    · decide
    · simp only [PROC_START_ADDR, PAGESIZE] at hlt ⊢
      omega
    · simp only [PROC_START_ADDR, PAGESIZE] at hlt ⊢
      omega
  · intro q
    rw [retire]
    split <;> simp_all
  · intro q u hlost hu
    rw [retire]
    grind
  · rcases he with rfl | he
    · exact .absent
    · exact .kernel he
  · intro q hq
    rw [retire] at hq
    grind

/-- A lost page may get another use: it has a count. -/
theorem used_relabel (h : Owned b s use) (hq : use q = some .lost) {u : Use} :
    ∀ p, relabel use q u p ≠ none → s.refcount p ≠ 0 := fun p hp =>
  h.used p (mt (relabel_none hq).mpr hp)

/-- Pages in use can be allocated, with the page in its new use among them. -/
theorem allocatable_relabel (h : Owned b s use) (hq : use q = some .lost) {u : Use} :
    ∀ p, relabel use q u p ≠ none → allocatablePhysicalAddress b (p * PAGESIZE) := fun p hp =>
  h.allocatable p (mt (relabel_none hq).mpr hp)

/-- An empty table takes its place below an empty entry. -/
theorem addsTable (h : Owned b s use) {level y : Nat}
    (hp : use p = some (.table pid (level + 1) (y / 512)))
    (hzero : load64 s.mem (slot p (y % 512)) = 0) (hq : use q = some .lost) :
    Owned b
      { s with
        mem := store64 (fill s.mem (q * PAGESIZE) 0 PAGESIZE) (slot p (y % 512))
          (q * PAGESIZE + 7) }
      (relabel use q (.table pid level y)) := by
  have hindex := Nat.mod_lt y (show 0 < 512 by decide)
  have hbound := h.bounds (use_ne_none hq)
  have hne : p ≠ q := by
    rintro rfl
    cases hp.symm.trans hq
  generalize hmem : store64 (fill s.mem (q * PAGESIZE) 0 PAGESIZE) (slot p (y % 512))
    (q * PAGESIZE + 7) = mem
  have hsame : load64 mem (slot p (y % 512)) = q * PAGESIZE + 7 := by
    rw [← hmem]
    exact load64_store64_same (by simp only [PAGESIZE]; omega)
  have hother : ∀ {p' i}, i < 512 → p' ≠ q → p' ≠ p ∨ i ≠ y % 512 →
      load64 mem (slot p' i) = load64 s.mem (slot p' i) := by
    intro p' i hi hp' hslot
    rw [← hmem, load64_store64_apart (slot_apart hindex hi (hslot.imp Ne.symm Ne.symm)),
      load_slot_fill hi hp']
  have hnew : ∀ {i}, i < 512 → load64 mem (slot q i) = 0 := by
    intro i hi
    have hbounds := slot_bounds (p := q) hi
    rw [← hmem, load64_store64_apart (slot_apart hindex hi (.inl hne))]
    exact load64_fill_zero hbounds.1 hbounds.2
  have hkeep : ∀ {q' u}, u ≠ .lost → use q' = some u →
      relabel use q (.table pid level y) q' = some u := relabel_keeps (.inl hq)
  refine ⟨h.used_relabel hq, h.allocatable_relabel hq, ?_, ?_⟩
  · intro p' pid' level' region hp' i hi
    by_cases hnewTable : p' = q
    · subst hnewTable
      rw [hnew hi]
      exact .absent
    · have hold := (relabel_other hnewTable).symm.trans hp'
      by_cases hslot : p' = p ∧ i = y % 512
      · obtain ⟨rfl, rfl⟩ := hslot
        obtain ⟨rfl, rfl, rfl⟩ := Use.table.inj (Option.some.inj (hold.symm.trans hp))
        rw [hsame, Nat.div_add_mod']
        exact .table relabel_self
      · rw [hother hi hnewTable (by tauto)]
        exact (h.entries p' pid' level' region hold i hi).mono
          (fun _ _ => hkeep (by rintro ⟨⟩)) fun _ _ => hkeep (by rintro ⟨⟩)
  · intro q' u hq'
    have hentry : ∀ {q' pid' level' y'}, q' ≠ q →
        HasEntry s use pid' level' y' (q' * PAGESIZE + 7) →
        HasEntry { s with mem := mem } (relabel use q (.table pid level y))
          pid' level' y' (q' * PAGESIZE + 7) := by
      rintro q' pid' level' y' - ⟨p', hp', he⟩
      have hp'q : p' ≠ q := by
        rintro rfl
        cases hp'.symm.trans hq
      refine ⟨p', (relabel_other hp'q).trans hp',
        (hother (Nat.mod_lt _ (by decide)) hp'q ?_).trans he⟩
      by_contra hslot
      rw [not_or, not_not, not_not] at hslot
      obtain ⟨rfl, hy⟩ := hslot
      rw [hy, hzero] at he
      cases he
    rcases relabel_cases hq' with ⟨rfl, rfl⟩ | ⟨heq, hold⟩
    · refine .inr ⟨?_, p, hkeep (by rintro ⟨⟩) hp, hsame⟩
      obtain ⟨hlevel, -⟩ | ⟨hlevel, -⟩ := h.linked p _ hp <;> omega
    · exact (h.linked q' u hold).mono rfl rfl
        (fun _ _ _ _ => hentry heq) fun _ _ _ => hentry heq

/-- A lost page becomes the page of the memory viewer. -/
theorem setsViewer (h : Owned b s use) (hviewer : s.viewer = 0) (hq : use q = some .lost) :
    Owned b { s with viewer := q * PAGESIZE } (relabel use q .viewer) := by
  have hkeep : ∀ {q' u}, u ≠ .lost → use q' = some u → relabel use q .viewer q' = some u :=
    relabel_keeps (.inl hq)
  refine ⟨h.used_relabel hq, h.allocatable_relabel hq, ?_, ?_⟩
  · intro p pid level region hp i hi
    exact (h.entries p pid level region (relabel_fresh (by rintro ⟨⟩) hp) i hi).mono
      (fun _ _ => hkeep (by rintro ⟨⟩)) fun _ _ => hkeep (by rintro ⟨⟩)
  · intro q' u hq'
    rcases relabel_cases hq' with ⟨rfl, rfl⟩ | ⟨-, hold⟩
    · rfl
    · have hentry : ∀ {pid level y e}, HasEntry s use pid level y e →
          HasEntry { s with viewer := q * PAGESIZE } (relabel use q .viewer) pid level y e :=
        fun ⟨p, hp, he⟩ => ⟨p, hkeep (by rintro ⟨⟩) hp, he⟩
      cases u with
      | viewer =>
          have hzero := hviewer.symm.trans (h.linked q' _ hold)
          have := h.bounds (use_ne_none hold)
          simp only [PAGESIZE] at hzero
          omega
      | table pid level region => exact (h.linked q' _ hold).imp_right fun h => ⟨h.1, hentry h.2⟩
      | leaf pid page => exact hentry (h.linked q' _ hold)
      | lost => trivial

/-- A lost page that is cleared becomes the table of a process. -/
theorem setsRoot (h : Owned b s use) (hroot : s.pagetable pid = q * PAGESIZE)
    (hq : use q = some .lost) :
    Owned b { s with mem := fill s.mem (q * PAGESIZE) 0 PAGESIZE } (relabel use q (.table pid 3 0)) := by
  have hkeep : ∀ {q' u}, u ≠ .lost → use q' = some u → relabel use q (.table pid 3 0) q' = some u :=
    relabel_keeps (.inl hq)
  refine ⟨h.used_relabel hq, h.allocatable_relabel hq, ?_, ?_⟩
  · intro p pid' level region hp i hi
    by_cases hne : p = q
    · subst hne
      have hbounds := slot_bounds (p := p) hi
      rw [load64_fill_zero hbounds.1 hbounds.2]
      exact .absent
    · rw [load_slot_fill hi hne]
      exact (h.entries p pid' level region ((relabel_other hne).symm.trans hp) i hi).mono
        (fun _ _ => hkeep (by rintro ⟨⟩)) fun _ _ => hkeep (by rintro ⟨⟩)
  · intro q' u hq'
    rcases relabel_cases hq' with ⟨rfl, rfl⟩ | ⟨-, hold⟩
    · exact .inl ⟨rfl, rfl, hroot⟩
    · have hentry : ∀ {pid' level y e}, HasEntry s use pid' level y e →
          HasEntry { s with mem := fill s.mem (q * PAGESIZE) 0 PAGESIZE }
            (relabel use q (.table pid 3 0)) pid' level y e := by
        rintro pid' level y e ⟨p, hp, he⟩
        have hne : p ≠ q := by
          rintro rfl
          cases hp.symm.trans hq
        exact ⟨p, hkeep (by rintro ⟨⟩) hp, (load_slot_fill (Nat.mod_lt _ (by decide)) hne).trans he⟩
      exact (h.linked q' u hold).mono rfl rfl
        (fun _ _ _ _ => hentry) fun _ _ _ => hentry

/-- The table of a process that the record does not know is of no importance. -/
theorem setsPagetable (h : Owned b s use) (hpid : ∀ q level region, use q ≠ some (.table pid level region))
    (table : Nat) :
    Owned b { s with pagetable := Function.update s.pagetable pid table } use where
  used := h.used
  allocatable := h.allocatable
  entries := h.entries
  linked := by
    intro q u hq
    have hlinked := h.linked q u hq
    cases u with
    | table pid' level region =>
        have hne : pid' ≠ pid := by
          rintro rfl
          exact hpid q level region hq
        rcases hlinked with ⟨hlevel, hregion, hroot⟩ | hbelow
        · exact .inl ⟨hlevel, hregion, (Function.update_of_ne hne ..).trans hroot⟩
        · exact .inr hbelow
    | leaf pid' page => exact hlinked
    | viewer => exact hlinked
    | lost => trivial

end Owned

end Kernel
