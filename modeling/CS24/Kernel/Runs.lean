import CS24.Kernel.PageAlloc

/-!
# Runs of the kernel

The record of uses is kept over whole runs: `kernel_start` sets up one process after the other,
and afterwards system calls, exceptions and the processes themselves take turns.  What the
invariant says beyond the record depends on the calls that processes make: above which page
they have pages, and whether pages get lost.
-/

namespace Kernel

open Bytes System

/-- What holds between turns.  Each process has a table that the record knows, or none at all; the
pages of processes are from number `low` on; every page with a count has a use; and if `strict`
holds, no page is lost. -/
structure Inv (b : Build) (low : Nat) (strict : Prop) (s : State) (use : Uses) : Prop where
  owned : Owned b s use
  roots : ∀ pid, HasRoot s use pid ∨ s.pagetable pid = 0 ∧ s.procState pid ≠ .runnable
  viewer : s.viewer = 0 ∨ ∃ p, s.viewer = p * PAGESIZE ∧ use p = some .viewer
  low : ∀ q pid page, use q = some (.leaf pid page) → low ≤ page
  counted : ∀ p, s.refcount p ≠ 0 → use p ≠ none
  noLost : strict → NoLost use

section Steps

variable {b : Build} {low : Nat} {strict : Prop} {s t u : State} {use use' : Uses} {pid addr : Nat}
  {marks : Mem}

theorem HasRoot.keep (h : HasRoot s use pid) (hpagetable : t.pagetable pid = s.pagetable pid)
    (hkeep : ∀ q, use q = some (.table pid 3 0) → use' q = some (.table pid 3 0)) :
    HasRoot t use' pid := by
  obtain ⟨p, hp, huse⟩ := h
  exact ⟨p, hpagetable.trans hp, hkeep p huse⟩

/-- Writes outside the tables. -/
theorem Inv.writes (h : Inv b low strict s use) {mem : Mem} (hmem : KeepsTables use s.mem mem) :
    Inv b low strict { s with mem := mem } use :=
  ⟨h.owned.writes hmem, h.roots, h.viewer, h.low, h.counted, h.noLost⟩

/-- Pages that process `pid` gets. -/
theorem Inv.extends (h : Inv b low strict s use) (he : Extends b pid s use t use')
    (hlow : ∀ q page, use' q = some (.leaf pid page) → low ≤ page)
    (hnoLost : strict → NoLost use') : Inv b low strict t use' where
  owned := he.owned
  roots := by
    intro pid'
    rcases h.roots pid' with hroot | hnone
    · exact .inl (hroot.keep (by rw [he.same]) fun q hq => he.keeps q _ hq (by rintro _ ⟨⟩))
    · exact .inr (by rw [he.same]; exact hnone)
  viewer := by
    rcases h.viewer with hzero | ⟨p, hp, huse⟩
    · exact .inl (by rw [he.same]; exact hzero)
    · exact .inr ⟨p, by rw [he.same]; exact hp, he.keeps p _ huse (by rintro _ ⟨⟩)⟩
  low := by
    intro q pid' page hq
    rcases he.fresh q _ hq with hold | hof | hlost
    · exact h.low q pid' page hold
    · obtain rfl : pid' = pid := hof
      exact hlow q page hq
    · cases hlost
  counted := by
    intro p hp hnone
    rw [he.refcount p hnone] at hp
    exact h.counted p hp (he.none_of_none hnone)
  noLost := hnoLost

/-- The viewer takes the next page. -/
theorem Inv.takesViewer {p : Nat} {rest : List Nat} (h : Inv b low strict s use) (hzero : s.viewer = 0)
    (hf : frees b s = p :: rest) :
    Inv b low strict { s.allocated p with viewer := p * PAGESIZE } (relabel use p .viewer) where
  owned := by
    have hfree : Free b s p := mem_frees.mp (hf ▸ List.mem_cons_self)
    have howned := (h.owned.allocates hfree).setsViewer hzero relabel_self
    rwa [relabel_relabel] at howned
  roots pid := (h.roots pid).imp_left fun hroot =>
    hroot.keep rfl fun _ => relabel_keeps_none (h.owned.unused hf)
  viewer := .inr ⟨p, rfl, relabel_self⟩
  low q pid page hq := h.low q pid page (relabel_fresh (by rintro ⟨⟩) hq)
  counted := by
    intro q hq hnone
    obtain ⟨hqp, hold⟩ := relabel_eq_none hnone
    have hsame : (s.allocated p).refcount q = s.refcount q := Function.update_of_ne hqp ..
    exact h.counted q (fun hzero => hq (hsame.trans hzero)) hold
  noLost hstrict q hq := h.noLost hstrict q (relabel_fresh (by rintro ⟨⟩) hq)

/-- **The memory viewer** keeps the invariant and all uses of pages.  It may take one free page for
itself; the tables of the processes, their states and which of them runs stay as they are. -/
theorem Inv.memshow (h : Inv b low strict s use) (hrun : memshow b marks s = .ok t) :
    ∃ use', Inv b low strict t use' ∧ t.pagetable = s.pagetable ∧ t.procState = s.procState ∧
      t.current = s.current ∧ (∀ q u, use q = some u → use' q = some u) ∧
      ∀ q u, u ≠ .viewer → use' q = some u → use q = some u := by
  -- first the page is there, then it is drawn
  have hpage : ∃ s₁ use₁ p, t = { s₁ with mem := fun a =>
        if s₁.viewer ≤ a ∧ a < s₁.viewer + PAGESIZE then marks a else s₁.mem a } ∧
      Inv b low strict s₁ use₁ ∧ s₁.viewer = p * PAGESIZE ∧ use₁ p = some .viewer ∧
      s₁.pagetable = s.pagetable ∧ s₁.procState = s.procState ∧ s₁.current = s.current ∧
      (∀ q u, use q = some u → use₁ q = some u) ∧
      ∀ q u, u ≠ .viewer → use₁ q = some u → use q = some u := by
    unfold Kernel.memshow at hrun
    by_cases hzero : s.viewer = 0
    · rw [if_pos hzero] at hrun
      cases hf : frees b s with
      | nil =>
          rw [kalloc_nil hf] at hrun
          cases hrun
      | cons p rest =>
          have hfree : Free b s p := mem_frees.mp (hf ▸ List.mem_cons_self)
          have hbounds := free_bounds hfree
          have hunused := h.owned.unused hf
          have hne : p * PAGESIZE ≠ 0 := by
            simp only [PAGESIZE]
            omega
          rw [kalloc_cons hf] at hrun
          simp only [hne, if_false] at hrun
          exact ⟨_, relabel use p .viewer, p, (Except.ok.inj hrun).symm, h.takesViewer hzero hf, rfl,
            relabel_self, rfl, rfl, rfl, fun _ _ => relabel_keeps_none hunused,
            fun _ _ => relabel_fresh⟩
    · obtain ⟨p, hp, huse⟩ := h.viewer.resolve_left hzero
      rw [if_neg hzero] at hrun
      exact ⟨s, use, p, (Except.ok.inj hrun).symm, h, hp, huse, rfl, rfl, rfl, fun _ _ h => h,
        fun _ _ _ h => h⟩
  obtain ⟨s₁, use₁, p, rfl, hinv, hviewer, huse, hpagetable, hprocState, hcurrent, hkeeps, hfresh⟩ :=
    hpage
  refine ⟨use₁, hinv.writes (keepsTables_of_outside (p := p) ?_ ?_), hpagetable, hprocState, hcurrent,
    hkeeps, hfresh⟩
  · intro pid level region htable
    cases huse.symm.trans htable
  · intro a ha
    rw [if_neg]
    rw [hviewer]
    simp only [PAGESIZE] at ha ⊢
    omega

/-- A page that was mapped is no table, and can be cleared. -/
theorem Mapped.keepsTables {page level f : Nat} {rest : List Nat}
    (hm : Mapped b pid page level f rest s use t use') :
    KeepsTables use' t.mem (fill t.mem (f * PAGESIZE) 0 PAGESIZE) := by
  refine keepsTables_of_outside (p := f) (fun pid level region htable => ?_) fun a ha =>
    fill_page_other ha
  cases hm.leaf.symm.trans htable

/-- A page that a process gets and that is cleared. -/
theorem Inv.mapped {page level f : Nat} {rest : List Nat} (h : Inv b low strict s use)
    (hm : Mapped b pid page level f rest s use t use') (hlow : low ≤ page)
    (hnew : strict → ∀ q, use q ≠ some (.leaf pid page)) :
    Inv b low strict { t with mem := fill t.mem (f * PAGESIZE) 0 PAGESIZE } use' := by
  refine Inv.writes (h.extends hm.extends (fun q page hq => ?_) fun hstrict =>
    hm.noLost (hnew hstrict) (h.noLost hstrict)) hm.keepsTables
  rcases hm.fresh q _ hq with hold | rfl | ⟨-, hlost⟩ | ⟨-, l, htable⟩
  · exact h.low q _ page hold
  · obtain ⟨-, rfl⟩ := Use.leaf.inj (Option.some.inj (hm.leaf.symm.trans hq))
    exact hlow
  · cases hlost
  · cases htable

/-- **A system call for a page.** -/
theorem Inv.pageAlloc {r : Int} (h : Inv b low strict s use) (hroot : HasRoot s use s.current)
    (hlow : low ≤ virtualPage addr)
    (hnew : strict → vaIsCanonical addr → ∀ q, use q ≠ some (.leaf s.current (virtualPage addr)))
    (hrun : syscallPageAlloc b addr s = .ok (r, u)) :
    ∃ use', Inv b low strict u use' ∧ HasRoot u use' u.current := by
  rcases syscallPageAlloc_spec h.owned hroot hrun with ⟨-, rfl⟩ | hmapped
  · exact ⟨use, h, hroot⟩
  obtain ⟨-, hva, -, f, rest, level, s', use', -, hm, rfl⟩ := hmapped
  have hcurrent : s'.current = s.current := by rw [hm.same]
  have hkept : HasRoot s' use' s.current :=
    hroot.keep (by rw [hm.same]) fun q hq => hm.keeps q _ hq (by rintro ⟨⟩)
  rw [← hcurrent] at hkept
  exact ⟨use', h.mapped hm hlow fun hstrict => hnew hstrict hva, hkept⟩

/-- What processes write is not in tables. -/
theorem Inv.user (h : Inv b low strict s use) (hroot : HasRoot s use pid) {mem : Mem}
    (hmem : ∀ a, mem a ≠ s.mem a → ∃ va, UserMaps s pid va (a / PAGESIZE)) :
    Inv b low strict { s with mem := mem } use := by
  refine h.writes fun p pid' level region hp a ha ha' => ?_
  by_contra hne
  have hpage : a / PAGESIZE = p := by
    simp only [PAGESIZE] at ha ha' ⊢
    omega
  obtain ⟨va, hmaps⟩ := hmem a hne
  rw [hpage] at hmaps
  rcases h.owned.userMaps_cases hroot hmaps with hleaf | ⟨rfl, -⟩
  · cases hp.symm.trans hleaf
  · -- the console is never allocated
    obtain ⟨hreserved, -⟩ := h.owned.allocatable _ (Owned.use_ne_none hp)
    exact hreserved (.inr ⟨by decide, by decide⟩)

/-- **Turns** keep the invariant, and the process that runs then has a table.  The addresses of
`sys_page_alloc` have to be from page `low` on and, if no page may be lost, ones that are not mapped
yet. -/
theorem Inv.turn {ok : State → Nat → Prop} (h : Inv b low strict s use) (hroot : HasRoot s use s.current)
    (hlow : ∀ addr, ok s addr → low ≤ virtualPage addr)
    (hnew : strict → ∀ addr, ok s addr → ∀ page, ¬MapsTo s s.current addr page)
    (hturn : Turn b ok s u) : ∃ use', Inv b low strict u use' ∧ HasRoot u use' u.current := by
  have hrun : ∀ {t u : State} {use' : Uses} {pid : Nat}, Inv b low strict t use' →
      run b pid t = .ok u → ∃ use', Inv b low strict u use' ∧ HasRoot u use' u.current := by
    intro t u use' pid hinv hrun
    unfold Kernel.run at hrun
    split_ifs at hrun with hrunnable
    rw [not_not] at hrunnable
    obtain ⟨-, -, hrun⟩ := Checked.bind_eq_ok hrun
    cases hrun
    refine ⟨use', ⟨hinv.owned.congr rfl rfl rfl rfl, hinv.roots, hinv.viewer, hinv.low, hinv.counted,
      hinv.noLost⟩, ?_⟩
    exact (hinv.roots pid).resolve_right fun hnone => hnone.2 hrunnable
  cases hturn with
  | pageAlloc hok hshow hcall =>
      obtain ⟨use', hinv, hpagetable, -, hcurrent, hkeeps, hfresh⟩ := h.memshow hshow
      have hroot' := hroot.keep (t := _) (congrFun hpagetable s.current) fun q => hkeeps q _
      rw [← hcurrent] at hroot'
      refine hinv.pageAlloc hroot' (hlow _ hok) (fun hstrict hva q hq => ?_) hcall
      rw [hcurrent] at hq
      exact hnew hstrict _ hok q (h.owned.mapsTo_of_leaf hva (hfresh q _ (by rintro ⟨⟩) hq))
  | getpid hshow =>
      obtain ⟨use', hinv, hpagetable, -, hcurrent, hkeeps, -⟩ := h.memshow hshow
      have hroot' := hroot.keep (t := _) (congrFun hpagetable s.current) fun q => hkeeps q _
      rw [← hcurrent] at hroot'
      exact ⟨use', hinv, hroot'⟩
  | schedule hshow hnext =>
      obtain ⟨use', hinv, -⟩ := h.memshow hshow
      exact hrun hinv hnext
  | fault hshow hnext =>
      obtain ⟨use', hinv, -⟩ := h.memshow hshow
      refine @hrun _ _ use' _ ?_ hnext
      refine ⟨hinv.owned.congr rfl rfl rfl rfl, fun pid => ?_, hinv.viewer, hinv.low, hinv.counted,
        hinv.noLost⟩
      refine (hinv.roots pid).imp_right fun hnone => ⟨hnone.1, ?_⟩
      dsimp only
      rw [Function.update_apply]
      split_ifs
      · decide
      · exact hnone.2
  | user hmem => exact ⟨use, h.user hroot hmem, hroot⟩

end Steps

end Kernel
