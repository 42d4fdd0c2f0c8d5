import CS24.Kernel.Boot

/-!
# When memory runs out

In every state of a run the number of free pages decides whether a system call for a page is
atomic: there has to be one page for each table that is missing and one more, or none at all.  In
between, the kernel stops.  A process gets there by asking for the same page again and again.
-/

namespace Kernel

open Bytes System

section Runs

variable {b : Build} {s : State} {addr : Nat} {it : Vmiter}

/-- Where an address is not canonical nothing is mapped. -/
theorem atomic_iff_of_not_canonical (hva : ¬vaIsCanonical addr)
    (hit : vmiter s.mem (s.pagetable s.current) addr = .ok it) :
    Atomic b addr s ↔ frees b s = [] ∨ it.level < (frees b s).length := by
  refine atomic_iff_of_maps hit fun f rest result t hf _ hmap => absurd hmap ?_
  exact memoryMap_not_canonical hva (free_bounds (mem_frees.mp (hf ▸ List.mem_cons_self))).2

/-- **Memory that runs out.** In every state of a run, a call is atomic if no page is free, or if
there are more free pages than tables that are missing. -/
theorem reach_atomic_iff {command : Option String} (hplaces : Places (bootFrees b) (images b command))
    (hreach : Reach (Booted b command) (Turn b fun _ _ => True) s) (halign : addr % PAGESIZE = 0)
    (hit : vmiter s.mem (s.pagetable s.current) addr = .ok it) :
    Atomic b addr s ↔ frees b s = [] ∨ it.level < (frees b s).length := by
  have hinv : ∃ use, Inv b 0 False s use ∧ HasRoot s use s.current :=
    reach_inv (Nat.zero_le _) hplaces False.elim (fun _ _ _ => Nat.zero_le _) False.elim hreach
  obtain ⟨use, hinv, hroot⟩ := hinv
  by_cases hva : vaIsCanonical addr
  · obtain ⟨level, -, p, it', harrives, hit'⟩ := hinv.owned.vmiter_spec hroot hva
    obtain rfl := Except.ok.inj (hit.symm.trans hit')
    exact atomic_iff hinv.owned harrives hva halign
  · exact atomic_iff_of_not_canonical hva hit

theorem idle_atomic_iff : ∃ s it, Booted idle (some "program") s ∧
    vmiter s.mem (s.pagetable s.current) PROC_START_ADDR = .ok it ∧
    (Atomic idle PROC_START_ADDR s ↔ frees idle s = [] ∨ it.level < (frees idle s).length) := by
  obtain ⟨s, use, f, rest, p, hbooted, hinv, hcurrent, -, -, -, hp, -⟩ := exists_idle
  have hroot := hinv.owned.hasRoot hp
  rw [← hcurrent] at hroot
  have hcanonical : vaIsCanonical PROC_START_ADDR := by decide
  obtain ⟨level, -, q, it, -, hit⟩ := hinv.owned.vmiter_spec hroot hcanonical
  exact ⟨s, it, hbooted, hit, reach_atomic_iff idle_places (.init hbooted) (by decide) hit⟩

end Runs

/-! ## How memory runs out -/

/-- What process 1 needs in order to use up memory: the memory viewer has its page, there is a table
for the first 2 MiB, and none for those from 4 MiB on. -/
structure Consumes (s : State) (use : Uses) : Prop where
  inv : Inv idle 256 False s use
  current : s.current = 1
  viewer : s.viewer ≠ 0
  low : ∃ p, use p = some (.table 1 0 0)
  none : ∀ q, use q ≠ some (.table 1 0 2)

section Consumes

variable {s : State} {use : Uses} {f : Nat} {rest : List Nat}

/-- Each call takes one page. -/
theorem Consumes.pageAlloc (h : Consumes s use) (hf : frees idle s = f :: rest) :
    ∃ t use', Turn idle (fun _ _ => True) s t ∧ Consumes t use' ∧ frees idle t = rest := by
  obtain ⟨p, hp⟩ := h.low
  have hp' : use p = some (.table s.current 0 (virtualPage PROC_START_ADDR / 512)) := by
    rw [h.current]
    exact hp
  obtain ⟨t, use', hrun, hm⟩ := syscallPageAlloc_enough h.inv.owned (arrives_table hp') (by decide)
    (by decide) hf (Nat.zero_le _)
  have hsame := hm.same
  refine ⟨_, use', .pageAlloc trivial (memshow_again h.viewer) hrun,
    ⟨h.inv.mapped hm (by decide) False.elim, ?_, ?_, ⟨p, hm.keeps p _ hp (by rintro ⟨⟩)⟩, fun q hq => ?_⟩,
    hm.frees_eq⟩
  · rw [hsame]
    exact h.current
  · rw [hsame]
    exact h.viewer
  · rcases hm.fresh q _ hq with hold | rfl | ⟨-, hlost⟩ | ⟨hmem, -⟩
    · exact h.none q hold
    · cases hm.leaf.symm.trans hq
    · cases hlost
    · cases hmem

/-- **One page is left** in the end.  By induction on the free pages. -/
theorem Consumes.exists_last (h : Consumes s use) (hf : frees idle s = f :: rest)
    (hreach : Reachable idle (fun _ _ => True) s) :
    ∃ t use' g, Reachable idle (fun _ _ => True) t ∧ Consumes t use' ∧ frees idle t = [g] := by
  induction rest generalizing s use f with
  | nil => exact ⟨s, use, f, hreach, h, hf⟩
  | cons g rest ih =>
      obtain ⟨t, use', hturn, ht, hfrees⟩ := h.pageAlloc hf
      exact ih ht hfrees (hreach.step hturn)

/-- In the end the process asks for an address for which there is no table. -/
theorem Consumes.stops (h : Consumes s use) (hf : frees idle s = [f]) :
    (∃ it, vmiter s.mem (s.pagetable s.current) 0x400000 = .ok it) ∧ ¬Atomic idle 0x400000 s ∧
      syscallPageAlloc idle 0x400000 s = .error .pageFault := by
  obtain ⟨p, hp⟩ := h.low
  have hva : 0x400000 < 2 ^ 30 := by decide
  obtain ⟨q, it, hit⟩ := h.inv.owned.arrives_low hp hva h.none
  have hit : Arrives s use s.current 0x400000 1 q it := by
    rw [h.current]
    exact hit
  refine ⟨⟨it, hit.vmiter_eq h.inv.owned (by decide)⟩, ?_,
    syscallPageAlloc_short h.inv.owned hit (by decide) (by decide) hf Nat.one_pos⟩
  have hlevel : it.level = 1 := by rw [hit.eq]
  rw [atomic_iff h.inv.owned hit (by decide) (by decide), hf, hlevel]
  simp

/-- **Memory runs out** in a run that starts with a process without segments: with one page left, a
call that needs a table stops the kernel. -/
theorem idle_not_atomic : ∃ s, Reachable idle (fun _ _ => True) s ∧
    (∃ it, vmiter s.mem (s.pagetable s.current) 0x400000 = .ok it) ∧ ¬Atomic idle 0x400000 s ∧
    syscallPageAlloc idle 0x400000 s = .error .pageFault := by
  obtain ⟨s, use, f, rest, p, hbooted, hinv, hcurrent, hviewer, hf, hrest, hp, hnone⟩ := exists_idle
  have hshow := memshow_first hviewer hf
  obtain ⟨use₁, hinv₁, -, -, -, hkeeps, hfresh⟩ := hinv.memshow hshow
  have hbounds := free_bounds (mem_frees.mp (hf ▸ List.mem_cons_self))
  have hconsumes : Consumes { s.allocated f with viewer := f * PAGESIZE } use₁ := by
    refine ⟨⟨hinv₁.owned, hinv₁.roots, hinv₁.viewer, hinv₁.low, hinv₁.counted, False.elim⟩, hcurrent, ?_,
      ⟨p, hkeeps p _ hp⟩, fun q hq => hnone q (hfresh q _ (by rintro ⟨⟩) hq)⟩
    simp only [PAGESIZE]
    omega
  obtain ⟨g, rest, rfl⟩ := List.exists_cons_of_length_pos (Nat.lt_of_lt_of_le Nat.two_pos hrest)
  obtain ⟨t, use', last, hreach, hlast, hfrees⟩ := hconsumes.exists_last (frees_allocated hf)
    (.step (.init ⟨_, hbooted⟩) (.getpid hshow))
  exact ⟨t, hreach, hlast.stops hfrees⟩

end Consumes

end Kernel
