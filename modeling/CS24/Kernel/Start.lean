import CS24.Kernel.Runs

/-!
# The start of the kernel

`kernel_start` sets up its processes one after the other.  What each of them finds of free pages
depends on the images of those before it only, so whether all of them are loaded to their own
pages can be said of the images.
-/

namespace Kernel

open Bytes System

/-- Each image has enough of the free pages that are left, and its segments are written to their
own pages. -/
def Places : (free : List Nat) → List ProgramImage → Prop
  | _, [] => True
  | free, pgm :: rest =>
    pgm.pageNumbers.length + 6 ≤ free.length ∧
      (∀ seg ∈ pgm.segments, seg.InRange ∧ seg.Fits (deal free pgm.pageNumbers)) ∧
      Places ((deal free pgm.pageNumbers).page STACK_PAGE).frees rest

/-- A state in which `kernel_start` runs the first process. -/
def Booted (b : Build) (command : Option String) (s : State) : Prop :=
  ∃ mem, kernelStart b command mem = .ok s

/-- The images that `kernel_start` loads. -/
def images (b : Build) (command : Option String) : List ProgramImage :=
  (initialProcesses b command).map Prod.snd

/-- The free pages at first. -/
def bootFrees (b : Build) : List Nat := frees b (bootState fun _ => 0)

section Setup

variable {b : Build} {strict : Prop} {s : State} {use : Uses} {pid : Nat} {pgm : ProgramImage}

/-- **A process is set up.** -/
theorem Inv.processSetup (h : Inv b 256 strict s use) (hno : NoProcess use pid)
    (hroom : pgm.pageNumbers.length + 6 ≤ (frees b s).length)
    (hsegs : ∀ seg ∈ pgm.segments, seg.InRange ∧ seg.Fits (deal (frees b s) pgm.pageNumbers))
    (hstrict : strict → pgm.segments.Pairwise Segment.Disjoint) :
    ∃ t use', processSetup b pid pgm s = .ok t ∧ Inv b 256 strict t use' ∧
      Dealt b pid t use' ((deal (frees b s) pgm.pageNumbers).page STACK_PAGE) ∧
      (∀ pid', pid' ≠ pid → NoProcess use pid' → NoProcess use' pid') ∧
      t.procState pid = .runnable ∧ t.viewer = s.viewer := by
  have hrange : ∀ seg ∈ pgm.segments, seg.InRange := fun seg hseg => (hsegs seg hseg).1
  have hbounds := pageNumbers_range hrange
  obtain ⟨r, s₁, use₁, hsetup, hroot, hdealt, hroom₁, hextends₁, -, hnoLost₁⟩ :=
    processSetup_pages h.owned hno hbounds hroom
  obtain ⟨s₂, use₂, hfinish, hextends₂, hdealt₂, -, hnoLost₂⟩ := finishSetup_spec hdealt hroom₁
    (fun seg hseg => (hsegs seg hseg).2) fun seg hseg => (hrange seg hseg).va_lt
  have hextends := hextends₁.trans hextends₂
  have hlow : ∀ q page, use₂ q = some (.leaf pid page) → 256 ≤ page := by
    intro q page hq
    rcases hdealt₂.leaf_mem hq with hmem | rfl
    · exact (hbounds page hmem).1
    · decide
  have hother : ∀ pid', pid' ≠ pid → s₂.pagetable pid' = s.pagetable pid' := by
    intro pid' hne
    rw [hextends.same]
    exact Function.update_of_ne hne ..
  have howned : Owned b { s₂ with procState := Function.update s₂.procState pid .runnable } use₂ :=
    hdealt₂.owned.congr rfl rfl rfl rfl
  refine ⟨_, use₂, (hsetup pgm rfl).trans (hroot ▸ hfinish), ⟨howned, ?_, ?_, ?_, ?_, ?_⟩,
    ⟨howned, hdealt₂.frees_eq, hdealt₂.first, hdealt₂.low, hdealt₂.high, hdealt₂.frames, hdealt₂.kernel⟩,
    ?_, Function.update_self .., ?_⟩
  · intro pid'
    by_cases hpid : pid' = pid
    · subst hpid
      obtain ⟨p, hp⟩ := hdealt₂.low
      exact .inl (howned.hasRoot hp)
    · refine (h.roots pid').imp (fun hold => hold.keep (hother pid' hpid) fun q hq =>
        hextends.keeps q _ hq (by rintro _ ⟨⟩)) fun hnone => ⟨(hother pid' hpid).trans hnone.1, ?_⟩
      dsimp only
      rw [Function.update_of_ne hpid, hextends.same]
      exact hnone.2
  · rcases h.viewer with hzero | ⟨p, hp, huse⟩
    · exact .inl (by rw [hextends.same]; exact hzero)
    · exact .inr ⟨p, by rw [hextends.same]; exact hp, hextends.keeps p _ huse (by rintro _ ⟨⟩)⟩
  · intro q pid' page hq
    rcases hextends.fresh q _ hq with hold | hof | hlost
    · exact h.low q pid' page hold
    · obtain rfl : pid' = pid := hof
      exact hlow q page hq
    · cases hlost
  · intro p hp hnone
    have hsame : s₂.refcount p = s.refcount p := hextends.refcount p hnone
    exact h.counted p (fun hzero => hp (hsame.trans hzero)) (hextends.none_of_none hnone)
  · intro hs
    exact hnoLost₂ (lookup_stack hrange) (hnoLost₁ (pageNumbers_nodup (hstrict hs)) (h.noLost hs))
  · intro pid' hne hold q u hq hof
    rcases hextends.fresh q u hq with hq' | hof' | rfl
    · exact hold q u hq' hof
    · cases u with
      | table pid'' level region => exact hne (hof.symm.trans hof')
      | leaf pid'' page => exact hne (hof.symm.trans hof')
      | viewer => exact hof
      | lost => exact hof
    · exact hof
  · rw [hextends.same]
    rfl

/-- **All processes are set up.** By induction on the list of processes. -/
theorem Inv.processSetups {processes : List (Nat × ProgramImage)} (h : Inv b 256 strict s use)
    (hpids : (processes.map Prod.fst).Nodup) (hno : ∀ x ∈ processes, NoProcess use x.1)
    (hplaces : Places (frees b s) (processes.map Prod.snd))
    (hstrict : strict → ∀ x ∈ processes, x.2.segments.Pairwise Segment.Disjoint) :
    ∃ t use', processes.foldlM (fun s x => Kernel.processSetup b x.1 x.2 s) s = .ok t ∧
      Inv b 256 strict t use' := by
  induction processes generalizing s use with
  | nil => exact ⟨s, use, rfl, h⟩
  | cons x processes ih =>
      obtain ⟨hroom, hsegs, hplaces⟩ := hplaces
      rw [List.map_cons, List.nodup_cons] at hpids
      obtain ⟨s₁, use₁, hrun, hinv, hdealt, hothers, -⟩ := h.processSetup
        (hno x List.mem_cons_self) hroom hsegs fun hs => hstrict hs x List.mem_cons_self
      obtain ⟨t, use', hrun', hinv'⟩ := ih hinv hpids.2
        (fun y hy => hothers y.1 (fun heq => hpids.1 (heq ▸ List.mem_map_of_mem hy))
          (hno y (List.mem_cons_of_mem _ hy)))
        (by rw [hdealt.frees_eq]; exact hplaces) fun hs y hy => hstrict hs y (List.mem_cons_of_mem _ hy)
      exact ⟨t, use', by rw [List.foldlM_cons, hrun]; exact hrun', hinv'⟩

/-- At first no page has a use. -/
theorem inv_boot (b : Build) (strict : Prop) (mem : Mem) :
    Inv b 256 strict (bootState mem) fun _ => none where
  owned := Owned.nothing
  roots := fun _ => .inr ⟨rfl, by rintro ⟨⟩⟩
  viewer := .inl rfl
  low := fun _ _ _ h => nomatch h
  counted := fun _ h => absurd rfl h
  noLost := fun _ _ h => nomatch h

theorem initialProcesses_nodup (b : Build) (command : Option String) :
    ((initialProcesses b command).map Prod.fst).Nodup := by
  have hallocators : ((initialProcesses.allocators b).map Prod.fst).Nodup := by
    simp [initialProcesses.allocators]
  cases command with
  | none => exact hallocators
  | some name =>
      rw [initialProcesses]
      split_ifs
      · exact hallocators
      · exact List.nodup_singleton _

/-- **The start.** If the images are placed, the first process runs in a state with a record. -/
theorem Booted.inv {command : Option String} (h : Booted b command s)
    (hplaces : Places (bootFrees b) (images b command))
    (hstrict : strict → ∀ pgm ∈ images b command, pgm.segments.Pairwise Segment.Disjoint) :
    ∃ use, Inv b 256 strict s use ∧ HasRoot s use s.current := by
  obtain ⟨mem, hstart⟩ := h
  have hfrees : frees b (bootState mem) = bootFrees b := frees_congr rfl
  obtain ⟨t, use, hrun, hinv⟩ := (inv_boot b strict mem).processSetups (initialProcesses_nodup b command)
    (fun _ _ _ _ h => nomatch h) (by rw [hfrees]; exact hplaces)
    fun hs x hx => hstrict hs x.2 (List.mem_map_of_mem hx)
  have hstart : ((initialProcesses b command).foldlM (fun s x => Kernel.processSetup b x.1 x.2 s)
      (bootState mem) >>= run b 1) = .ok s := hstart
  rw [hrun, ok_bind] at hstart
  unfold Kernel.run at hstart
  split_ifs at hstart with hrunnable
  rw [not_not] at hrunnable
  obtain ⟨-, -, hstart⟩ := Checked.bind_eq_ok hstart
  cases hstart
  exact ⟨use, ⟨hinv.owned.congr rfl rfl rfl rfl, hinv.roots, hinv.viewer, hinv.low, hinv.counted,
    hinv.noLost⟩, (hinv.roots 1).resolve_right fun hnone => hnone.2 hrunnable⟩

/-- **Runs.** In every state there is a record. -/
theorem reach_inv {command : Option String} {ok : State → Nat → Prop} {low : Nat} (hle : low ≤ 256)
    (hplaces : Places (bootFrees b) (images b command))
    (hstrict : strict → ∀ pgm ∈ images b command, pgm.segments.Pairwise Segment.Disjoint)
    (hlow : ∀ s addr, ok s addr → low ≤ virtualPage addr)
    (hnew : strict → ∀ s addr, ok s addr → ∀ page, ¬MapsTo s s.current addr page)
    (hreach : Reach (Booted b command) (Turn b ok) s) :
    ∃ use, Inv b low strict s use ∧ HasRoot s use s.current := by
  refine hreach.invariant (I := fun s => ∃ use, Inv b low strict s use ∧ HasRoot s use s.current) ?_ ?_
  · intro s hs
    obtain ⟨use, hinv, hroot⟩ := hs.inv hplaces hstrict
    exact ⟨use, ⟨hinv.owned, hinv.roots, hinv.viewer,
      fun q pid page hq => hle.trans (hinv.low q pid page hq), hinv.counted, hinv.noLost⟩, hroot⟩
  · rintro s t ⟨use, hinv, hroot⟩ hturn
    exact hinv.turn hroot (hlow s) (fun hs => hnew hs s) hturn

end Setup

end Kernel
