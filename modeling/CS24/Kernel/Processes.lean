import CS24.Kernel.KernelChecks

/-!
# The kernel keeps processes apart

What the invariant and the world say together, for every run that starts with images whose segments
are written to their own pages.  No process can access a page of another one, and each run of the
kernel is a run of the world in which every process has a memory of its own.
-/

namespace Kernel

open Bytes System

section Calls

variable {b : Build} {command : Option String} {addr : Nat} {s : State} {pid va : Nat} {x : UInt8}

/-- A process that reads a byte can access its page. -/
theorem exists_userMaps (hbyte : userByte s pid va = some x) : ∃ page, UserMaps s pid va page := by
  unfold userByte at hbyte
  split at hbyte
  case h_2 => cases hbyte
  case h_1 it hit =>
    split_ifs at hbyte with huser
    exact ⟨_, it, hit, huser.1, rfl⟩

/-- **A call at the start.** Where five pages are left behind the start, one for the memory viewer,
three for tables and the page itself, the first process gets the page that it asks for. -/
theorem exists_pageAlloc (hplaces : Places (bootFrees b) (images b command))
    (hdisjoint : ∀ pgm ∈ images b command, pgm.segments.Pairwise Segment.Disjoint) (hb : b.Checkable)
    (hroom : 5 ≤ (leftover (bootFrees b) (images b command)).length) (haddr : ValidAddress addr) :
    ∃ s t u, Booted b command s ∧ s.world = initialWorld b command ∧ memshow b t.mem s = .ok t ∧
      syscallPageAlloc b addr t = .ok (0, u) := by
  obtain ⟨s, hstart, hworld, hleft, hviewer⟩ := kernelStart_ok hplaces hdisjoint hb fun _ => 0
  obtain ⟨use, hinv, hroot⟩ : ∃ use, Inv b 256 False s use ∧ HasRoot s use s.current :=
    Booted.inv ⟨_, hstart⟩ hplaces False.elim
  rw [← hleft] at hroom
  obtain ⟨p, free, hfree⟩ := List.exists_cons_of_length_pos (Nat.lt_of_lt_of_le (by decide) hroom)
  have hshow := memshow_first hviewer hfree
  obtain ⟨use', hinv', hpagetable, -, -, hkeeps, -⟩ := hinv.memshow hshow
  have hroot' := hroot.keep (congrFun hpagetable s.current) fun q => hkeeps q _
  have hva : vaIsCanonical addr := haddr.canonical_page rfl
  obtain ⟨level, hlevel, q, it, hit, -⟩ := hinv'.owned.vmiter_spec hroot' hva
  -- the page of the viewer is gone, and four are left
  have hrest : frees b { s.allocated p with viewer := p * PAGESIZE } = free := frees_allocated hfree
  rw [hfree, List.length_cons] at hroom
  obtain ⟨f, rest, rfl⟩ := List.exists_cons_of_length_pos (show 0 < free.length by omega)
  rw [List.length_cons] at hroom
  obtain ⟨s', -, hrun, -⟩ := syscallPageAlloc_enough hinv'.owned hit hva haddr.1 hrest (by omega)
  exact ⟨s, _, _, ⟨_, hstart⟩, hworld, hshow, hrun⟩

/-- In the world, the process that calls reads zeros there, and the others read what they did. -/
theorem pageAlloc_memory {w w' : World} (h : World.Step (.pageAlloc addr 0) w w') :
    (∀ va : UInt64, va.toNat / PAGESIZE = addr / PAGESIZE → w'.memory w.current va = some 0) ∧
      ∀ pid, pid ≠ w.current → w'.memory pid = w.memory pid := by
  generalize hr : (0 : Int) = r at h
  cases h with
  | alloc =>
      dsimp only
      rw [Function.update_self]
      exact ⟨fun va hva => if_pos hva, fun pid hne => Function.update_of_ne hne ..⟩
  | noPage => omega

end Calls

/-! ## Four processes -/

/-- A kernel whose programs all have two pages. -/
abbrev small : Build := kernelWith smallImage

/-- The segment is written to its own pages if these come one after the other. -/
theorem smallImage_fits {free : List Nat} (f : Nat)
    (hframes : (deal free smallImage.pageNumbers).frames = [(257, f + 1), (256, f)]) :
    ∀ seg ∈ smallImage.segments, seg.InRange ∧ seg.Fits (deal free smallImage.pageNumbers) := by
  intro seg hseg
  obtain rfl : seg = ⟨0x100000, 0x2000, [0xC3]⟩ := List.mem_singleton.mp hseg
  refine ⟨by simp [Segment.InRange, MEMSIZE_VIRTUAL, PAGESIZE], ⟨f, fun k hk => ?_⟩, by decide⟩
  have hk : k < 2 := hk
  rw [hframes]
  interval_cases k <;> rfl

theorem small_places : Places (bootFrees small) (images small none) :=
  show Places (bootFrees small) [smallImage, smallImage, smallImage, smallImage] from
    ⟨by decide +kernel, smallImage_fits 5 (by decide +kernel), by decide +kernel,
      smallImage_fits 13 (by decide +kernel), by decide +kernel, smallImage_fits 21 (by decide +kernel),
      by decide +kernel, smallImage_fits 29 (by decide +kernel), trivial⟩

theorem small_disjoint : ∀ pgm ∈ images small none, pgm.segments.Pairwise Segment.Disjoint := by
  intro pgm hpgm
  have himages : images small none = List.replicate 4 smallImage := rfl
  obtain rfl := List.eq_of_mem_replicate (himages ▸ hpgm)
  exact List.pairwise_singleton ..

theorem small_checkable : small.Checkable :=
  ⟨show PAGESIZE ≤ 0x40000 by decide, show 0x40000 < PROC_START_ADDR by decide,
    show PAGESIZE ≤ 0x41000 by decide, show 0x41000 < PROC_START_ADDR by decide⟩

/-- The first process asks for a page behind its image, and gets it. -/
theorem exists_small : ∃ s t u, Booted small none s ∧ s.world = initialWorld small none ∧
    memshow small t.mem s = .ok t ∧ syscallPageAlloc small 0x110000 t = .ok (0, u) :=
  exists_pageAlloc small_places small_disjoint small_checkable (by decide +kernel)
    ⟨by decide, by decide, by decide⟩

/-! ## Runs -/

section Runs

variable {b : Build} {command : Option String} {s : State}

/-- **Processes are isolated** in every run that starts with images whose segments are written to
their own pages, whatever the processes allocate and in whatever order they run. -/
theorem reach_isolated {b : Build} {command : Option String} {s : State}
    (hplaces : Places (bootFrees b) (images b command))
    (hreach : Reach (Booted b command) (Turn b fun _ => ValidAddress) s) : Isolated b s := by
  have hinv : ∃ use, Inv b 256 False s use ∧ HasRoot s use s.current :=
    reach_inv le_rfl hplaces False.elim (fun _ _ hok => hok.low) False.elim hreach
  obtain ⟨use, hinv, -⟩ := hinv
  exact hinv.isolated

/-- The first process has a page of its own, the second one its image. -/
theorem small_isolated : ∃ s t, Booted small none s ∧ Turn small (fun _ => ValidAddress) s t ∧
    (∃ page, UserMaps t 1 0x110000 page) ∧ (∃ page, UserMaps t 2 0x100000 page) ∧ Isolated small t := by
  obtain ⟨s, t, u, hbooted, hworld, hshow, hcall⟩ := exists_small
  have haddr : ValidAddress 0x110000 := ⟨by decide, by decide, by decide⟩
  have hturn : Performs small (fun _ => ValidAddress) (.pageAlloc 0x110000 0) s u :=
    .pageAlloc haddr hshow hcall
  obtain ⟨use, hinv, hroot⟩ : ∃ use, Inv small 256 False s use ∧ HasRoot s use s.current :=
    hbooted.inv small_places False.elim
  have hstep := hinv.turn_world hroot hturn
  rw [hworld] at hstep
  obtain ⟨hzeros, hothers⟩ := pageAlloc_memory hstep
  have hfirst : userByte u 1 0x110000 = some 0 := hzeros 0x110000 (by decide)
  have hsecond : userByte u 2 0x100000 = some 0xC3 :=
    (congrFun (hothers 2 (by decide)) 0x100000).trans (by decide +kernel)
  have hreach : Reach (Booted small none) (Turn small fun _ => ValidAddress) u :=
    .step (.init hbooted) (turn_iff.mpr ⟨_, hturn⟩)
  exact ⟨s, u, hbooted, turn_iff.mpr ⟨_, hturn⟩, exists_userMaps hfirst, exists_userMaps hsecond,
    reach_isolated small_places hreach⟩

/-- **The kernel keeps processes apart.** If the images are placed, the kernel starts whatever is in
memory before, and as long as processes ask for addresses that are allowed each run of it is seen by
them as a run, turn by turn, of the world in which each has a memory of its own, with its image at
first. -/
theorem kernel_refines_world (hplaces : Places (bootFrees b) (images b command))
    (hdisjoint : ∀ pgm ∈ images b command, pgm.segments.Pairwise Segment.Disjoint) (hb : b.Checkable) :
    (∀ mem, ∃ s, kernelStart b command mem = .ok s ∧ s.world = initialWorld b command) ∧
      ∀ {acts s}, Trace (Booted b command) (Performs b fun _ => ValidAddress) acts s →
        Trace (· = initialWorld b command) World.Step acts s.world := by
  refine ⟨fun mem => ?_, trace_world hplaces hdisjoint⟩
  obtain ⟨s, hstart, hworld, -⟩ := kernelStart_ok hplaces hdisjoint hb mem
  exact ⟨s, hstart, hworld⟩

theorem small_refines :
    (∃ s, kernelStart small none (fun _ => 0) = .ok s ∧ s.world = initialWorld small none) ∧
      ∃ s, Trace (Booted small none) (Performs small fun _ => ValidAddress) [.pageAlloc 0x110000 0] s ∧
        Trace (· = initialWorld small none) World.Step [.pageAlloc 0x110000 0] s.world := by
  obtain ⟨hstart, hruns⟩ := kernel_refines_world small_places small_disjoint small_checkable
  obtain ⟨s, t, u, hbooted, -, hshow, hcall⟩ := exists_small
  have htrace : Trace (Booted small none) (Performs small fun _ => ValidAddress)
      [.pageAlloc 0x110000 0] u :=
    Trace.step (.init hbooted) (.pageAlloc ⟨by decide, by decide, by decide⟩ hshow hcall)
  exact ⟨hstart _, u, htrace, hruns htrace⟩

end Runs

end Kernel
