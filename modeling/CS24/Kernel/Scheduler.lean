import CS24.Kernel.Processes
import CS24.Lib.RoundRobin

/-!
# The scheduler

`schedule` goes round the table of processes and runs the first process that can run.  What it asks
of the table of that process holds in every state of a run, so it never stops the kernel; and it
passes over a process that can run for less than one round, so no process waits forever.
-/

namespace Kernel

open Bytes System Relation

abbrev NPROC : Nat := 16

/-- The loop of `schedule`: the first process that can run behind process `pid`. -/
def nextProcess (s : State) (spins pid : Nat) : Option Nat :=
  RoundRobin.next NPROC (fun pid => s.procState pid = .runnable) spins pid

/-- `schedule`; `none` if it spins forever, as no state of a process changes while it does. -/
def schedule (b : Build) (s : State) : Except Panic (Option State) :=
  match nextProcess s NPROC s.current with
  | some pid => do
    let s ← run b pid s
    .ok (some s)
  | none => .ok none

/-- `current->state = P_BROKEN` -/
def breakCurrent (s : State) : State :=
  { s with procState := Function.update s.procState s.current .broken }

/-- What happens in an entry of the kernel and between two; the first argument says whether
`schedule` was called. -/
inductive Served (b : Build) (ok : State → Nat → Prop) : Bool → State → State → Prop
  /-- `SYSCALL_PAGE_ALLOC` -/
  | pageAlloc {s t u : State} {marks : Mem} {addr : Nat} {r : Int} : ok s addr →
      memshow b marks s = .ok t → syscallPageAlloc b addr t = .ok (r, u) → Served b ok false s u
  /-- `SYSCALL_GETPID` -/
  | getpid {s t : State} {marks : Mem} : memshow b marks s = .ok t → Served b ok false s t
  /-- `SYSCALL_YIELD` or a timer interrupt -/
  | schedule {s t u : State} {marks : Mem} : memshow b marks s = .ok t →
      schedule b t = .ok (some u) → Served b ok true s u
  /-- A page fault of the process: it is broken, so `exception` runs something else. -/
  | fault {s t u : State} {marks : Mem} : memshow b marks s = .ok t →
      schedule b (breakCurrent t) = .ok (some u) →
      Served b ok true s u
  /-- The process writes to memory that it can access. -/
  | user {s : State} {mem : Mem} :
      (∀ a, mem a ≠ s.mem a → ∃ va, UserMaps s s.current va (a / PAGESIZE)) →
      Served b ok false s { s with mem := mem }

section Schedule

variable {b : Build} {ok : State → Nat → Prop} {s t u : State} {pid spins : Nat} {called : Bool}

/-- **More spins** than there are processes find nothing else. -/
theorem nextProcess_eq_of_le (hspins : NPROC ≤ spins) :
    nextProcess s spins pid = nextProcess s NPROC pid :=
  RoundRobin.next_eq_of_le (by decide) hspins

theorem schedule_eq_some (h : schedule b s = .ok (some u)) :
    ∃ pid, nextProcess s NPROC s.current = some pid ∧ run b pid s = .ok u := by
  unfold schedule at h
  split at h
  case h_1 pid hnext =>
    obtain ⟨u', hrun, h⟩ := Checked.bind_eq_ok h
    cases h
    exact ⟨pid, hnext, hrun⟩
  case h_2 => cases h

/-- What the scheduler does is what the kernel may do. -/
theorem Served.turn (h : Served b ok called s u) : Turn b ok s u := by
  cases h with
  | pageAlloc hok hshow hcall => exact .pageAlloc hok hshow hcall
  | getpid hshow => exact .getpid hshow
  | schedule hshow hcall =>
      obtain ⟨pid, -, hrun⟩ := schedule_eq_some hcall
      exact .schedule hshow hrun
  | fault hshow hcall =>
      obtain ⟨pid, -, hrun⟩ := schedule_eq_some hcall
      exact .fault hshow hrun
  | user hmem => exact .user hmem

end Schedule

/-! ## Waiting -/

section Waiting

variable {b : Build} {ok : State → Nat → Prop} {s t u : State} {pid n : Nat} {called : Bool}
  {marks : Mem}

/-- From `s` to `t` process `pid` does not get to run, while `schedule` is called `n` times. -/
inductive Waits (b : Build) (ok : State → Nat → Prop) (pid : Nat) : Nat → State → State → Prop
  | refl {s : State} : Waits b ok pid 0 s s
  | step {n : Nat} {called : Bool} {s t u : State} : Waits b ok pid n s t → Served b ok called t u →
      u.current ≠ pid → Waits b ok pid (n + called.toNat) s u

/-- The memory viewer leaves the processes as they are. -/
theorem memshow_same (h : memshow b marks s = .ok t) :
    t.procState = s.procState ∧ t.current = s.current := by
  unfold memshow at h
  by_cases hviewer : s.viewer = 0
  · rw [if_pos hviewer] at h
    cases hf : frees b s with
    | nil =>
        rw [kalloc_nil hf] at h
        cases h
    | cons p rest =>
        have hbounds := free_bounds (mem_frees.mp (hf ▸ List.mem_cons_self))
        have hne : p * PAGESIZE ≠ 0 := by
          simp only [PAGESIZE]
          omega
        rw [kalloc_cons hf] at h
        simp only [hne, if_false] at h
        obtain rfl := Except.ok.inj h
        exact ⟨rfl, rfl⟩
  · rw [if_neg hviewer] at h
    obtain rfl := Except.ok.inj h
    exact ⟨rfl, rfl⟩

theorem kalloc_same : (kalloc b PAGESIZE s).2.procState = s.procState ∧
    (kalloc b PAGESIZE s).2.current = s.current := by
  rw [kalloc_eq]
  split <;> exact ⟨rfl, rfl⟩

/-- So do new tables.  By induction on the turns of the loop. -/
theorem addTables_same {perm turns : Nat} {it : Vmiter} {x : Option Vmiter × State}
    (h : addTables b perm turns it s = .ok x) :
    x.2.procState = s.procState ∧ x.2.current = s.current := by
  induction turns generalizing it s with
  | zero =>
      obtain rfl := Except.ok.inj h
      exact ⟨rfl, rfl⟩
  | succ turns ih =>
      rw [addTables] at h
      by_cases hmore : 0 < it.level ∧ perm ≠ 0
      · rw [if_pos hmore] at h
        cases hpep : it.pep with
        | none =>
            rw [hpep] at h
            cases h
        | some pep =>
            rw [hpep] at h
            have hkalloc := kalloc_same (b := b) (s := s)
            generalize kalloc b PAGESIZE s = page at h hkalloc
            obtain ⟨pt, s'⟩ := page
            dsimp only at h
            split_ifs at h with hpresent hnone
            · obtain rfl := Except.ok.inj h
              exact hkalloc
            · obtain ⟨s₁, hset, h⟩ := Checked.bind_eq_ok h
              obtain ⟨it', -, h⟩ := Checked.bind_eq_ok h
              obtain ⟨hprocState, hcurrent⟩ := ih h
              obtain rfl := memset_eq hset
              exact ⟨hprocState.trans hkalloc.1, hcurrent.trans hkalloc.2⟩
      · rw [if_neg hmore] at h
        obtain rfl := Except.ok.inj h
        exact ⟨rfl, rfl⟩

theorem memoryMap_same {table va pa perm : Nat} {x : Int × State}
    (h : memoryMap b table va pa perm s = .ok x) :
    x.2.procState = s.procState ∧ x.2.current = s.current := by
  obtain ⟨it, -, h⟩ := Checked.bind_eq_ok h
  unfold Vmiter.tryMap at h
  dsimp only at h
  split_ifs at h <;>
  · obtain ⟨⟨found, s₁⟩, htables, h⟩ := Checked.bind_eq_ok h
    obtain ⟨hprocState, hcurrent⟩ := addTables_same htables
    cases found with
    | none =>
        obtain rfl := Except.ok.inj h
        exact ⟨hprocState, hcurrent⟩
    | some it' =>
        dsimp only at h
        split at h <;>
        · obtain rfl := Except.ok.inj h
          exact ⟨hprocState, hcurrent⟩

/-- So does the system call. -/
theorem syscallPageAlloc_same {addr : Nat} {r : Int} (h : syscallPageAlloc b addr s = .ok (r, u)) :
    u.procState = s.procState ∧ u.current = s.current := by
  cases hf : frees b s with
  | nil =>
      rw [syscallPageAlloc_nil hf] at h
      obtain ⟨-, rfl⟩ := Prod.mk.inj (Except.ok.inj h)
      exact ⟨rfl, rfl⟩
  | cons f rest =>
      rw [syscallPageAlloc_cons hf] at h
      obtain ⟨⟨result, s₁⟩, hmap, h⟩ := Checked.bind_eq_ok h
      obtain ⟨ptr, -, h⟩ := Checked.bind_eq_ok h
      obtain ⟨s₂, hset, h⟩ := Checked.bind_eq_ok h
      obtain rfl := memset_eq hset
      obtain ⟨-, rfl⟩ := Prod.mk.inj (Except.ok.inj h)
      exact memoryMap_same hmap

/-- **A choice** leaves a process that can run as it is, and the search gets closer to it. -/
theorem schedule_closer (hpid : pid < NPROC) (hrunnable : s.procState pid = .runnable)
    (hcall : schedule b s = .ok (some u)) (hne : u.current ≠ pid) : u.procState pid = .runnable ∧
      RoundRobin.distance NPROC u.current pid < RoundRobin.distance NPROC s.current pid := by
  obtain ⟨next, hnext, hrun⟩ := schedule_eq_some hcall
  obtain ⟨-, hworld⟩ := run_world hrun
  have hstatus : u.procState = s.procState := congrArg World.status hworld
  have hcurrent : u.current = next := congrArg World.current hworld
  rw [hcurrent] at hne ⊢
  rw [hstatus]
  exact ⟨hrunnable, RoundRobin.distance_next_lt hrunnable hpid hnext hne⟩

/-- One step. -/
theorem Served.closer (h : Served b ok called s u) (hpid : pid < NPROC)
    (hrunnable : s.procState pid = .runnable) (hcurrent : s.current ≠ pid) (hne : u.current ≠ pid) :
    u.procState pid = .runnable ∧
      called.toNat + RoundRobin.distance NPROC u.current pid ≤ RoundRobin.distance NPROC s.current pid := by
  have hstays : u.procState = s.procState → u.current = s.current → called = false →
      u.procState pid = .runnable ∧
        called.toNat + RoundRobin.distance NPROC u.current pid ≤
          RoundRobin.distance NPROC s.current pid := by
    rintro hprocState hsame rfl
    rw [hprocState, hsame]
    exact ⟨hrunnable, (Nat.zero_add _).le⟩
  cases h with
  | @pageAlloc _ t _ _ addr r _ hshow hcall =>
      obtain ⟨hprocState, hsame⟩ := memshow_same hshow
      obtain ⟨hprocState', hsame'⟩ := syscallPageAlloc_same hcall
      exact hstays (hprocState'.trans hprocState) (hsame'.trans hsame) rfl
  | getpid hshow => exact hstays (memshow_same hshow).1 (memshow_same hshow).2 rfl
  | schedule hshow hcall =>
      obtain ⟨hprocState, hsame⟩ := memshow_same hshow
      rw [← hprocState] at hrunnable
      obtain ⟨hrunnable', hlt⟩ := schedule_closer hpid hrunnable hcall hne
      rw [hsame] at hlt
      exact ⟨hrunnable', (Nat.add_comm _ _).trans_le hlt⟩
  | fault hshow hcall =>
      obtain ⟨hprocState, hsame⟩ := memshow_same hshow
      rw [← hprocState] at hrunnable
      rw [← hsame] at hcurrent ⊢
      -- it is another process that breaks
      obtain ⟨hrunnable', hlt⟩ := schedule_closer hpid
        ((Function.update_of_ne hcurrent.symm ..).trans hrunnable) hcall hne
      exact ⟨hrunnable', (Nat.add_comm _ _).trans_le hlt⟩
  | user hmem => exact hstays rfl rfl rfl

/-- **No process starves.** While a process below `NPROC` that can run waits, `schedule` is called
less than `NPROC` times.  By induction on the run. -/
theorem Waits.lt_nproc (h : Waits b ok pid n s t) (hpid : pid < NPROC)
    (hrunnable : s.procState pid = .runnable)
    (hcurrent : s.current ≠ pid) : n < NPROC := by
  have hcloser : t.procState pid = .runnable ∧ t.current ≠ pid ∧
      n + RoundRobin.distance NPROC t.current pid ≤ RoundRobin.distance NPROC s.current pid := by
    induction h with
    | refl => exact ⟨hrunnable, hcurrent, (Nat.zero_add _).le⟩
    | step _ hserved hne ih =>
        obtain ⟨hrunnable', hcurrent', hle⟩ := ih hrunnable hcurrent
        obtain ⟨hrunnable'', hle'⟩ := hserved.closer hpid hrunnable' hcurrent' hne
        exact ⟨hrunnable'', hne, by omega⟩
  have hlt : RoundRobin.distance NPROC s.current pid < NPROC := RoundRobin.distance_lt (by decide)
  omega

end Waiting

/-! ## Processes that broke -/

section Broken

variable {b : Build} {command : Option String} {s t : State} {w w' : World} {pid : Nat}

/-- The process that runs can run. -/
theorem World.current_runnable (h : Reach (· = initialWorld b command) World.Next w) :
    w.status w.current = .runnable := by
  refine h.invariant (I := fun w => w.status w.current = .runnable) ?_ ?_
  · rintro w rfl
    exact if_pos (lookup_first b command)
  · rintro w w' hcurrent ⟨act, hstep⟩
    cases hstep with
    | alloc _ => exact hcurrent
    | noPage => exact hcurrent
    | getpid => exact hcurrent
    | switch hrunnable => exact hrunnable
    | fault hne hrunnable => exact (Function.update_of_ne hne ..).trans hrunnable
    | write _ => exact hcurrent

/-- A process that broke stays so, and its memory as it is. -/
theorem World.Next.broken (hstep : World.Next w w') (hcurrent : w.status w.current = .runnable)
    (hbroken : w.status pid = .broken) : w'.status pid = .broken ∧ w'.memory pid = w.memory pid := by
  have hne : pid ≠ w.current := by
    rintro rfl
    cases hcurrent.symm.trans hbroken
  obtain ⟨act, hstep⟩ := hstep
  cases hstep with
  | alloc _ => exact ⟨hbroken, Function.update_of_ne hne ..⟩
  | noPage => exact ⟨hbroken, rfl⟩
  | getpid => exact ⟨hbroken, rfl⟩
  | switch _ => exact ⟨hbroken, rfl⟩
  | fault _ _ => exact ⟨(Function.update_of_ne hne ..).trans hbroken, rfl⟩
  | write _ => exact ⟨hbroken, Function.update_of_ne hne ..⟩

/-- **Page faults are final.** A process that broke is never run again, and whatever the others do,
its memory stays as it was. -/
theorem broken_stays (hplaces : Places (bootFrees b) (images b command))
    (hdisjoint : ∀ pgm ∈ images b command, pgm.segments.Pairwise Segment.Disjoint)
    (hreach : Reach (Booted b command) (Turn b fun _ => ValidAddress) s)
    (hbroken : s.procState pid = .broken) (hrun : ReflTransGen (Turn b fun _ => ValidAddress) s t) :
    t.procState pid = .broken ∧ t.current ≠ pid ∧
      ∀ va : UInt64, userByte t pid va.toNat = userByte s pid va.toNat := by
  have hworlds : ReflTransGen World.Next s.world t.world := by
    induction hrun with
    | refl => exact .refl
    | tail hrun hturn ih =>
        obtain ⟨use, hinv, hroot⟩ : ∃ use, Inv b 256 False _ use ∧ HasRoot _ use _ :=
          reach_inv le_rfl hplaces False.elim (fun _ _ hok => hok.low) False.elim (hreach.steps hrun)
        obtain ⟨act, hturn⟩ := turn_iff.mp hturn
        exact ih.tail ⟨act, hinv.turn_world hroot hturn⟩
  have hstays : ∀ {w'}, ReflTransGen World.Next s.world w' →
      w'.status pid = .broken ∧ w'.memory pid = s.world.memory pid := by
    intro w' hsteps
    induction hsteps with
    | refl => exact ⟨hbroken, rfl⟩
    | tail hsteps hstep ih =>
        have hcurrent := World.current_runnable ((reach_world hplaces hdisjoint hreach).steps hsteps)
        obtain ⟨hbroken', hmemory⟩ := hstep.broken hcurrent ih.1
        exact ⟨hbroken', hmemory.trans ih.2⟩
  obtain ⟨hstatus, hmemory⟩ := hstays hworlds
  refine ⟨hstatus, ?_, fun va => congrFun hmemory va⟩
  rintro rfl
  have hcurrent := World.current_runnable ((reach_world hplaces hdisjoint hreach).steps hworlds)
  cases hcurrent.symm.trans hstatus

end Broken

/-! ## The scheduler does not fail -/

section Fails

variable {b : Build} {command : Option String} {ok : State → Nat → Prop} {s t : State} {marks : Mem}

/-- The states of runs in which `schedule` makes the choices. -/
abbrev ReachServed (b : Build) (command : Option String) : State → Prop :=
  Reach (Booted b command) fun s t => ∃ called, Served b (fun _ => ValidAddress) called s t

theorem ReachServed.reach (h : ReachServed b command s) :
    Reach (Booted b command) (Turn b fun _ => ValidAddress) s :=
  h.image (fun _ hs => hs) fun _ _ _ ⟨_, hserved⟩ => .single hserved.turn

/-- The process that runs is one of the table. -/
theorem ReachServed.current_lt (h : ReachServed b command s) : s.current < NPROC := by
  refine h.invariant (I := fun s => s.current < NPROC) ?_ ?_
  · rintro s ⟨mem, hstart⟩
    obtain ⟨t, -, hrun⟩ := Checked.bind_eq_ok hstart
    have hcurrent : s.current = 1 := congrArg World.current (run_world hrun).2
    rw [hcurrent]
    decide
  · rintro s u hlt ⟨called, hserved⟩
    have hchosen : ∀ {t : State}, schedule b t = .ok (some u) → u.current < NPROC := by
      intro t hcall
      obtain ⟨pid, hnext, hrun⟩ := schedule_eq_some hcall
      have hcurrent : u.current = pid := congrArg World.current (run_world hrun).2
      rw [hcurrent]
      exact RoundRobin.next_lt (by decide) hnext
    cases hserved with
    | pageAlloc _ hshow hcall =>
        rw [(syscallPageAlloc_same hcall).2, (memshow_same hshow).2]
        exact hlt
    | getpid hshow =>
        rw [(memshow_same hshow).2]
        exact hlt
    | schedule _ hcall => exact hchosen hcall
    | fault _ hcall => exact hchosen hcall
    | user _ => exact hlt

theorem breakCurrent_runnable {pid : Nat} :
    (breakCurrent t).procState pid = .runnable ↔ pid ≠ t.current ∧ t.procState pid = .runnable := by
  rw [breakCurrent]
  dsimp only
  rw [Function.update_apply]
  split_ifs with heq <;> simp [heq]

/-- What is known between the entry of the kernel and the choice. -/
theorem ReachServed.shown (hplaces : Places (bootFrees b) (images b command))
    (hdisjoint : ∀ pgm ∈ images b command, pgm.segments.Pairwise Segment.Disjoint)
    (hreach : ReachServed b command s) (hshow : memshow b marks s = .ok t) :
    t.current < NPROC ∧ t.procState t.current = .runnable ∧
      ∃ use, Inv b 256 False t use ∧ KernelMapped t := by
  have hserved : ReachServed b command t := hreach.step ⟨false, .getpid hshow⟩
  obtain ⟨use, hinv, -, hk⟩ := reach_kernelMapped hplaces hserved.reach
  exact ⟨hserved.current_lt, World.current_runnable (reach_world hplaces hdisjoint hserved.reach), use,
    hinv, hk⟩

/-- The process that yields can run itself, so the scheduler finds one. -/
theorem ReachServed.schedule_ok (hplaces : Places (bootFrees b) (images b command))
    (hdisjoint : ∀ pgm ∈ images b command, pgm.segments.Pairwise Segment.Disjoint) (hb : b.Checkable)
    (hreach : ReachServed b command s) (hshow : memshow b marks s = .ok t) :
    ∃ pid, nextProcess t NPROC t.current = some pid ∧
      schedule b t = .ok (some { t with current := pid }) := by
  obtain ⟨hlt, hrunnable, use, hinv, hk⟩ := hreach.shown hplaces hdisjoint hshow
  cases hnext : nextProcess t NPROC t.current with
  | none =>
      have hnone := (RoundRobin.next_eq_none_iff (by decide)).mp hnext
      exact absurd hrunnable (hnone t.current hlt)
  | some pid =>
      refine ⟨pid, rfl, ?_⟩
      rw [schedule, hnext]
      dsimp only
      rw [hk.run_ok hinv hb (RoundRobin.next_ready hnext)]
      rfl

/-- After a page fault it finds one if another process can run. -/
theorem ReachServed.schedule_broken (hplaces : Places (bootFrees b) (images b command))
    (hdisjoint : ∀ pgm ∈ images b command, pgm.segments.Pairwise Segment.Disjoint) (hb : b.Checkable)
    (hreach : ReachServed b command s) (hshow : memshow b marks s = .ok t) :
    schedule b (breakCurrent t) = .ok none ∧
        (∀ pid < NPROC, pid ≠ t.current → t.procState pid ≠ .runnable) ∨
      ∃ pid, pid ≠ t.current ∧ nextProcess (breakCurrent t) NPROC t.current = some pid ∧
        schedule b (breakCurrent t) = .ok (some { breakCurrent t with current := pid }) := by
  obtain ⟨-, -, use, hinv, hk⟩ := hreach.shown hplaces hdisjoint hshow
  cases hnext : nextProcess (breakCurrent t) NPROC t.current with
  | none =>
      refine .inl ⟨?_, fun pid hpid hne hrun => ?_⟩
      · rw [schedule, show (breakCurrent t).current = t.current from rfl, hnext]
      · exact (RoundRobin.next_eq_none_iff (by decide)).mp hnext pid hpid
          (breakCurrent_runnable.mpr ⟨hne, hrun⟩)
  | some pid =>
      have hready := RoundRobin.next_ready hnext
      obtain ⟨hne, hready'⟩ := breakCurrent_runnable.mp hready
      refine .inr ⟨pid, hne, rfl, ?_⟩
      have hroot := (hinv.roots pid).resolve_right fun hnone => hnone.2 hready'
      -- the check looks at the tables only
      have hcheck : checkPagetable b ((breakCurrent t).pagetable pid) (breakCurrent t) = .ok () :=
        hk.checkPagetable hinv.owned hroot hb
      rw [schedule, show (breakCurrent t).current = t.current from rfl, hnext]
      dsimp only
      rw [run, if_neg (not_not.mpr hready), hcheck]
      rfl

/-- **The scheduler does not fail.** Where `schedule` is called in a run, the check of the page table
passes and a process is run, the first one that can; only after a page fault may there be none, and
the kernel spins. -/
theorem schedule_runs (hplaces : Places (bootFrees b) (images b command))
    (hdisjoint : ∀ pgm ∈ images b command, pgm.segments.Pairwise Segment.Disjoint) (hb : b.Checkable)
    (hreach : ReachServed b command s) (hshow : memshow b marks s = .ok t) :
    (∃ pid, nextProcess t NPROC t.current = some pid ∧ schedule b t = .ok (some { t with current := pid })) ∧
      (schedule b (breakCurrent t) = .ok none ∧
          (∀ pid < NPROC, pid ≠ t.current → t.procState pid ≠ .runnable) ∨
        ∃ pid, pid ≠ t.current ∧ nextProcess (breakCurrent t) NPROC t.current = some pid ∧
          schedule b (breakCurrent t) = .ok (some { breakCurrent t with current := pid })) :=
  ⟨hreach.schedule_ok hplaces hdisjoint hb hshow, hreach.schedule_broken hplaces hdisjoint hb hshow⟩

end Fails

/-! ## Four processes -/

section Small

/-- The start, with the page of the memory viewer. -/
theorem exists_started : ∃ s t, Booted small none s ∧ memshow small t.mem s = .ok t ∧ t.current = 1 ∧
    s.current = 1 ∧ t.procState 2 = .runnable ∧ t.procState 3 = .runnable := by
  obtain ⟨s, hstart, hworld, hleft, hviewer⟩ :=
    kernelStart_ok small_places small_disjoint small_checkable fun _ => 0
  have hroom : 0 < (leftover (bootFrees small) (images small none)).length := by decide +kernel
  rw [← hleft] at hroom
  obtain ⟨f, rest, hf⟩ := List.exists_cons_of_length_pos hroom
  have hstatus : s.procState = (initialWorld small none).status := congrArg World.status hworld
  have hcurrent : s.current = 1 := congrArg World.current hworld
  have hrunnable : s.procState 2 = .runnable ∧ s.procState 3 = .runnable := by
    rw [hstatus]
    exact ⟨rfl, rfl⟩
  exact ⟨s, { s.allocated f with viewer := f * PAGESIZE }, ⟨_, hstart⟩, memshow_first hviewer hf, hcurrent,
    hcurrent, hrunnable⟩

theorem small_schedule_runs : ∃ s t, ReachServed small none s ∧ memshow small t.mem s = .ok t ∧
    ∃ pid, nextProcess t NPROC t.current = some pid ∧
      schedule small t = .ok (some { t with current := pid }) := by
  obtain ⟨s, t, hbooted, hshow, -⟩ := exists_started
  exact ⟨s, t, .init hbooted, hshow,
    (schedule_runs small_places small_disjoint small_checkable (.init hbooted) hshow).1⟩

/-- The third process waits while the second one is run. -/
theorem small_waits : ∃ s t, Waits small (fun _ => ValidAddress) 3 1 s t ∧ 1 < NPROC := by
  obtain ⟨s, t, hbooted, hshow, hcurrent, hcurrent', hsecond, hthird⟩ := exists_started
  obtain ⟨pid, hnext, hcall⟩ :=
    ReachServed.schedule_ok small_places small_disjoint small_checkable (.init hbooted) hshow
  have hpid : pid = 2 := by
    rw [hcurrent, nextProcess, RoundRobin.next, show (1 + 1) % NPROC = 2 from rfl, if_pos hsecond] at hnext
    exact (Option.some.inj hnext).symm
  have hwaits : Waits small (fun _ => ValidAddress) 3 1 s { t with current := pid } :=
    Waits.step .refl (.schedule hshow hcall) (by dsimp only; omega)
  refine ⟨s, _, hwaits, hwaits.lt_nproc (by decide) ?_ (by rw [hcurrent']; decide)⟩
  rw [← (memshow_same hshow).1]
  exact hthird

/-- The first process breaks. -/
theorem small_broken_stays : ∃ s, Reach (Booted small none) (Turn small fun _ => ValidAddress) s ∧
    s.procState 1 = .broken ∧ ∀ t, ReflTransGen (Turn small fun _ => ValidAddress) s t →
      t.procState 1 = .broken ∧ t.current ≠ 1 := by
  obtain ⟨s, t, hbooted, hshow, hcurrent, -, hsecond, -⟩ := exists_started
  obtain ⟨-, hnone⟩ | ⟨pid, -, -, hcall⟩ :=
    ReachServed.schedule_broken small_places small_disjoint small_checkable (.init hbooted) hshow
  · exact absurd hsecond (hnone 2 (by decide) (by rw [hcurrent]; decide))
  · have hreach : Reach (Booted small none) (Turn small fun _ => ValidAddress)
        { breakCurrent t with current := pid } :=
      .step (.init hbooted) (Served.fault hshow hcall).turn
    have hbroken : (breakCurrent t).procState 1 = .broken := by
      rw [breakCurrent, hcurrent]
      dsimp only
      rw [Function.update_self]
    refine ⟨_, hreach, hbroken, fun u hrun => ?_⟩
    obtain ⟨hstatus, hne, -⟩ := broken_stays small_places small_disjoint hreach hbroken hrun
    exact ⟨hstatus, hne⟩

end Small

end Kernel
