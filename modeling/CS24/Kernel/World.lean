import CS24.Kernel.Isolation
import CS24.Lib.Simulation

/-!
# Processes with memories of their own

What the kernel is for: each process has a memory that no other one can see or change.  A `World`
says this of the machine without pages and tables.  Its processes write to their own memories,
get pages of zeros, and take turns.  The state of the kernel is seen as such a world through what
each process can access, and every turn of the kernel is the step of the world that its name says.

The console is shared by all processes, and is left out.
-/

namespace Kernel

open Bytes System Relation

/-- The machine as processes see it: each has a memory of its own. -/
@[ext]
structure World where
  memory : Nat → UInt64 → Option UInt8
  status : Nat → ProcState
  current : Nat

/-- What a turn is: a system call with its argument and result, a choice of the process that runs,
or what the process that runs does by itself. -/
inductive Act
  | pageAlloc (addr : Nat) (r : Int)
  | getpid
  | schedule (pid : Nat)
  | fault (pid : Nat)
  | user

/-- What happens in the world. -/
inductive World.Step : Act → World → World → Prop
  /-- The process that runs gets a page of zeros. -/
  | alloc {w : World} {addr : Nat} : ValidAddress addr →
      Step (.pageAlloc addr 0) w { w with
        memory := Function.update w.memory w.current fun va =>
          if va.toNat / PAGESIZE = addr / PAGESIZE then some 0 else w.memory w.current va }
  /-- There is none. -/
  | noPage {w : World} {addr : Nat} : Step (.pageAlloc addr (-1)) w w
  | getpid {w : World} : Step .getpid w w
  /-- A process that can run does. -/
  | switch {w : World} {pid : Nat} : w.status pid = .runnable →
      Step (.schedule pid) w { w with current := pid }
  /-- The process that runs breaks, and another one runs. -/
  | fault {w : World} {pid : Nat} : pid ≠ w.current → w.status pid = .runnable →
      Step (.fault pid) w { w with
        status := Function.update w.status w.current .broken
        current := pid }
  /-- The process that runs writes to its memory. -/
  | write {w : World} {memory : UInt64 → Option UInt8} :
      (∀ va, (memory va).isSome = (w.memory w.current va).isSome) →
      Step .user w { w with memory := Function.update w.memory w.current memory }

/-- A step, whatever is done. -/
def World.Next (w w' : World) : Prop := ∃ act, World.Step act w w'

/-- The turns of the kernel, by what they are. -/
inductive Performs (b : Build) (ok : State → Nat → Prop) : Act → State → State → Prop
  | pageAlloc {s t u : State} {marks : Mem} {addr : Nat} {r : Int} : ok s addr →
      memshow b marks s = .ok t → syscallPageAlloc b addr t = .ok (r, u) →
      Performs b ok (.pageAlloc addr r) s u
  | getpid {s t : State} {marks : Mem} : memshow b marks s = .ok t → Performs b ok .getpid s t
  | schedule {s t u : State} {marks : Mem} {pid : Nat} : memshow b marks s = .ok t →
      run b pid t = .ok u → Performs b ok (.schedule pid) s u
  | fault {s t u : State} {marks : Mem} {pid : Nat} : memshow b marks s = .ok t →
      run b pid { t with procState := Function.update t.procState t.current .broken } = .ok u →
      Performs b ok (.fault pid) s u
  | user {s : State} {mem : Mem} :
      (∀ a, mem a ≠ s.mem a → ∃ va, UserMaps s s.current va (a / PAGESIZE)) →
      Performs b ok .user s { s with mem := mem }

/-- Each turn is one of these. -/
theorem turn_iff {b : Build} {ok : State → Nat → Prop} {s u : State} :
    Turn b ok s u ↔ ∃ act, Performs b ok act s u := by
  constructor
  · intro h
    cases h with
    | pageAlloc hok hshow hcall => exact ⟨_, .pageAlloc hok hshow hcall⟩
    | getpid hshow => exact ⟨_, .getpid hshow⟩
    | schedule hshow hnext => exact ⟨_, .schedule hshow hnext⟩
    | fault hshow hnext => exact ⟨_, .fault hshow hnext⟩
    | user hmem => exact ⟨_, .user hmem⟩
  · rintro ⟨act, h⟩
    cases h with
    | pageAlloc hok hshow hcall => exact .pageAlloc hok hshow hcall
    | getpid hshow => exact .getpid hshow
    | schedule hshow hnext => exact .schedule hshow hnext
    | fault hshow hnext => exact .fault hshow hnext
    | user hmem => exact .user hmem

theorem turn_eq (b : Build) (ok : State → Nat → Prop) :
    Turn b ok = fun s u => ∃ act, Performs b ok act s u :=
  funext₂ fun _ _ => propext turn_iff

/-- The byte that a process has at an address, if it can access it from user mode and it is not on
the console. -/
def userByte (s : State) (pid va : Nat) : Option UInt8 :=
  match vmiter s.mem (s.pagetable pid) va with
  | .ok it =>
    if it.user s.mem ∧ it.pa s.mem / PAGESIZE ≠ CONSOLE_PAGE then some (s.mem (it.pa s.mem)) else none
  | .error _ => none

/-- The world that a state of the kernel is. -/
def State.world (s : State) : World where
  memory pid va := userByte s pid va.toNat
  status := s.procState
  current := s.current

/-! ## The bytes of a process -/

section Bytes

variable {b : Build} {low : Nat} {strict : Prop} {s t : State} {use use' : Uses} {pid va q : Nat}
  {x : UInt8}

/-- The page of the console is never allocated. -/
theorem Owned.ne_console (h : Owned b s use) (hq : use q ≠ none) : q ≠ CONSOLE_PAGE := by
  rintro rfl
  obtain ⟨hreserved, -⟩ := h.allocatable _ hq
  exact hreserved (.inr ⟨by decide, by decide⟩)

theorem UserMaps.canonical (h : UserMaps s pid va q) : vaIsCanonical va := by
  obtain ⟨it, hit, huser, -⟩ := h
  by_contra hnot
  rw [vmiter, if_neg hnot] at hit
  cases hit
  simp [Vmiter.user, Vmiter.permissions, Vmiter.entry] at huser

/-- The bytes in the pages of a process. -/
theorem Owned.userByte_leaf (h : Owned b s use) (hva : vaIsCanonical va)
    (hq : use q = some (.leaf pid (virtualPage va))) :
    userByte s pid va = some (s.mem (q * PAGESIZE + va % PAGESIZE)) := by
  obtain ⟨it, hit, huser, hpage⟩ := h.userMaps_of_leaf hva hq
  have hpa : it.pa s.mem = q * PAGESIZE + va % PAGESIZE := by
    have htranslate := h.translate hva hq
    rw [memoryVirtualToPhysical, hit] at htranslate
    exact Except.ok.inj htranslate
  have hconsole := h.ne_console (Owned.use_ne_none hq)
  rw [userByte, hit]
  dsimp only
  rw [if_pos ⟨huser, by rwa [hpage]⟩, hpa]

/-- They are all that it can access. -/
theorem Owned.userByte_eq_some (h : Owned b s use) (hroot : HasRoot s use pid) :
    userByte s pid va = some x ↔ vaIsCanonical va ∧
      ∃ q, use q = some (.leaf pid (virtualPage va)) ∧ s.mem (q * PAGESIZE + va % PAGESIZE) = x := by
  constructor
  · intro hbyte
    unfold userByte at hbyte
    split at hbyte
    case h_2 => cases hbyte
    case h_1 it hit =>
      split_ifs at hbyte with huser
      have hmaps : UserMaps s pid va (it.pa s.mem / PAGESIZE) := ⟨it, hit, huser.1, rfl⟩
      have hleaf := (h.userMaps_cases hroot hmaps).resolve_right fun hconsole => huser.2 hconsole.1
      refine ⟨hmaps.canonical, _, hleaf, ?_⟩
      have htranslate := h.translate hmaps.canonical hleaf
      rw [memoryVirtualToPhysical, hit] at htranslate
      rw [← Except.ok.inj htranslate]
      exact Option.some.inj hbyte
  · rintro ⟨hva, q, hq, rfl⟩
    exact h.userByte_leaf hva hq

/-- Without a table a process has nothing. -/
theorem userByte_of_null (hnull : s.pagetable pid = 0) : userByte s pid va = none := by
  unfold userByte
  split
  case h_2 => rfl
  case h_1 it hit =>
    refine if_neg fun huser => ?_
    have hmaps : UserMaps s pid va (it.pa s.mem / PAGESIZE) := ⟨it, hit, huser.1, rfl⟩
    exact not_mapsTo_of_null hnull hmaps.mapsTo

theorem Inv.userByte_eq_some (h : Inv b low strict s use) :
    userByte s pid va = some x ↔ vaIsCanonical va ∧
      ∃ q, use q = some (.leaf pid (virtualPage va)) ∧ s.mem (q * PAGESIZE + va % PAGESIZE) = x := by
  rcases h.roots pid with hroot | ⟨hnull, -⟩
  · exact h.owned.userByte_eq_some hroot
  · refine iff_of_false (by rw [userByte_of_null hnull]; rintro ⟨⟩) ?_
    rintro ⟨hva, q, hq, -⟩
    exact not_mapsTo_of_null hnull (h.owned.mapsTo_of_leaf hva hq)

/-- Pages that stay with a process, with what is in them. -/
theorem Owned.userByte_congr (h : Owned b s use) (h' : Owned b t use') (hroot : HasRoot s use pid)
    (hroot' : HasRoot t use' pid)
    (hleaf : ∀ q, use' q = some (.leaf pid (virtualPage va)) ↔ use q = some (.leaf pid (virtualPage va)))
    (hmem : ∀ q, use q = some (.leaf pid (virtualPage va)) →
      t.mem (q * PAGESIZE + va % PAGESIZE) = s.mem (q * PAGESIZE + va % PAGESIZE)) :
    userByte t pid va = userByte s pid va := by
  refine Option.ext fun x => ?_
  rw [h.userByte_eq_some hroot, h'.userByte_eq_some hroot']
  refine and_congr_right fun _ => exists_congr fun q => ?_
  rw [hleaf]
  exact and_congr_right fun hq => by rw [hmem q hq]

theorem Inv.userByte_congr (h : Inv b low strict s use) (h' : Inv b low strict t use')
    (hleaf : ∀ q, use' q = some (.leaf pid (virtualPage va)) ↔ use q = some (.leaf pid (virtualPage va)))
    (hmem : ∀ q, use q = some (.leaf pid (virtualPage va)) →
      t.mem (q * PAGESIZE + va % PAGESIZE) = s.mem (q * PAGESIZE + va % PAGESIZE)) :
    userByte t pid va = userByte s pid va := by
  refine Option.ext fun x => ?_
  rw [h.userByte_eq_some, h'.userByte_eq_some]
  refine and_congr_right fun _ => exists_congr fun q => ?_
  rw [hleaf]
  exact and_congr_right fun hq => by rw [hmem q hq]

theorem page_byte_div (q va : Nat) : (q * PAGESIZE + va % PAGESIZE) / PAGESIZE = q := by
  simp only [PAGESIZE]
  omega

end Bytes

/-! ## Turns -/

section Turns

variable {b : Build} {low : Nat} {strict : Prop} {s t u : State} {use use' : Uses} {pid addr : Nat}
  {marks : Mem}

/-- The memory viewer does not touch the pages that others use. -/
theorem Inv.memshow_mem (h : Inv b low strict s use) (hrun : Kernel.memshow b marks s = .ok t)
    {a : Nat} {v : Use} (hv : v ≠ .viewer) (hused : use (a / PAGESIZE) = some v) : t.mem a = s.mem a := by
  have houtside : ∀ p, a / PAGESIZE ≠ p → ¬(p * PAGESIZE ≤ a ∧ a < p * PAGESIZE + PAGESIZE) := by
    intro p hp
    simp only [PAGESIZE] at hp ⊢
    omega
  unfold Kernel.memshow at hrun
  by_cases hzero : s.viewer = 0
  · rw [if_pos hzero] at hrun
    cases hf : frees b s with
    | nil =>
        rw [kalloc_nil hf] at hrun
        cases hrun
    | cons p rest =>
        have hbounds := free_bounds (mem_frees.mp (hf ▸ List.mem_cons_self))
        have hne : p * PAGESIZE ≠ 0 := by
          simp only [PAGESIZE]
          omega
        have hap : a / PAGESIZE ≠ p := by
          rintro rfl
          cases hused.symm.trans (h.owned.unused hf)
        rw [kalloc_cons hf] at hrun
        simp only [hne, if_false] at hrun
        obtain rfl := Except.ok.inj hrun
        exact (if_neg (houtside p hap)).trans (fill_page_other hap)
  · obtain ⟨p, hp, huse⟩ := h.viewer.resolve_left hzero
    rw [if_neg hzero] at hrun
    obtain rfl := Except.ok.inj hrun
    refine if_neg ?_
    rw [hp]
    refine houtside p ?_
    rintro rfl
    exact hv (Option.some.inj (hused.symm.trans huse))

/-- **The memory viewer** is not seen by processes. -/
theorem Inv.memshow_world (h : Inv b low strict s use) (hrun : Kernel.memshow b marks s = .ok t)
    (h' : Inv b low strict t use') (hprocState : t.procState = s.procState)
    (hcurrent : t.current = s.current) (hkeeps : ∀ q u, use q = some u → use' q = some u)
    (hfresh : ∀ q u, u ≠ .viewer → use' q = some u → use q = some u) : t.world = s.world := by
  have hmemory : t.world.memory = s.world.memory := by
    funext pid va
    refine h.userByte_congr h' (fun q => ⟨hfresh q _ (by rintro ⟨⟩), hkeeps q _⟩) fun q hq => ?_
    rw [← page_byte_div q va.toNat] at hq
    exact h.memshow_mem hrun Use.noConfusion hq
  rw [State.world, State.world, hprocState, hcurrent]
  exact congrArg (World.mk · s.procState s.current) hmemory

/-- Below 2^64 the addresses with the same virtual page are those of one page. -/
theorem virtualPage_eq_iff {va : Nat} (hva : vaIsCanonical va) (hlt : va < 2 ^ 64)
    (haddr : ValidAddress addr) : virtualPage va = virtualPage addr ↔ va / PAGESIZE = addr / PAGESIZE := by
  obtain ⟨halign, hlow, hhigh⟩ := haddr
  simp only [virtualPage, vaIsCanonical, VA_LOWMAX, VA_HIGHMIN, PROC_START_ADDR, MEMSIZE_VIRTUAL,
    PAGESIZE] at *
  omega

/-- A page with an address that is allowed is canonical. -/
theorem ValidAddress.canonical_page (haddr : ValidAddress addr) {va : Nat}
    (hpage : va / PAGESIZE = addr / PAGESIZE) : vaIsCanonical va := by
  obtain ⟨halign, hlow, hhigh⟩ := haddr
  refine canonical_of_lt ?_
  simp only [MEMSIZE_VIRTUAL, PAGESIZE] at *
  omega

/-- What processes read after a page was mapped and cleared. -/
theorem Inv.mapped_byte {page level f : Nat} {rest : List Nat} (h : Inv b low strict s use)
    (hf : use f = none) (hm : Mapped b pid page level f rest s use t use') {mem : Mem}
    (hmem : mem = fill t.mem (f * PAGESIZE) 0 PAGESIZE)
    (hinv : Inv b low strict { t with mem := mem } use') {pid' va : Nat} (hva : vaIsCanonical va) :
    userByte { t with mem := mem } pid' va =
      if pid' = pid ∧ virtualPage va = page then some 0 else userByte s pid' va := by
  subst hmem
  split_ifs with hnew
  · obtain ⟨rfl, rfl⟩ := hnew
    rw [hinv.owned.userByte_leaf hva hm.leaf]
    exact congrArg some (fill_page_inside (page_byte_div _ _))
  · have hother : Use.leaf pid' (virtualPage va) ≠ .leaf pid page := fun heq => hnew (Use.leaf.inj heq)
    refine h.userByte_congr hinv (fun q => ⟨fun hq => ?_, fun hq => hm.keeps q _ hq hother⟩) fun q hq => ?_
    · rcases hm.fresh q _ hq with hold | rfl | ⟨-, hlost⟩ | ⟨-, l, htable⟩
      · exact hold
      · exact absurd (Option.some.inj (hq.symm.trans hm.leaf)) hother
      · cases hlost
      · cases htable
    · have hqf : (q * PAGESIZE + va % PAGESIZE) / PAGESIZE ≠ f := by
        rw [page_byte_div]
        rintro rfl
        cases hq.symm.trans hf
      refine (fill_page_other hqf).trans (hm.mem _ hqf fun l region htable => ?_)
      rw [page_byte_div] at htable
      cases htable.symm.trans (hm.keeps q _ hq hother)

theorem Inv.userByte_not_canonical (h : Inv b low strict s use) {va : Nat} (hva : ¬vaIsCanonical va) :
    userByte s pid va = none :=
  Option.eq_none_iff_forall_ne_some.mpr fun _ hx => hva (h.userByte_eq_some.mp hx).1

/-- **A page that is allocated** is one of zeros for the process that runs, and nothing else
changes. -/
theorem Inv.pageAlloc_world {r : Int} (h : Inv b low strict s use) (hroot : HasRoot s use s.current)
    (haddr : ValidAddress addr) (hlow : low ≤ virtualPage addr) (hstrict : ¬strict)
    (hrun : syscallPageAlloc b addr s = .ok (r, u)) :
    World.Step (.pageAlloc addr r) s.world u.world := by
  rcases syscallPageAlloc_spec h.owned hroot hrun with ⟨rfl, rfl⟩ | hmapped
  · exact .noPage
  obtain ⟨rfl, -, -, f, rest, level, s', use', hf, hm, rfl⟩ := hmapped
  have hinv := h.mapped hm hlow fun hs => absurd hs hstrict
  have hsame := hm.same
  have hprocState : s'.procState = s.procState := by rw [hsame]
  have hcurrent : s'.current = s.current := by rw [hsame]
  let given : UInt64 → Option UInt8 := fun va =>
    if va.toNat / PAGESIZE = addr / PAGESIZE then some 0 else userByte s s.current va.toNat
  have hworld : State.world { s' with mem := fill s'.mem (f * PAGESIZE) 0 PAGESIZE } =
      { s.world with memory := Function.update s.world.memory s.current given } := by
    refine World.ext ?_ hprocState hcurrent
    funext pid va
    have hbyte : userByte { s' with mem := fill s'.mem (f * PAGESIZE) 0 PAGESIZE } pid va.toNat =
        if pid = s.current ∧ va.toNat / PAGESIZE = addr / PAGESIZE then some 0
        else userByte s pid va.toNat := by
      by_cases hva : vaIsCanonical va.toNat
      · rw [h.mapped_byte (h.owned.unused hf) hm rfl hinv hva]
        simp only [virtualPage_eq_iff hva va.toNat_lt haddr]
      · rw [hinv.userByte_not_canonical hva, h.userByte_not_canonical hva, if_neg]
        exact fun hnew => hva (haddr.canonical_page hnew.2)
    refine hbyte.trans ?_
    dsimp only
    rw [Function.update_apply]
    by_cases hpid : pid = s.current
    · subst hpid
      simp only [true_and, if_true, given]
    · simp only [hpid, false_and, if_false, State.world]
  rw [hworld]
  exact .alloc haddr

/-- What a process writes. -/
theorem Inv.user_world (h : Inv b low strict s use) (hroot : HasRoot s use s.current) {mem : Mem}
    (hmem : ∀ a, mem a ≠ s.mem a → ∃ va, UserMaps s s.current va (a / PAGESIZE)) :
    World.Step .user s.world (State.world { s with mem := mem }) := by
  have hinv := h.user hroot hmem
  let written : UInt64 → Option UInt8 := fun va => userByte { s with mem := mem } s.current va.toNat
  have hworld : State.world { s with mem := mem } =
      { s.world with memory := Function.update s.world.memory s.current written } := by
    refine World.ext ?_ rfl rfl
    funext pid va
    dsimp only
    rw [Function.update_apply]
    split_ifs with hpid
    · rw [hpid]
      rfl
    · -- the pages of other processes are not written to
      refine h.userByte_congr hinv (fun _ => Iff.rfl) fun q hq => ?_
      by_contra hne
      obtain ⟨va', hmaps⟩ := hmem _ hne
      rw [page_byte_div] at hmaps
      have hleaf := (h.userMaps_cases hmaps).resolve_right fun hconsole =>
        h.owned.ne_console (Owned.use_ne_none hq) hconsole.1
      exact hpid (Use.leaf.inj (Option.some.inj (hq.symm.trans hleaf))).1
  rw [hworld]
  refine .write fun va => ?_
  rw [Bool.eq_iff_iff, Option.isSome_iff_exists, Option.isSome_iff_exists]
  simp only [written, State.world, hinv.userByte_eq_some, h.userByte_eq_some]
  constructor
  · exact fun ⟨_, hva, q, hq, _⟩ => ⟨_, hva, q, hq, rfl⟩
  · exact fun ⟨_, hva, q, hq, _⟩ => ⟨_, hva, q, hq, rfl⟩

/-- The process that the kernel runs. -/
theorem run_world (hrun : run b pid s = .ok t) :
    s.procState pid = .runnable ∧ t.world = { s.world with current := pid } := by
  unfold Kernel.run at hrun
  split_ifs at hrun with hrunnable
  obtain ⟨-, -, hrun⟩ := Checked.bind_eq_ok hrun
  cases hrun
  exact ⟨not_not.mp hrunnable, rfl⟩

/-- **Each turn is the step of the world that its name says.** The memory viewer comes first, and
is not seen; behind it the call, the choice or the fault does what it does there. -/
theorem Inv.turn_world {act : Act} (h : Inv b 256 False s use) (hroot : HasRoot s use s.current)
    (hturn : Performs b (fun _ => ValidAddress) act s u) : World.Step act s.world u.world := by
  have hshown : ∀ {marks t}, Kernel.memshow b marks s = .ok t → ∃ use', Inv b 256 False t use' ∧
      HasRoot t use' t.current ∧ t.world = s.world := by
    intro marks t hshow
    obtain ⟨use', hinv, hpagetable, hprocState, hcurrent, hkeeps, hfresh⟩ := h.memshow hshow
    refine ⟨use', hinv, ?_, h.memshow_world hshow hinv hprocState hcurrent hkeeps hfresh⟩
    rw [hcurrent]
    exact hroot.keep (congrFun hpagetable s.current) fun q => hkeeps q _
  cases hturn with
  | pageAlloc haddr hshow hcall =>
      obtain ⟨use', hinv, hroot', hworld⟩ := hshown hshow
      rw [← hworld]
      exact hinv.pageAlloc_world hroot' haddr haddr.low not_false hcall
  | getpid hshow =>
      obtain ⟨-, -, -, hworld⟩ := hshown hshow
      rw [hworld]
      exact .getpid
  | schedule hshow hnext =>
      obtain ⟨-, -, -, hworld⟩ := hshown hshow
      obtain ⟨hrunnable, hnext⟩ := run_world hnext
      rw [hnext, hworld]
      exact .switch (congrFun (congrArg World.status hworld) _ ▸ hrunnable)
  | @fault _ t _ _ pid hshow hnext =>
      obtain ⟨-, -, -, hworld⟩ := hshown hshow
      obtain ⟨hrunnable, hnext⟩ := run_world hnext
      have hne : pid ≠ t.current := by
        rintro rfl
        dsimp only at hrunnable
        rw [Function.update_self] at hrunnable
        cases hrunnable
      dsimp only at hrunnable
      rw [Function.update_of_ne hne] at hrunnable
      have hfault := World.Step.fault (w := t.world) hne hrunnable
      rw [hnext, ← hworld]
      exact hfault
  | user hmem => exact h.user_world hroot hmem

end Turns

end Kernel
