import CS24.Kernel.PageTable
import CS24.Lib.System

/-!
# The kernel

`kernel.c` and `util.c`, with the parts of `k-hardware.cc` and `k-memviewer.cc` that
allocate memory or touch page tables.  A state of the kernel is physical memory, the
reference counts of its pages and the process table; what the console shows and the
registers of processes are left out.  The kernel's own page table maps physical memory
to the same addresses, without page 0, and what it maps behind it is not memory; an
access to anything else is a page fault of the kernel.

Where the kernel image ends and what is in the program images is decided by the build.
-/

namespace Kernel

open Bytes System

abbrev NPAGES : Nat := MEMSIZE_PHYSICAL / PAGESIZE
abbrev MEMSIZE_VIRTUAL : Nat := 0x300000
abbrev KERNEL_START_ADDR : Nat := 0x40000
abbrev KERNEL_STACK_TOP : Nat := 0x80000
abbrev PROC_START_ADDR : Nat := 0x100000
abbrev IOPHYSMEM : Nat := 0xA0000
abbrev EXTPHYSMEM : Nat := 0x100000
abbrev CONSOLE_ADDR : Nat := 0xB8000

/-- A loadable segment of a program image; `data_size()` is the length of `data`. -/
structure Segment where
  va : Nat
  size : Nat
  data : List UInt8
  deriving DecidableEq, Repr

/-- A `program_image`. -/
structure ProgramImage where
  empty : Bool
  segments : List Segment
  deriving DecidableEq, Repr

/-- What the build decides: `_kernel_end`, the addresses that `check_pagetable` looks at,
and the program images by their names. -/
structure Build where
  kernelEnd : Nat
  exceptionEntry : Nat
  kernelPagetable : Nat
  programImage : String → ProgramImage

/-- The states of a process, `P_FREE` to `P_BROKEN`. -/
inductive ProcState
  | free | runnable | blocked | broken
  deriving DecidableEq, Repr

/-- A state of the kernel; `viewer` is `v_` of the memory viewer, and an address is 0
for a null pointer. -/
structure State where
  mem : Mem
  refcount : Nat → UInt8
  pagetable : Nat → Nat
  procState : Nat → ProcState
  current : Nat
  viewer : Nat

/-! ## Physical pages -/

/-- `reserved_physical_address` -/
def reservedPhysicalAddress (pa : Nat) : Prop :=
  pa < PAGESIZE ∨ IOPHYSMEM ≤ pa ∧ pa < EXTPHYSMEM

/-- `round_up((uintptr_t) _kernel_end, PAGESIZE)` -/
def roundUpPage (a : Nat) : Nat := (a + PAGESIZE - 1) / PAGESIZE * PAGESIZE

/-- `allocatable_physical_address` -/
def allocatablePhysicalAddress (b : Build) (pa : Nat) : Prop :=
  ¬ reservedPhysicalAddress pa ∧ (pa < KERNEL_START_ADDR ∨ roundUpPage b.kernelEnd ≤ pa) ∧
    (pa < KERNEL_STACK_TOP - PAGESIZE ∨ KERNEL_STACK_TOP ≤ pa) ∧ pa < MEMSIZE_PHYSICAL

instance (b : Build) (pa : Nat) : Decidable (allocatablePhysicalAddress b pa) := by
  unfold allocatablePhysicalAddress reservedPhysicalAddress; infer_instance

/-- A page that `kalloc` may take. -/
def Free (b : Build) (s : State) (page : Nat) : Prop :=
  allocatablePhysicalAddress b (page * PAGESIZE) ∧ s.refcount page = 0

instance (b : Build) (s : State) (page : Nat) : Decidable (Free b s page) := by
  unfold Free; infer_instance

/-- `kalloc`: the first free page, filled with 0xCC. -/
def kalloc (b : Build) (sz : Nat) (s : State) : Nat × State :=
  if PAGESIZE < sz then (0, s)
  else
    match (List.range NPAGES).find? fun page => Free b s page with
    | some page => (page * PAGESIZE,
        { s with
          refcount := Function.update s.refcount page (s.refcount page + 1)
          mem := fill s.mem (page * PAGESIZE) 0xCC PAGESIZE })
    | none => (0, s)

/-- `memset` in the kernel. -/
def memset (ptr : Nat) (c : UInt8) (n : Nat) (s : State) : Except Panic State :=
  if n = 0 then .ok s
  else if PAGESIZE ≤ ptr ∧ ptr + n ≤ MEMSIZE_PHYSICAL then
    .ok { s with mem := fill s.mem ptr c n }
  else .error .pageFault

/-- `memcpy` of data of the kernel. -/
def memcpy (ptr : Nat) (data : List UInt8) (s : State) : Except Panic State :=
  if data = [] then .ok s
  else if PAGESIZE ≤ ptr ∧ ptr + data.length ≤ MEMSIZE_PHYSICAL then
    .ok { s with mem := blit s.mem ptr data }
  else .error .pageFault

/-! ## Mappings -/

/-- The loop of `try_map`: tables are added until level 0; `none` for the return of -1.
The level is at most 3 and falls with every turn. -/
def addTables (b : Build) (perm : Nat) : Nat → Vmiter → State →
    Except Panic (Option Vmiter × State)
  | 0, it, s => .ok (some it, s)
  | turns + 1, it, s =>
    if 0 < it.level ∧ perm ≠ 0 then
      match it.pep with
      | none => .error .pageFault
      | some pep =>
        if it.entry s.mem &&& PTE_P ≠ 0 then .error .assertion
        else
          let (pt, s) := kalloc b PAGESIZE s
          if pt = 0 then .ok (none, s)
          else do
            let s ← memset pt 0 PAGESIZE s
            let s := { s with mem := store64 s.mem pep (pt ||| PTE_P ||| PTE_W ||| PTE_U) }
            let it ← down s.mem it.pt it.va it.level pep it.perm
            addTables b perm turns it s
    else .ok (some it, s)

/-- `vmiter::try_map` -/
def Vmiter.tryMap (b : Build) (it : Vmiter) (pa perm : Nat) (s : State) :
    Except Panic (Int × State) :=
  let pa := if pa = 2 ^ 64 - 1 ∧ perm = 0 then 0 else pa
  if it.va % PAGESIZE ≠ 0 then .error .assertion
  else if perm &&& PTE_P ≠ 0 ∧ (pa = 2 ^ 64 - 1 ∨ pa &&& PTE_PAMASK ≠ pa) then .error .assertion
  else if perm &&& PTE_P = 0 ∧ pa &&& PTE_P ≠ 0 then .error .assertion
  -- `perm & ~perm_` has none of the three permissions
  else if perm &&& it.perm &&& PTE_PWU ≠ perm &&& PTE_PWU then .error .assertion
  else do
    match ← addTables b perm 3 it s with
    | (none, s) => .ok (-1, s)
    | (some it, s) =>
      match it.level, it.pep with
      | 0, some pep => .ok (0, { s with mem := store64 s.mem pep (pa ||| perm) })
      | _, _ => .ok (0, s)

/-- `memory_map` -/
def memoryMap (b : Build) (table va pa perm : Nat) (s : State) : Except Panic (Int × State) := do
  let it ← vmiter s.mem table va
  it.tryMap b pa perm s

/-- `memory_virtual_to_physical` -/
def memoryVirtualToPhysical (table va : Nat) (s : State) : Except Panic Nat := do
  let it ← vmiter s.mem table va
  .ok (it.pa s.mem)

/-- `map_to_nobody` -/
def mapToNobody (b : Build) (table va : Nat) (s : State) : Except Panic State := do
  let (_, s) ← memoryMap b table va va 0 s
  .ok s

/-- `map_to_kernel_space` -/
def mapToKernelSpace (b : Build) (table va : Nat) (s : State) : Except Panic State := do
  let (_, s) ← memoryMap b table va va (PTE_P ||| PTE_W) s
  .ok s

/-- `map_to_user_space` -/
def mapToUserSpace (b : Build) (table va : Nat) (s : State) : Except Panic State := do
  let (_, s) ← memoryMap b table va va (PTE_P ||| PTE_W ||| PTE_U) s
  .ok s

/-- The addresses `first`, `first + PAGESIZE`, ... below `upper`. -/
def pagesBetween (first upper : Nat) : List Nat :=
  (List.range ((upper - first + PAGESIZE - 1) / PAGESIZE)).map fun k => first + k * PAGESIZE

/-- `memory_foreach`.  Of the iterator that counts the addresses only `va()` is used. -/
def memoryForeach (upper : Nat) (iter : Nat → State → Except Panic State) (s : State) :
    Except Panic State :=
  (pagesBetween 0 upper).foldlM (fun s va => iter va s) s

/-! ## Processes -/

/-- `kalloc_pagetable` -/
def kallocPagetable (b : Build) (s : State) : Except Panic (Nat × State) :=
  let (pt, s) := kalloc b PAGESIZE s
  if pt = 0 then .ok (0, s)
  else do
    let s ← memset pt 0 (8 * 512) s
    .ok (pt, s)

/-- The pages of a segment, from `round_down(seg.va(), PAGESIZE)`. -/
def Segment.pages (seg : Segment) : List Nat :=
  pagesBetween (seg.va / PAGESIZE * PAGESIZE) (seg.va + seg.size)

/-- A page of a segment or of the stack. -/
def mapPage (b : Build) (table a : Nat) (s : State) : Except Panic State := do
  let (ptr, s) := kalloc b PAGESIZE s
  let (_, s) ← memoryMap b table a ptr PTE_PWU s
  .ok s

/-- The initialization of a segment's data. -/
def initSegment (table : Nat) (s : State) (seg : Segment) : Except Panic State := do
  let ptr ← memoryVirtualToPhysical table seg.va s
  let s ← memset ptr 0 seg.size s
  memcpy ptr seg.data s

/-- The kernel mappings at the start of `process_setup`. -/
def mapKernel (b : Build) (table : Nat) (s : State) : Except Panic State := do
  let s ← memoryForeach PROC_START_ADDR (mapToKernelSpace b table) s
  let s ← mapToNobody b table 0 s
  mapToUserSpace b table CONSOLE_ADDR s

/-- `process_setup`; the registers it sets are left out. -/
def processSetup (b : Build) (pid : Nat) (pgm : ProgramImage) (s : State) :
    Except Panic State := do
  let (table, s) ← kallocPagetable b s
  let s := { s with pagetable := Function.update s.pagetable pid table }
  let s ← mapKernel b table s
  let s ← (pgm.segments.flatMap Segment.pages).foldlM (fun s a => mapPage b table a s) s
  let s ← pgm.segments.foldlM (initSegment table) s
  let s ← mapPage b table (MEMSIZE_VIRTUAL - PAGESIZE) s
  .ok { s with procState := Function.update s.procState pid .runnable }

/-- `check_pagetable`, the part about the table of the process. -/
def checkPagetable (b : Build) (table : Nat) (s : State) : Except Panic Unit := do
  if table % PAGESIZE ≠ 0 then .error .assertion
  let entry ← memoryVirtualToPhysical table b.exceptionEntry s
  if entry ≠ b.exceptionEntry then .error .assertion
  let kernel ← memoryVirtualToPhysical table b.kernelPagetable s
  if kernel ≠ b.kernelPagetable then .error .assertion

/-- `run` -/
def run (b : Build) (pid : Nat) (s : State) : Except Panic State :=
  if s.procState pid ≠ .runnable then .error .assertion
  else do
    checkPagetable b (s.pagetable pid) s
    .ok { s with current := pid }

/-- The processes that `kernel_start` sets up. -/
def initialProcesses (b : Build) (command : Option String) : List (Nat × ProgramImage) :=
  match command with
  | some name =>
    if (b.programImage name).empty then allocators else [(1, b.programImage name)]
  | none => allocators
where
  allocators : List (Nat × ProgramImage) :=
    [(1, b.programImage "allocator"), (2, b.programImage "allocator2"),
      (3, b.programImage "allocator3"), (4, b.programImage "allocator4")]

/-- `kernel_start`, from what `init_hardware` leaves in memory: no page is in use. -/
def kernelStart (b : Build) (command : Option String) (mem : Mem) : Except Panic State := do
  let s : State := ⟨mem, fun _ => 0, fun _ => 0, fun _ => .free, 0, 0⟩
  let s ← (initialProcesses b command).foldlM (fun s p => processSetup b p.1 p.2 s) s
  run b 1 s

/-! ## System calls -/

/-- `syscall_page_alloc` -/
def syscallPageAlloc (b : Build) (addr : Nat) (s : State) : Except Panic (Int × State) :=
  let (ptr, s) := kalloc b PAGESIZE s
  if ptr = 0 then .ok (-1, s)
  else do
    let (_, s) ← memoryMap b (s.pagetable s.current) addr ptr PTE_PWU s
    let ptr ← memoryVirtualToPhysical (s.pagetable s.current) addr s
    let s ← memset ptr 0 PAGESIZE s
    .ok (0, s)

/-- `memshow`: the memory viewer has a page of its own, which it allocates the first
time, and leaves `marks` there. -/
def memshow (b : Build) (marks : Mem) (s : State) : Except Panic State := do
  let s ←
    if s.viewer = 0 then
      let (v, s) := kalloc b PAGESIZE s
      if v = 0 then .error .assertion else .ok { s with viewer := v }
    else .ok s
  .ok { s with mem := fun a =>
    if s.viewer ≤ a ∧ a < s.viewer + PAGESIZE then marks a else s.mem a }

/-! ## Runs -/

/-- Process `pid` can access physical page `page` from user mode, at address `va`. -/
def UserMaps (s : State) (pid va page : Nat) : Prop :=
  ∃ it, vmiter s.mem (s.pagetable pid) va = .ok it ∧ it.user s.mem ∧ it.pa s.mem / PAGESIZE = page

/-- What happens between two entries of the kernel, and in one.  A system call or an
exception shows the memory first; `ok` restricts the arguments of `sys_page_alloc`. -/
inductive Turn (b : Build) (ok : State → Nat → Prop) : State → State → Prop
  /-- `SYSCALL_PAGE_ALLOC` -/
  | pageAlloc {s t u : State} {marks : Mem} {addr : Nat} {r : Int} : ok s addr →
      memshow b marks s = .ok t → syscallPageAlloc b addr t = .ok (r, u) → Turn b ok s u
  /-- `SYSCALL_GETPID` -/
  | getpid {s t : State} {marks : Mem} : memshow b marks s = .ok t → Turn b ok s t
  /-- `SYSCALL_YIELD` or a timer interrupt: `schedule` runs some process. -/
  | schedule {s t u : State} {marks : Mem} {pid : Nat} : memshow b marks s = .ok t →
      run b pid t = .ok u → Turn b ok s u
  /-- A page fault of the process, which is not run again. -/
  | fault {s t u : State} {marks : Mem} {pid : Nat} : memshow b marks s = .ok t →
      run b pid { t with procState := Function.update t.procState t.current .broken } = .ok u →
      Turn b ok s u
  /-- The process writes to memory that it can access. -/
  | user {s : State} {mem : Mem} :
      (∀ a, mem a ≠ s.mem a → ∃ va, UserMaps s s.current va (a / PAGESIZE)) →
      Turn b ok s { s with mem := mem }

/-- The state in which `kernel_start` runs the first process. -/
def Starts (b : Build) (s : State) : Prop := ∃ command mem, kernelStart b command mem = .ok s

/-- The states of runs whose calls of `sys_page_alloc` are ones that `ok` lets through. -/
abbrev Reachable (b : Build) (ok : State → Nat → Prop) : State → Prop :=
  Reach (Starts b) (Turn b ok)

end Kernel
