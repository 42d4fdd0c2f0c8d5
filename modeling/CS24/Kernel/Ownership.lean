import CS24.Kernel.Kernel
import CS24.Lib.Packed

/-!
# What every page is used for

The kernel does not record what it allocated a page for.  `Owned` says that there is
such a record: a page is a table of a process, at a level and for a part of the address
space, or the target of one entry in a table at level 0, or the page of the memory
viewer, or lost.  Every present entry leads to a page with the matching use, and every
page that is not lost is reached from the entry its use names.
-/

namespace Kernel

open Bytes

/-- What a page is used for: `region` counts the parts of the address space that tables
of a level cover, `page` is a virtual page number. -/
inductive Use
  | table (pid level region : Nat)
  | leaf (pid page : Nat)
  | viewer
  | lost
  deriving DecidableEq, Repr

/-- A record of the uses of pages. -/
abbrev Uses := Nat → Option Use

/-- The address of entry `i` of the table in page `p`. -/
def slot (p i : Nat) : Nat := p * PAGESIZE + 8 * i

/-- The number of the virtual page, without the bits that tables do not look at. -/
def virtualPage (va : Nat) : Nat := va % 2 ^ 48 / PAGESIZE

/-- The mapping of a page below `PROC_START_ADDR` that `process_setup` makes. -/
def KernelLeaf (page e : Nat) : Prop :=
  page < PROC_START_ADDR / PAGESIZE ∧
    (e = page * PAGESIZE + 3 ∨ page = CONSOLE_ADDR / PAGESIZE ∧ e = page * PAGESIZE + 7)

/-- An entry of a table of `pid`: entry number `y` counted from the first table of its
level. -/
inductive EntryOk (use : Uses) (pid : Nat) : (level y e : Nat) → Prop
  | absent {level y : Nat} : EntryOk use pid level y 0
  | table {level y q : Nat} : use q = some (.table pid level y) →
      EntryOk use pid (level + 1) y (q * PAGESIZE + 7)
  | kernel {y e : Nat} : KernelLeaf y e → EntryOk use pid 0 y e
  | leaf {y q : Nat} : use q = some (.leaf pid y) → EntryOk use pid 0 y (q * PAGESIZE + 7)

/-- Entry number `y` of the tables of `pid` at a level is `e`. -/
def HasEntry (s : State) (use : Uses) (pid level y e : Nat) : Prop :=
  ∃ p, use p = some (.table pid level (y / 512)) ∧ load64 s.mem (slot p (y % 512)) = e

/-- Page `q` is reached from what its use names. -/
def Linked (s : State) (use : Uses) (q : Nat) : Use → Prop
  | .table pid level region =>
    level = 3 ∧ region = 0 ∧ s.pagetable pid = q * PAGESIZE ∨
      level < 3 ∧ HasEntry s use pid (level + 1) region (q * PAGESIZE + 7)
  | .leaf pid page => HasEntry s use pid 0 page (q * PAGESIZE + 7)
  | .viewer => s.viewer = q * PAGESIZE
  | .lost => True

/-- The table of a process is one that the record knows. -/
def HasRoot (s : State) (use : Uses) (pid : Nat) : Prop :=
  ∃ p, s.pagetable pid = p * PAGESIZE ∧ use p = some (.table pid 3 0)

/-- `use` is a record of the uses of pages of `s`. -/
structure Owned (b : Build) (s : State) (use : Uses) : Prop where
  used : ∀ p, use p ≠ none → s.refcount p ≠ 0
  allocatable : ∀ p, use p ≠ none → allocatablePhysicalAddress b (p * PAGESIZE)
  entries : ∀ p pid level region, use p = some (.table pid level region) → ∀ i < 512,
    EntryOk use pid level (region * 512 + i) (load64 s.mem (slot p i))
  linked : ∀ q u, use q = some u → Linked s use q u

namespace Owned

variable {b : Build} {s : State} {use : Uses} {p p' pid level region page : Nat}

theorem bounds (h : Owned b s use) (hp : use p ≠ none) : 0 < p ∧ p < 512 := by
  obtain ⟨hreserved, -, -, hlt⟩ := h.allocatable p hp
  simp only [reservedPhysicalAddress, PAGESIZE, MEMSIZE_PHYSICAL] at hreserved hlt
  omega

/-- A process has one table for each part of the address space. -/
theorem table_unique (h : Owned b s use) (hp : use p = some (.table pid level region))
    (hp' : use p' = some (.table pid level region)) : p = p' := by
  have hlinked := h.linked p _ hp
  have hlinked' := h.linked p' _ hp'
  have hlevel : level ≤ 3 := by
    rcases hlinked with ⟨rfl, -⟩ | ⟨hlt, -⟩ <;> omega
  -- from the root down
  induction hn : 3 - level generalizing level region p p' with
  | zero =>
      obtain ⟨-, -, hroot⟩ | ⟨hlt, -⟩ := hlinked
      · obtain ⟨-, -, hroot'⟩ | ⟨hlt, -⟩ := hlinked'
        · have := hroot.symm.trans hroot'
          simp only [PAGESIZE] at this
          omega
        · omega
      · omega
  | succ n ih =>
      obtain ⟨rfl, -⟩ | ⟨-, q, hq, he⟩ := hlinked
      · omega
      · obtain ⟨rfl, -⟩ | ⟨-, q', hq', he'⟩ := hlinked'
        · omega
        · obtain rfl : q = q' := ih hq hq' (h.linked q _ hq) (h.linked q' _ hq') (by omega)
            (by omega)
          have := he.symm.trans he'
          simp only [PAGESIZE] at this
          omega

/-- A page of a process is the target of one page. -/
theorem leaf_unique (h : Owned b s use) (hp : use p = some (.leaf pid page))
    (hp' : use p' = some (.leaf pid page)) : p = p' := by
  obtain ⟨q, hq, he⟩ := h.linked p _ hp
  obtain ⟨q', hq', he'⟩ := h.linked p' _ hp'
  obtain rfl := h.table_unique hq hq'
  have := he.symm.trans he'
  simp only [PAGESIZE] at this
  omega

/-- A process with a table has a root. -/
theorem hasRoot (h : Owned b s use) (hp : use p = some (.table pid level region)) :
    HasRoot s use pid := by
  have hlevel : level ≤ 3 := by
    rcases h.linked p _ hp with ⟨rfl, -⟩ | ⟨hlt, -⟩ <;> omega
  induction hn : 3 - level generalizing level region p with
  | zero =>
      obtain ⟨rfl, rfl, hroot⟩ | ⟨hlt, -⟩ := h.linked p _ hp
      · exact ⟨p, hroot, hp⟩
      · omega
  | succ n ih =>
      obtain ⟨rfl, -⟩ | ⟨-, q, hq, -⟩ := h.linked p _ hp
      · omega
      · exact ih hq (by omega) (by omega)

end Owned

end Kernel
