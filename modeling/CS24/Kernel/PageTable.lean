import CS24.Lib.Bytes

/-!
# Page tables and the iterator over them

`x86-64.h` and `k-vmiter.cc`.  A page table is a tree of pages of 512 entries in
physical memory, which the kernel sees at the same addresses, except for page 0.  A `vmiter` points at
the entry where the walk for a virtual address ends, at level 0 if all tables on the
way are there.

Addresses and entries are `uintptr_t`; all of them stay below 2^64.
-/

namespace Kernel

open Bytes

abbrev PAGEOFFBITS : Nat := 12
abbrev PAGEINDEXBITS : Nat := 9
abbrev PAGESIZE : Nat := 4096

/-- The entry is present. -/
abbrev PTE_P : Nat := 0x1
/-- The entry is writable. -/
abbrev PTE_W : Nat := 0x2
/-- The entry is accessible to processes. -/
abbrev PTE_U : Nat := 0x4
abbrev PTE_PWU : Nat := 0x7
/-- The entry maps a large page. -/
abbrev PTE_PS : Nat := 0x80
abbrev PTE_PAMASK : Nat := 0x000FFFFFFFFFF000

abbrev MEMSIZE_PHYSICAL : Nat := 0x200000

abbrev VA_LOWMAX : Nat := 0x00007FFFFFFFFFFF
abbrev VA_HIGHMIN : Nat := 0xFFFF800000000000

/-- `pageindex` -/
def pageindex (addr level : Nat) : Nat := addr / 2 ^ (PAGEOFFBITS + level * PAGEINDEXBITS) % 512

/-- `va & pageoffmask(level)` -/
def pageoffset (va level : Nat) : Nat := va % 2 ^ (PAGEOFFBITS + level * PAGEINDEXBITS)

/-- `va_is_canonical` -/
def vaIsCanonical (va : Nat) : Prop := va ≤ VA_LOWMAX ∨ VA_HIGHMIN ≤ va

instance (va : Nat) : Decidable (vaIsCanonical va) := by
  unfold vaIsCanonical; infer_instance

/-- How the kernel stops. -/
inductive Panic
  /-- a failed `assert` -/
  | assertion
  /-- `panic("Page table %p may contain uninitialized memory!")` -/
  | uninitialized
  /-- `panic("Kernel page fault on %p")` -/
  | pageFault
  deriving DecidableEq, Repr

/-- A `vmiter`.  `pep` is `none` for `&zero_pe`, the entry of addresses that are not
canonical. -/
structure Vmiter where
  pt : Nat
  pep : Option Nat
  level : Nat
  perm : Nat
  va : Nat
  deriving DecidableEq, Repr

/-- `*pep_` -/
def Vmiter.entry (it : Vmiter) (mem : Mem) : Nat :=
  match it.pep with
  | some pep => load64 mem pep
  | none => 0

/-- `vmiter::down`, from an entry at `pep`: while there is a table below the entry, to
the entry of that table.  Reading an entry that is not in memory is a page fault. -/
def down (mem : Mem) (pt va : Nat) : Nat → Nat → Nat → Except Panic Vmiter
  | level, pep, perm =>
    if pep < PAGESIZE ∨ MEMSIZE_PHYSICAL ≤ pep then .error .pageFault
    else
      let e := load64 mem pep
      match level with
      | level + 1 =>
        if e &&& (PTE_P ||| PTE_PS) = PTE_P then
          -- `~(PTE_P | PTE_W | PTE_U)` of an entry of 64 bits
          down mem pt va level ((e &&& PTE_PAMASK) + 8 * pageindex va level)
            (perm &&& (e ||| (2 ^ 64 - 1 - PTE_PWU)))
        else if 0x100000000 ≤ e &&& PTE_PAMASK then .error .uninitialized
        else .ok ⟨pt, some pep, level + 1, perm, va⟩
      | 0 =>
        if 0x100000000 ≤ e &&& PTE_PAMASK then .error .uninitialized
        else .ok ⟨pt, some pep, 0, perm, va⟩

/-- `vmiter(pt, va)`: `real_find` from the top of the table. -/
def vmiter (mem : Mem) (pt va : Nat) : Except Panic Vmiter :=
  if vaIsCanonical va then down mem pt va 3 (pt + 8 * pageindex va 3) 0xFFF
  else .ok ⟨pt, none, 3, 0, va⟩

/-- `vmiter::pa`; `(uintptr_t) -1` if nothing is mapped. -/
def Vmiter.pa (it : Vmiter) (mem : Mem) : Nat :=
  let e := it.entry mem
  if e &&& PTE_P = 0 then 2 ^ 64 - 1
  else
    let pa := e &&& PTE_PAMASK
    -- a large page has a flag in the lowest address bit
    (if 0 < it.level then pa &&& (2 ^ 64 - 1 - 0x1000) else pa) + pageoffset it.va it.level

/-- `vmiter::perm` -/
def Vmiter.permissions (it : Vmiter) (mem : Mem) : Nat :=
  let ph := it.entry mem &&& it.perm
  if ph &&& PTE_P = 0 then 0 else ph

/-- `vmiter::user` -/
def Vmiter.user (it : Vmiter) (mem : Mem) : Bool :=
  it.permissions mem &&& (PTE_P ||| PTE_U) = PTE_P ||| PTE_U

end Kernel
