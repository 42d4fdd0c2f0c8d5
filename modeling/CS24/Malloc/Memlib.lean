import CS24.Lib.Bytes

/-!
# The simulated memory system and the words both allocators share

`memlib.c` gives the allocators one contiguous arena, mapped at a page-aligned
address, of which the bytes below `mem_brk` have been handed out.  A 64-bit
access is executed only inside the accessible part of the arena; anywhere else
(at `NULL`, or past the end of the mapping) it traps, which is `none` here.
`limit` says where the accessible part ends: the end of the mapping on the real
machine, or `mem_brk` when a run is to be checked for staying inside the bytes
that were handed out.
-/

namespace Malloc

open Bytes

def NULL : Nat := 0

def SIZE_MAX : Nat := 2 ^ 64 - 1

/-- The pointer `(void *) -1` by which `mem_sbrk` reports failure. -/
def SBRK_FAILED : Nat := 2 ^ 64 - 1

/-- 100 MB. -/
def MAX_HEAP : Nat := 100 * 2 ^ 20

/-- The required alignment of heap payloads, `2 * sizeof(size_t)`. -/
def ALIGNMENT : Nat := 16

/-- Where the arena is mapped, and up to where accesses do not trap. -/
structure Arena where
  heap : Nat
  limit : Nat → Nat
  heap_pos : 0 < heap
  heap_aligned : heap % ALIGNMENT = 0
  heap_low : heap + MAX_HEAP ≤ 2 ^ 47
  le_limit : ∀ brk, brk ≤ heap + MAX_HEAP → brk ≤ limit brk

/-- The real machine: `mmap` maps `MAX_HEAP` bytes at `heap`. -/
def Arena.mapped (heap : Nat) (h0 : 0 < heap) (h16 : heap % ALIGNMENT = 0)
    (h47 : heap + MAX_HEAP ≤ 2 ^ 47) : Arena :=
  ⟨heap, fun _ => heap + MAX_HEAP, h0, h16, h47, fun _ h => h⟩

/-- All mapped bytes can be accessed. -/
def Arena.Mapped (A : Arena) : Prop := ∀ brk, A.heap + MAX_HEAP ≤ A.limit brk

theorem Arena.mapped_mapped {heap : Nat} (h0 : 0 < heap) (h16 : heap % ALIGNMENT = 0)
    (h47 : heap + MAX_HEAP ≤ 2 ^ 47) : (Arena.mapped heap h0 h16 h47).Mapped :=
  fun _ => le_refl _

/-- One page above address 0. -/
def lowArena : Arena := .mapped 4096 (by decide) (by decide) (by decide)

/-- The memory and the break of the simulated memory system. -/
structure Memlib where
  mem : Mem
  memBrk : Nat

/-- Extends the heap by `incr` bytes and returns the old break.  `incr` is a
`ssize_t`, so sizes from `2 ^ 63` on arrive negative.  `refuse` lets the system
refuse any request. -/
def memSbrk (A : Arena) (incr : Nat) (refuse : Bool) (s : Memlib) : Nat × Memlib :=
  if refuse = true ∨ 2 ^ 63 ≤ incr ∨ A.heap + MAX_HEAP < s.memBrk + incr then
    (SBRK_FAILED, s)
  else
    (s.memBrk, { s with memBrk := s.memBrk + incr })

/-- The `n` bytes at `a` can be accessed. -/
def Accessible (A : Arena) (a n : Nat) (s : Memlib) : Prop :=
  A.heap ≤ a ∧ a + n ≤ A.limit s.memBrk

instance (A : Arena) (a n : Nat) (s : Memlib) : Decidable (Accessible A a n s) := by
  unfold Accessible; infer_instance

/-- Read the word at `a`. -/
def load (A : Arena) (a : Nat) (s : Memlib) : Option Nat :=
  if Accessible A a 8 s then some (load64 s.mem a) else none

/-- Write the word `v` at `a`. -/
def store (A : Arena) (a v : Nat) (s : Memlib) : Option Memlib :=
  if Accessible A a 8 s then some { s with mem := store64 s.mem a v } else none

/-- `memcpy` inside the arena. -/
def memcpy (A : Arena) (dst src n : Nat) (s : Memlib) : Option Memlib :=
  if Accessible A dst n s ∧ Accessible A src n s then
    some { s with mem := copy s.mem dst src n }
  else none

/-- `memset` inside the arena; no byte is touched when `n` is 0. -/
def memset (A : Arena) (dst : Nat) (b : UInt8) (n : Nat) (s : Memlib) : Option Memlib :=
  if n = 0 ∨ Accessible A dst n s then some { s with mem := fill s.mem dst b n } else none

/-- Rounds up `size` to the nearest multiple of `n`, in `size_t` arithmetic. -/
def roundUp (size n : Nat) : Nat := (size + (n - 1)) % 2 ^ 64 / n * n

/-- The word `size | is_allocated`. -/
def sizeWord (size : Nat) (used : Bool) : Nat := size ||| used.toNat

/-- The size in a header or footer word: `word & ~1`. -/
def wordSize (word : Nat) : Nat := word &&& (2 ^ 64 - 2)

/-- The allocation state in a header word: `word & 1`. -/
def wordUsed (word : Nat) : Bool := word &&& 1 != 0

theorem load_eq {A : Arena} {a : Nat} {s : Memlib} (h : Accessible A a 8 s) :
    load A a s = some (load64 s.mem a) := by simp [load, h]

theorem store_eq {A : Arena} {a v : Nat} {s : Memlib} (h : Accessible A a 8 s) :
    store A a v s = some { s with mem := store64 s.mem a v } := by simp [store, h]

/-- A word inside the bytes handed out can be accessed. -/
theorem accessible_of_le_brk {A : Arena} {a n : Nat} {s : Memlib}
    (hbrk : s.memBrk ≤ A.heap + MAX_HEAP) (hlo : A.heap ≤ a) (hhi : a + n ≤ s.memBrk) :
    Accessible A a n s :=
  ⟨hlo, hhi.trans (A.le_limit _ hbrk)⟩

/-- The system refuses, or the arena has no room for `incr` more bytes. -/
def SbrkFails (A : Arena) (incr : Nat) (refuse : Bool) (s : Memlib) : Prop :=
  refuse = true ∨ A.heap + MAX_HEAP < s.memBrk + incr

instance (A : Arena) (incr : Nat) (refuse : Bool) (s : Memlib) :
    Decidable (SbrkFails A incr refuse s) := by
  unfold SbrkFails; infer_instance

/-- `mem_sbrk` fails and changes nothing, or hands out `incr` more bytes. -/
theorem memSbrk_cases (A : Arena) (incr : Nat) (refuse : Bool) (s : Memlib) :
    (memSbrk A incr refuse s = (SBRK_FAILED, s) ∧ SbrkFails A incr refuse s) ∨
      (memSbrk A incr refuse s = (s.memBrk, ⟨s.mem, s.memBrk + incr⟩) ∧
        ¬ SbrkFails A incr refuse s ∧ s.memBrk + incr ≤ A.heap + MAX_HEAP ∧
        s.memBrk ≠ SBRK_FAILED) := by
  have hlow := A.heap_low
  unfold memSbrk
  by_cases h : refuse = true ∨ 2 ^ 63 ≤ incr ∨ A.heap + MAX_HEAP < s.memBrk + incr
  · -- a negative increment is more than the arena has
    refine Or.inl ⟨if_pos h, h.imp_right fun h => ?_⟩
    omega
  · refine Or.inr ⟨if_neg h, fun hf => h (hf.imp_right Or.inr), by omega, ?_⟩
    unfold SBRK_FAILED
    omega

/-- Rounding up a size that does not overflow gives the next multiple of 16. -/
theorem roundUp_spec {size : Nat} (h : size + 15 < 2 ^ 64) :
    size ≤ roundUp size ALIGNMENT ∧ roundUp size ALIGNMENT < size + 16 ∧
      roundUp size ALIGNMENT % 16 = 0 := by
  unfold roundUp ALIGNMENT
  omega

theorem sizeWord_eq {size : Nat} {used : Bool} (h : size % 2 = 0) :
    sizeWord size used = size + used.toNat := by
  cases used with
  | false => simp [sizeWord]
  | true =>
      have h1 : size = 2 * (size / 2) := by omega
      have h2 := Nat.two_pow_add_eq_or_of_lt (i := 1) (b := 1) (by omega) (size / 2)
      simp only [pow_one] at h2
      rw [sizeWord, Bool.toNat_true, h1]
      exact h2.symm

theorem wordSize_add {size : Nat} {used : Bool} (h : size % 2 = 0) (hlt : size < 2 ^ 64) :
    wordSize (size + used.toNat) = size := by
  have hmask : (2 ^ 64 - 2 : Nat) = Nat.bit false (2 ^ 63 - 1) := by simp [Nat.bit]
  have hword : size + used.toNat = Nat.bit used (size / 2) := by
    cases used <;> simp [Nat.bit] <;> omega
  rw [wordSize, hmask, hword, Nat.land_bit, Nat.and_two_pow_sub_one_eq_mod]
  simp only [Bool.and_false, Nat.bit_false]
  omega

theorem wordUsed_add {size : Nat} {used : Bool} (h : size % 2 = 0) :
    wordUsed (size + used.toNat) = used := by
  rw [wordUsed, Nat.and_one_is_mod]
  cases used <;> simp <;> omega

end Malloc
