import CS24.Malloc.CheckHeap
import CS24.Malloc.ImplicitCalls

/-!
# The trace driver

`eval_mm_valid` of `mdriver.c` runs the requests of a trace against an allocator.
It keeps the extent of every payload in a list of ranges, fills each payload with
random bytes, and checks that payloads are aligned, lie in the heap, do not
overlap, and hold their bytes until they are given up.  The driver is one of the
clients of `Client`, so on a trace that uses the interface correctly it has
nothing to complain about, unless an allocation fails for want of memory.

The driver keeps three arrays over the block numbers of the trace.  A request
names its block number, so that it is one of the trace is part of its type;
`free(-1)`, the free of the null pointer, names none.
-/

namespace Malloc.Driver

open Bytes System

def RANDOM_DATA_LEN : Nat := 2 ^ 16

inductive DebugMode
  | none
  | cheap
  | expensive
  deriving DecidableEq, Repr

/-- A request of a trace with `ids` block numbers. -/
inductive Traceop (ids : Nat)
  | alloc (index : Fin ids) (size : Nat)
  | realloc (index : Fin ids) (size : Nat)
  | free (index : Option (Fin ids))
  deriving DecidableEq, Repr

structure Trace where
  ignoreRanges : Bool
  numIds : Nat
  ops : List (Traceop numIds)

/-- The extent of a payload: its first and its last address. -/
structure Range (ids : Nat) where
  lo : Nat
  hi : Nat
  index : Fin ids
  deriving DecidableEq, Repr

/-- What `malloc_error` reports. -/
inductive MallocError
  | initFailed
  | mallocFailed (opnum : Nat)
  | reallocFailed (opnum : Nat)
  | reallocNotNull (opnum : Nat)
  | notAligned (opnum lo : Nat)
  | outsideHeap (opnum lo hi heapLo heapHi : Nat)
  | overlaps (opnum lo hi otherLo otherHi : Nat)
  | garbled (opnum index count first : Nat)
  deriving DecidableEq, Repr

/-- What the driver is run with: the allocator, whose `mm_checkheap` may not return, the
debug mode, the results of the calls of `random`, the bytes of `random_data`, and the
requests at which `mem_sbrk` refuses, `mm_init` being the first. -/
structure Setup (σ : Type) where
  arena : Arena
  package : Allocator σ
  checkheap : σ → Option Unit
  debugMode : DebugMode
  random : Nat → Nat
  randomData : Nat → UInt8
  refuse : Nat → Bool

/-- The heap, the arrays of the trace, the ranges and the errors so far.  `randoms` counts
the calls of `random`. -/
structure State (σ : Type) (ids : Nat) where
  heap : σ
  blocks : Fin ids → Nat
  blockSizes : Fin ids → Nat
  blockRandBase : Fin ids → Nat
  ranges : List (Range ids)
  errors : List MallocError
  randoms : Nat

section Functions

variable {σ : Type} {ids : Nat} (S : Setup σ) (t : Trace)

def mallocError (e : MallocError) (d : State σ ids) : State σ ids :=
  { d with errors := d.errors ++ [e] }

/-- Checks the payload at `lo` and adds its range.  `size` arrives as an `int`, and the
assertion that it is positive may fail. -/
def addRange (lo size opnum : Nat) (index : Fin ids) (d : State σ ids) :
    Option (Bool × State σ ids) :=
  let size := (Int.bmod size (2 ^ 32)).toNat
  let hi := lo + size - 1
  let heapLo := S.arena.heap
  let heapHi := (S.package.lib d.heap).memBrk - 1
  if size = 0 then none
  else if lo % ALIGNMENT ≠ 0 then some (false, mallocError (.notAligned opnum lo) d)
  else if lo < heapLo ∨ heapHi < lo ∨ hi < heapLo ∨ heapHi < hi then
    some (false, mallocError (.outsideHeap opnum lo hi heapLo heapHi) d)
  else if t.ignoreRanges ∨ S.debugMode = .none then some (true, d)
  else
    match d.ranges.find? fun p => (p.lo ≤ lo ∧ lo ≤ p.hi) ∨ (p.lo ≤ hi ∧ hi ≤ p.hi) with
    | some p => some (false, mallocError (.overlaps opnum lo hi p.lo p.hi) d)
    | none => some (true, { d with ranges := ⟨lo, hi, index⟩ :: d.ranges })

/-- Removes the first range that starts at `lo`. -/
def removeRange (lo : Nat) (ranges : List (Range ids)) : List (Range ids) :=
  ranges.eraseP fun p => p.lo = lo

/-- Byte `i` of the random data of a block. -/
def randomByte (base i : Nat) : UInt8 := S.randomData ((base + i) % RANDOM_DATA_LEN)

/-- The payload of a block can be accessed, or has no bytes. -/
def BlockAccessible (index : Fin ids) (d : State σ ids) : Prop :=
  d.blockSizes index = 0 ∨
    Accessible S.arena (d.blocks index) (d.blockSizes index) (S.package.lib d.heap)

instance (index : Fin ids) (d : State σ ids) : Decidable (BlockAccessible S index d) := by
  unfold BlockAccessible; infer_instance

/-- Sets the payload of a block to random data. -/
def randomizeBlock (index : Fin ids) (d : State σ ids) : Option (State σ ids) :=
  if S.debugMode = .none then some d
  else if BlockAccessible S index d then
    let base := S.random d.randoms
    let data := (List.range (d.blockSizes index)).map (randomByte S base)
    some { d with
      heap := S.package.withMem d.heap (blit (S.package.lib d.heap).mem (d.blocks index) data)
      blockRandBase := Function.update d.blockRandBase index base
      randoms := d.randoms + 1 }
  else none

/-- Complains when bytes of the block are not the random data. -/
def checkIndex (opnum : Nat) (index : Fin ids) (d : State σ ids) : Option (State σ ids) :=
  if S.debugMode = .none then some d
  else if BlockAccessible S index d then
    let garbled := (List.range (d.blockSizes index)).filter fun i =>
      (S.package.lib d.heap).mem (d.blocks index + i) ≠ randomByte S (d.blockRandBase index) i
    match garbled with
    | [] => some d
    | first :: rest => some (mallocError (.garbled opnum index (rest.length + 1) first) d)
  else none

/-- Checks the blocks of all ranges. -/
def checkRanges (opnum : Nat) : List (Range ids) → State σ ids → Option (State σ ids)
  | [], d => some d
  | r :: ranges, d => do
    let d ← checkIndex S opnum r.index d
    checkRanges opnum ranges d

/-- What is checked before each request when debugging is expensive. -/
def checkAll (opnum : Nat) (d : State σ ids) : Option (State σ ids) :=
  if S.debugMode = .expensive then do
    S.checkheap d.heap
    checkRanges S opnum d.ranges d
  else some d

/-- Interprets one request; `false` when the driver gives up. -/
def evalOp (opnum : Nat) (d : State σ t.numIds) :
    Traceop t.numIds → Option (Bool × State σ t.numIds)
  | .alloc index size => do
    let (p, heap) ← S.package.malloc size (S.refuse (opnum + 1)) d.heap
    let d := { d with heap := heap }
    if p = NULL then some (false, mallocError (.mallocFailed opnum) d)
    else do
      let (ok, d) ← addRange S t p size opnum index d
      if ok = false then some (false, d)
      else do
        let d := { d with
          blocks := Function.update d.blocks index p
          blockSizes := Function.update d.blockSizes index size }
        let d ← randomizeBlock S index d
        some (true, d)
  | .realloc index size => do
    let d ← checkIndex S opnum index d
    let oldp := d.blocks index
    let (newp, heap) ← S.package.realloc oldp size (S.refuse (opnum + 1)) d.heap
    let d := { d with heap := heap }
    if newp = NULL ∧ size ≠ 0 then some (false, mallocError (.reallocFailed opnum) d)
    else if newp ≠ NULL ∧ size = 0 then some (false, mallocError (.reallocNotNull opnum) d)
    else do
      let d := { d with ranges := removeRange oldp d.ranges }
      let (ok, d) ← if 0 < size then addRange S t newp size opnum index d else some (true, d)
      if ok = false then some (false, d)
      else do
        let d := { d with
          blocks := Function.update d.blocks index newp
          blockSizes := Function.update d.blockSizes index (min size (d.blockSizes index)) }
        let d ← checkIndex S opnum index d
        let d := { d with blockSizes := Function.update d.blockSizes index size }
        let d ← randomizeBlock S index d
        some (true, d)
  | .free none => do
    let heap ← S.package.free NULL d.heap
    some (true, { d with heap := heap })
  | .free (some index) => do
    let d ← checkIndex S opnum index d
    let p := d.blocks index
    let d := { d with ranges := removeRange p d.ranges }
    let heap ← S.package.free p d.heap
    some (true, { d with heap := heap })

/-- The requests from number `opnum` on. -/
def evalOps : Nat → List (Traceop t.numIds) → State σ t.numIds →
    Option (Bool × State σ t.numIds)
  | _, [], d => some (true, d)
  | opnum, op :: ops, d => do
    let d ← checkAll S opnum d
    let (ok, d) ← evalOp S t opnum d op
    if ok = false then some (false, d) else evalOps (opnum + 1) ops d

/-- The arrays of the trace before a run. -/
def reinitTrace (heap : σ) : State σ ids := ⟨heap, fun _ => NULL, fun _ => 0, fun _ => 0, [], [], 0⟩

/-- Checks the allocator for correctness, from an allocator state `s` whose break has just
been reset. -/
def evalMmValid (s : σ) : Option (Bool × State σ t.numIds) :=
  let (ok, heap) := S.package.init (S.refuse 0) s
  let d := reinitTrace heap
  if ok = false then some (false, mallocError .initFailed d) else evalOps S t 0 t.ops d

end Functions

/-! ## Traces that use the interface correctly -/

/-- What the trace has done to a block number. -/
inductive Slot
  | empty
  | used
  | freed
  deriving DecidableEq, Repr

/-- A request is in order: it does not allocate a block number in use, does not give up one
that has been freed, and asks for less than 2 GB, and for something where there is nothing
to give up. -/
def Traceop.Fair {ids : Nat} (slots : Fin ids → Slot) : Traceop ids → Prop
  | alloc index size => slots index ≠ .used ∧ 0 < size ∧ size < 2 ^ 31
  | realloc index size => slots index ≠ .freed ∧ size < 2 ^ 31 ∧ (size = 0 → slots index = .used)
  | free none => True
  | free (some index) => slots index ≠ .freed

/-- The block numbers after a request. -/
def Traceop.after {ids : Nat} (slots : Fin ids → Slot) : Traceop ids → Fin ids → Slot
  | alloc index _ => Function.update slots index .used
  | realloc index size => Function.update slots index (if size = 0 then .empty else .used)
  | free none => slots
  | free (some index) =>
    Function.update slots index (if slots index = .used then .freed else slots index)

/-- The requests are in order, one after the other. -/
def FairFrom {ids : Nat} : (Fin ids → Slot) → List (Traceop ids) → Prop
  | _, [] => True
  | slots, op :: ops => op.Fair slots ∧ FairFrom (op.after slots) ops

/-- The trace uses the interface correctly. -/
def Trace.Fair (t : Trace) : Prop := FairFrom (fun _ => .empty) t.ops

/-- The bytes a request takes from the arena at most, when a payload of `n` bytes needs a
block of `need n`. -/
def Traceop.need {ids : Nat} (need : Nat → Nat) : Traceop ids → Nat
  | alloc _ size => need size
  | realloc _ size => if size = 0 then 0 else need size
  | free _ => 0

def Trace.need (need : Nat → Nat) (t : Trace) : Nat := (t.ops.map (Traceop.need need)).sum

/-- The error says that an allocation failed. -/
def MallocError.outOfMemory : MallocError → Bool
  | initFailed | mallocFailed _ | reallocFailed _ => true
  | _ => false

/-- The driver finds no fault: it returns, and it either accepts the allocator without an
error, or gives up at an allocation that failed, because the system refused or the trace
needs more than the arena has. -/
def FindsNoFault {σ : Type} (S : Setup σ) (need : Nat → Nat) (t : Trace) (s : σ) : Prop :=
  ∃ ok d, evalMmValid S t s = some (ok, d) ∧
    (ok = true ∧ d.errors = [] ∨
      ok = false ∧ (∃ e, d.errors = [e] ∧ e.outOfMemory = true) ∧
        ((∃ i, S.refuse i = true) ∨ MAX_HEAP < 8 + t.need need))

end Malloc.Driver
