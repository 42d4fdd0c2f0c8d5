import CS24.Malloc.Memlib

/-!
# The implicit free-list allocator

`mm-implicit.c`, function by function.  A block has a header word
`size | is_allocated` and no footer; the free blocks are found by walking over
all blocks from the first one.  `coalesce` runs at the start of every
allocation and never updates `mm_heap_last`.

Every function returns `none` where the C code would trap on an access, and
also where a traversal does not come to an end.
-/

namespace Malloc.Implicit

open Bytes

/-- The memory system and the allocator's two globals. -/
structure State extends Memlib where
  mmHeapFirst : Nat
  mmHeapLast : Nat

variable (A : Arena)

/-- Sets a block's header with the given size and allocation state. -/
def setHeader (block size : Nat) (isAllocated : Bool) (s : State) : Option State := do
  let m ← store A block (sizeWord size isAllocated) s.toMemlib
  some { s with toMemlib := m }

/-- Extracts a block's size from its header. -/
def getSize (block : Nat) (s : State) : Option Nat :=
  (load A block s.toMemlib).map wordSize

/-- Extracts a block's allocation state from its header. -/
def isAllocated (block : Nat) (s : State) : Option Bool :=
  (load A block s.toMemlib).map wordUsed

/-- The blocks that a traversal visits from `curr` on: `find_fit` and `coalesce`
share the loop header. -/
def traversal : Nat → Nat → State → Option (List Nat)
  | 0, _, _ => none
  | fuel + 1, curr, s =>
    if s.mmHeapLast ≠ NULL ∧ curr ≤ s.mmHeapLast then do
      let rest ← traversal fuel (curr + (← getSize A curr s)) s
      some (curr :: rest)
    else some []

/-- `round_up(sizeof(block_t), ALIGNMENT)` -/
def minBlockSize : Nat := roundUp 8 ALIGNMENT

/-- The part of `find_fit` that splits. -/
def splitFit (curr originalSize size : Nat) (s : State) : Option State := do
  let s ← setHeader A curr size false s
  let nxt := curr + (← getSize A curr s)
  let s ← setHeader A nxt (originalSize - size) false s
  some (if s.mmHeapLast < nxt then { s with mmHeapLast := nxt } else s)

/-- The loop of `find_fit`, entered with `curr`.  A walk over more than `fuel`
blocks does not end. -/
def findFitFrom (size : Nat) : Nat → Nat → State → Option (Nat × State)
  | 0, _, _ => none
  | fuel + 1, curr, s =>
    if s.mmHeapLast ≠ NULL ∧ curr ≤ s.mmHeapLast then do
      let used ← isAllocated A curr s
      let originalSize ← getSize A curr s
      if used = false ∧ size ≤ originalSize then do
        let s ←
          if minBlockSize ≤ originalSize - size then splitFit A curr originalSize size s
          else some s
        some (curr, s)
      else findFitFrom size fuel (curr + originalSize) s
    else some (NULL, s)

/-- Finds the first free block in the heap with at least the given size.  The
heap has fewer blocks than bytes. -/
def findFit (size : Nat) (s : State) : Option (Nat × State) :=
  findFitFrom A size (s.memBrk + 1) s.mmHeapFirst s

/-- The inner loop of `coalesce`: merges `curr` with the free blocks behind it.
The header at `nxt` is read before `nxt` is compared with `mm_heap_last`. -/
def absorb (curr : Nat) : Nat → Nat → State → Option State
  | 0, _, _ => none
  | fuel + 1, nxt, s => do
    if (← isAllocated A nxt s) = false ∧ nxt ≤ s.mmHeapLast ∧ s.mmHeapLast ≠ NULL then do
      let size := ((← getSize A curr s) + (← getSize A nxt s)) % 2 ^ 64
      let s ← setHeader A curr size false s
      absorb curr fuel (curr + (← getSize A curr s)) s
    else some s

/-- The outer loop of `coalesce`, entered with `curr`. -/
def coalesceFrom : Nat → Nat → State → Option State
  | 0, _, _ => none
  | fuel + 1, curr, s =>
    if s.mmHeapLast ≠ NULL ∧ curr ≤ s.mmHeapLast then do
      if (← isAllocated A curr s) = true then
        coalesceFrom fuel (curr + (← getSize A curr s)) s
      else do
        let s ← absorb A curr (s.memBrk + 1) (curr + (← getSize A curr s)) s
        coalesceFrom fuel (curr + (← getSize A curr s)) s
    else some s

/-- Merges all free neighbours. -/
def coalesce (s : State) : Option State := coalesceFrom A (s.memBrk + 1) s.mmHeapFirst s

/-- Initializes the allocator state. -/
def mmInit (refuse : Bool) (s : State) : Bool × State :=
  let (padding, m) := memSbrk A (ALIGNMENT - 8) refuse s.toMemlib
  if padding = SBRK_FAILED then (false, { s with toMemlib := m })
  else (true, ⟨m, NULL, NULL⟩)

/-- Allocates a block with the given size. -/
def mmMalloc (size : Nat) (refuse : Bool) (s : State) : Option (Nat × State) := do
  let s ← coalesce A s
  let size := roundUp ((8 + size) % 2 ^ 64) ALIGNMENT
  let (block, s) ← findFit A size s
  if block ≠ NULL then do
    let s ← setHeader A block (← getSize A block s) true s
    some (block + 8, s)
  else
    let (block, m) := memSbrk A size refuse s.toMemlib
    let s := { s with toMemlib := m }
    if block = SBRK_FAILED then some (NULL, s)
    else do
      let s := if s.mmHeapFirst = NULL then { s with mmHeapFirst := block } else s
      let s := { s with mmHeapLast := block }
      let s ← setHeader A block size true s
      some (block + 8, s)

/-- Releases a block to be reused for future allocations. -/
def mmFree (ptr : Nat) (s : State) : Option State :=
  if ptr = NULL then some s
  else do
    let block := ptr - 8
    setHeader A block (← getSize A block s) false s

/-- Changes the size of a block by allocating a new one, copying the data and
freeing the old one. -/
def mmRealloc (oldPtr size : Nat) (refuse : Bool) (s : State) : Option (Nat × State) :=
  if oldPtr = NULL then mmMalloc A size refuse s
  else if size = 0 then do
    let s ← mmFree A oldPtr s
    some (NULL, s)
  else do
    let block := oldPtr - 8
    if roundUp ((8 + size) % 2 ^ 64) ALIGNMENT ≤ (← getSize A block s) then some (oldPtr, s)
    else do
      let (newPayload, s) ← mmMalloc A size refuse s
      if newPayload = NULL then some (NULL, s)
      else do
        let newBlock := newPayload - 8
        let m ← memcpy A newPayload oldPtr ((← getSize A block s) - 8) s.toMemlib
        let s ← mmFree A oldPtr { s with toMemlib := m }
        some (newBlock + 8, s)

/-- Allocates a block and sets it to zero. -/
def mmCalloc (nmemb size : Nat) (refuse : Bool) (s : State) : Option (Nat × State) :=
  let totalSize := nmemb * size % 2 ^ 64
  if totalSize = 0 then some (NULL, s)
  else do
    let (payload, s) ← mmMalloc A totalSize refuse s
    let m ← memset A payload 0 totalSize s.toMemlib
    some (payload, { s with toMemlib := m })

end Malloc.Implicit
