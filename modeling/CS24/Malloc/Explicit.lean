import CS24.Malloc.Memlib

/-!
# The explicit free-list allocator

`mm-explicit.c`, function by function.  A block starts with a header word and
ends with a footer word, both `size | is_allocated`; a free block also stores
`left` and `right` pointers of the free list at offsets 8 and 16.  All of this
lives in the same bytes as the clients' data.

Every function returns `none` where the C code would trap on an access, and
also where a traversal does not come to an end.
-/

namespace Malloc.Explicit

open Bytes

/-- The memory system and the allocator's three globals. -/
structure State extends Memlib where
  mmHeapFirst : Nat
  mmHeapLast : Nat
  freeListFirst : Nat

variable (A : Arena)

/-- Write a word through a pointer. -/
def State.put (a v : Nat) (s : State) : Option State := do
  let m ← store A a v s.toMemlib
  some { s with toMemlib := m }

/-- `node->left` -/
def left (node : Nat) (s : State) : Option Nat := load A (node + 8) s.toMemlib

/-- `node->right` -/
def right (node : Nat) (s : State) : Option Nat := load A (node + 16) s.toMemlib

def setLeft (node v : Nat) (s : State) : Option State := s.put A (node + 8) v

def setRight (node v : Nat) (s : State) : Option State := s.put A (node + 16) v

def addFreeNode (freeNode : Nat) (s : State) : Option State :=
  if s.freeListFirst = NULL then do
    let s := { s with freeListFirst := freeNode }
    let s ← setLeft A s.freeListFirst NULL s
    setRight A s.freeListFirst NULL s
  else do
    let s ← setRight A freeNode s.freeListFirst s
    let s ← setLeft A s.freeListFirst freeNode s
    let s := { s with freeListFirst := freeNode }
    setLeft A freeNode NULL s

def removeFreeNode (freeNode : Nat) (s : State) : Option State :=
  if freeNode = s.freeListFirst then do
    let next ← right A s.freeListFirst s
    let s := { s with freeListFirst := next }
    if s.freeListFirst ≠ NULL then setLeft A s.freeListFirst NULL s else some s
  else do
    let l ← left A freeNode s
    let s ← if l ≠ NULL then do setRight A l (← right A freeNode s) s else some s
    let r ← right A freeNode s
    if r ≠ NULL then do setLeft A r (← left A freeNode s) s else some s

/-- Sets a block's header and footer with the given size and allocation state. -/
def setHeader (block size : Nat) (isAllocated : Bool) (s : State) : Option State := do
  let s ← s.put A block (sizeWord size isAllocated)
  s.put A (block + size - 8) (sizeWord size isAllocated)

/-- Extracts a block's size from its header. -/
def getSize (block : Nat) (s : State) : Option Nat :=
  (load A block s.toMemlib).map wordSize

/-- Extracts a block's allocation state from its header. -/
def isAllocated (block : Nat) (s : State) : Option Bool :=
  (load A block s.toMemlib).map wordUsed

/-- `round_up(sizeof(block_t) + sizeof(footer_t) + ALIGNMENT, ALIGNMENT)` -/
def minBlockSize : Nat := roundUp (8 + 8 + ALIGNMENT) ALIGNMENT

/-- The part of `find_fit` that splits: the block keeps `size` bytes and leaves
the list, the rest becomes a new free block. -/
def splitFit (curr originalSize size : Nat) (s : State) : Option State := do
  let s ← setHeader A curr size false s
  let nxt := curr + size
  let s ← setHeader A nxt (originalSize - size) false s
  let s := if s.mmHeapLast < nxt then { s with mmHeapLast := nxt } else s
  let s ← removeFreeNode A curr s
  addFreeNode A nxt s

/-- The part of `find_fit` that takes a block whole.  The new head of the list
keeps its old `left`, and the `left` of a block further on is taken not to be
`NULL`. -/
def takeFit (curr : Nat) (s : State) : Option State :=
  if curr = s.freeListFirst then do
    some { s with freeListFirst := ← right A curr s }
  else do
    let l ← left A curr s
    let s ← setRight A l (← right A curr s) s
    let r ← right A curr s
    if r ≠ NULL then do setLeft A r (← left A curr s) s else some s

/-- The loop of `find_fit`, entered with `curr`.  A walk longer than `fuel`
nodes does not end. -/
def findFitFrom (size : Nat) : Nat → Nat → State → Option (Nat × State)
  | 0, _, _ => none
  | fuel + 1, curr, s =>
    if curr = NULL then some (NULL, s)
    else do
      if size ≤ (← getSize A curr s) then do
        let originalSize ← getSize A curr s
        let s ←
          if minBlockSize ≤ originalSize - size then splitFit A curr originalSize size s
          else takeFit A curr s
        some (curr, s)
      else do
        findFitFrom size fuel (← right A curr s) s

/-- Finds the first free block in the list with at least the given size and
takes it out of the list.  The list has fewer nodes than the heap has bytes. -/
def findFit (size : Nat) (s : State) : Option (Nat × State) :=
  findFitFrom A size (s.memBrk + 1) s.freeListFirst s

/-- The first half of `coalesce`: merge with the block before, which is already
in the list.  Returns the merged block and whether there was such a merge. -/
def coalesceLeft (block : Nat) (s : State) : Option (Nat × Bool × State) :=
  if block ≠ s.mmHeapFirst then do
    let leftFooter ← load A (block - 8) s.toMemlib
    let leftBlock := block - wordSize leftFooter
    if (← isAllocated A leftBlock s) = false then do
      let size := ((← getSize A leftBlock s) + (← getSize A block s)) % 2 ^ 64
      let s ← setHeader A leftBlock size false s
      let s := if block = s.mmHeapLast then { s with mmHeapLast := leftBlock } else s
      some (leftBlock, true, s)
    else some (block, false, s)
  else some (block, false, s)

/-- The second half of `coalesce`: merge with the block behind, which leaves the
list. -/
def coalesceRight (block : Nat) (s : State) : Option State :=
  if block < s.mmHeapLast then do
    let rightBlock := block + (← getSize A block s)
    if (← isAllocated A rightBlock s) = false then do
      let s ← removeFreeNode A rightBlock s
      let size := ((← getSize A block s) + (← getSize A rightBlock s)) % 2 ^ 64
      let s ← setHeader A block size false s
      some (if rightBlock = s.mmHeapLast then { s with mmHeapLast := block } else s)
    else some s
  else some s

/-- Merges a freed block with its free neighbours and puts the result into the
free list. -/
def coalesce (block : Nat) (s : State) : Option State := do
  let (block, flag, s) ← coalesceLeft A block s
  let s ← coalesceRight A block s
  if flag = false then addFreeNode A block s else some s

/-- Initializes the allocator state. -/
def mmInit (refuse : Bool) (s : State) : Bool × State :=
  let (padding, m) := memSbrk A (ALIGNMENT - 8) refuse s.toMemlib
  if padding = SBRK_FAILED then (false, { s with toMemlib := m })
  else (true, ⟨m, NULL, NULL, NULL⟩)

/-- Allocates a block with the given size. -/
def mmMalloc (size : Nat) (refuse : Bool) (s : State) : Option (Nat × State) := do
  let size := roundUp ((8 + 8 + size) % 2 ^ 64) ALIGNMENT
  let (block, s) ← findFit A size s
  if block ≠ NULL then do
    let s ← setHeader A block (← getSize A block s) true s
    some (block + 8, s)
  else
    let (block, m) := memSbrk A size refuse s.toMemlib
    let s := { s with toMemlib := m }
    if block = SBRK_FAILED then some (NULL, s)
    else do
      let s := if s.mmHeapFirst = NULL then { s with mmHeapFirst := block } else s
      let s := { s with mmHeapLast := block }
      let s ← setHeader A block size true s
      some (block + 8, s)

/-- Releases a block to be reused for future allocations. -/
def mmFree (ptr : Nat) (s : State) : Option State :=
  if ptr = NULL then some s
  else do
    let block := ptr - 8
    let s ← setHeader A block (← getSize A block s) false s
    coalesce A block s

/-- Changes the size of a block by allocating a new one, copying the data and
freeing the old one. -/
def mmRealloc (oldPtr size : Nat) (refuse : Bool) (s : State) : Option (Nat × State) :=
  if oldPtr = NULL then mmMalloc A size refuse s
  else if size = 0 then do
    let s ← mmFree A oldPtr s
    some (NULL, s)
  else do
    let block := oldPtr - 8
    if roundUp ((8 + 8 + size) % 2 ^ 64) ALIGNMENT ≤ (← getSize A block s) then some (oldPtr, s)
    else do
      let (newPayload, s) ← mmMalloc A size refuse s
      if newPayload = NULL then some (NULL, s)
      else do
        let newBlock := newPayload - 8
        let m ← memcpy A newPayload oldPtr ((← getSize A block s) - 8 - 8) s.toMemlib
        let s ← mmFree A oldPtr { s with toMemlib := m }
        some (newBlock + 8, s)

/-- Allocates a block and sets it to zero. -/
def mmCalloc (nmemb size : Nat) (refuse : Bool) (s : State) : Option (Nat × State) :=
  let totalSize := nmemb * size % 2 ^ 64
  if totalSize = 0 then some (NULL, s)
  else do
    let (payload, s) ← mmMalloc A totalSize refuse s
    let m ← memset A payload 0 totalSize s.toMemlib
    some (payload, { s with toMemlib := m })

end Malloc.Explicit
