import CS24.Malloc.ImplicitCalls

/-!
# Where the implicit allocator looks for headers

`coalesce` reads the header behind a free block before it compares its address with
`mm_heap_last`.  Here every access of `coalesce` and `find_fit` to a header is checked: it
traps unless the header lies between `mm_heap_first` and the break.  The checked functions
return what the functions themselves do, unless a header is outside; and that happens just
when the last block is free.
-/

namespace Malloc.Implicit

open Bytes Tiling

/-- The header at `block` lies between the first block and the break. -/
def Inside (block : Nat) (s : State) : Prop := s.mmHeapFirst ≤ block ∧ block + 8 ≤ s.memBrk

instance (block : Nat) (s : State) : Decidable (Inside block s) := by unfold Inside; infer_instance

/-- An access to the header at `block`, which traps if the header is outside. -/
def checked {α : Type} (block : Nat) (s : State) (access : Option α) : Option α :=
  if Inside block s then access else none

section Source

variable (A : Arena)

/-- The part of `find_fit` that splits, checked. -/
def splitFitChecked (curr originalSize size : Nat) (s : State) : Option State := do
  let s ← checked curr s (setHeader A curr size false s)
  let nxt := curr + (← checked curr s (getSize A curr s))
  let s ← checked nxt s (setHeader A nxt (originalSize - size) false s)
  some (if s.mmHeapLast < nxt then { s with mmHeapLast := nxt } else s)

/-- The loop of `find_fit`, checked. -/
def findFitFromChecked (size : Nat) : Nat → Nat → State → Option (Nat × State)
  | 0, _, _ => none
  | fuel + 1, curr, s =>
    if s.mmHeapLast ≠ NULL ∧ curr ≤ s.mmHeapLast then do
      let used ← checked curr s (isAllocated A curr s)
      let originalSize ← checked curr s (getSize A curr s)
      if used = false ∧ size ≤ originalSize then do
        let s ←
          if minBlockSize ≤ originalSize - size then splitFitChecked A curr originalSize size s
          else some s
        some (curr, s)
      else findFitFromChecked size fuel (curr + originalSize) s
    else some (NULL, s)

/-- `find_fit`, checked. -/
def findFitChecked (size : Nat) (s : State) : Option (Nat × State) :=
  findFitFromChecked A size (s.memBrk + 1) s.mmHeapFirst s

/-- The inner loop of `coalesce`, checked. -/
def absorbChecked (curr : Nat) : Nat → Nat → State → Option State
  | 0, _, _ => none
  | fuel + 1, nxt, s => do
    if (← checked nxt s (isAllocated A nxt s)) = false ∧ nxt ≤ s.mmHeapLast ∧
        s.mmHeapLast ≠ NULL then do
      let size := ((← checked curr s (getSize A curr s)) +
        (← checked nxt s (getSize A nxt s))) % 2 ^ 64
      let s ← checked curr s (setHeader A curr size false s)
      absorbChecked curr fuel (curr + (← checked curr s (getSize A curr s))) s
    else some s

/-- The outer loop of `coalesce`, checked. -/
def coalesceFromChecked : Nat → Nat → State → Option State
  | 0, _, _ => none
  | fuel + 1, curr, s =>
    if s.mmHeapLast ≠ NULL ∧ curr ≤ s.mmHeapLast then do
      if (← checked curr s (isAllocated A curr s)) = true then
        coalesceFromChecked fuel (curr + (← checked curr s (getSize A curr s))) s
      else do
        let s ← absorbChecked A curr (s.memBrk + 1) (curr + (← checked curr s (getSize A curr s))) s
        coalesceFromChecked fuel (curr + (← checked curr s (getSize A curr s))) s
    else some s

/-- `coalesce`, checked. -/
def coalesceChecked (s : State) : Option State :=
  coalesceFromChecked A (s.memBrk + 1) s.mmHeapFirst s

end Source

variable {A : Arena} {s t : State} {bs pre post free : List Block} {b c : Block} {n fuel curr nxt : Nat}

/-! ## Without the checks -/

section Erasure

/-- An access that is checked is made. -/
theorem of_checked {α : Type} {access : Option α} {a : α} (h : checked curr s access = some a) :
    access = some a := by
  unfold checked at h
  split at h
  · exact h
  · cases h

/-- So is the loop of one block -/
theorem absorb_of_checked (h : absorbChecked A curr fuel nxt s = some t) :
    absorb A curr fuel nxt s = some t := by
  induction fuel generalizing nxt s with
  | zero => cases h
  | succ fuel ih =>
      rw [absorbChecked, Option.bind_eq_bind, Option.bind_eq_some_iff] at h
      obtain ⟨used, hused, h⟩ := h
      rw [absorb, of_checked hused, Option.bind_eq_bind, Option.bind_some]
      split at h
      · rename_i hcond
        simp only [Option.bind_eq_bind, Option.bind_eq_some_iff] at h
        obtain ⟨m, hm, k, hk, u, hu, l, hl, h⟩ := h
        simp only [if_pos hcond, of_checked hm, of_checked hk, of_checked hu, of_checked hl,
          Option.bind_eq_bind, Option.bind_some]
        exact ih h
      · rename_i hcond
        rw [if_neg hcond, h]

/-- and the loop over the blocks. -/
theorem coalesceFrom_of_checked (h : coalesceFromChecked A fuel curr s = some t) :
    coalesceFrom A fuel curr s = some t := by
  induction fuel generalizing curr s with
  | zero => cases h
  | succ fuel ih =>
      rw [coalesceFromChecked] at h
      rw [coalesceFrom]
      split at h
      · rename_i hcond
        rw [if_pos hcond]
        simp only [Option.bind_eq_bind, Option.bind_eq_some_iff] at h
        obtain ⟨used, hused, h⟩ := h
        rw [of_checked hused, Option.bind_eq_bind, Option.bind_some]
        split at h
        · rename_i htrue
          rw [Option.bind_eq_some_iff] at h
          obtain ⟨m, hm, h⟩ := h
          simp only [if_pos htrue, of_checked hm, Option.bind_eq_bind, Option.bind_some]
          exact ih h
        · rename_i hfalse
          simp only [Option.bind_eq_some_iff] at h
          obtain ⟨m, hm, u, hu, k, hk, h⟩ := h
          simp only [if_neg hfalse, of_checked hm, absorb_of_checked hu, of_checked hk,
            Option.bind_eq_bind, Option.bind_some]
          exact ih h
      · rename_i hcond
        rw [if_neg hcond, h]

/-- What `coalesce` returns when no header is outside. -/
theorem coalesce_of_checked (h : coalesceChecked A s = some t) : coalesce A s = some t :=
  coalesceFrom_of_checked h

end Erasure

/-! ## With the checks -/

namespace Shape

/-- The headers of blocks are inside the heap, -/
theorem inside (h : Shape A s bs) (hb : b ∈ bs) : Inside b.addr s := by
  have hbnd := h.bounds hb
  have hsize := h.sizes b hb
  refine ⟨?_, by omega⟩
  rw [h.first_eq]
  cases bs with
  | nil => cases hb
  | cons c bs =>
      obtain ⟨haddr, -⟩ := tiles_cons.mp h.tiles
      rw [firstAddr_cons, haddr]
      exact hbnd.1

/-- so their bits may be read -/
theorem checked_isAllocated (h : Shape A s bs) (hb : b ∈ bs) :
    checked b.addr s (isAllocated A b.addr s) = some b.used := by
  rw [checked, if_pos (h.inside hb), h.isAllocated_mem hb]

/-- and their sizes. -/
theorem checked_getSize (h : Shape A s bs) (hb : b ∈ bs) :
    checked b.addr s (getSize A b.addr s) = some b.size := by
  rw [checked, if_pos (h.inside hb), h.getSize_mem hb]

end Shape

/-- Behind the last block there is no header. -/
theorem not_inside_brk : ¬ Inside s.memBrk s := fun h => by
  have := h.2
  omega

/-- One turn of the inner loop: the free block behind is taken in. -/
theorem absorbChecked_merge {d : Block} (h : Shape A s (pre ++ b :: d :: post)) (hud : d.used = false) :
    absorbChecked A b.addr (fuel + 1) (b.addr + b.size) s =
      absorbChecked A b.addr fuel (b.addr + (b.size + d.size))
        { s with mem := tagMem s.mem b.addr (b.size + d.size) false } := by
  have hd : d ∈ pre ++ b :: d :: post := by simp
  have hb : b ∈ pre ++ b :: d :: post := by simp
  have hnxt : b.addr + b.size = d.addr := h.tiles.next_addr.symm
  obtain ⟨hrun, hS⟩ := h.merge
  have hlast : s.mmHeapLast ≠ NULL := fun he => by simpa using h.last_null.mp he
  have hle := h.le_last d hd
  have hsize := hS.checked_getSize (b := ⟨b.addr, b.size + d.size, false⟩) (by simp)
  have hset : checked b.addr s (setHeader A b.addr ((b.size + d.size) % 2 ^ 64) false s) =
      some { s with mem := tagMem s.mem b.addr (b.size + d.size) false } := by
    rw [checked, if_pos (h.inside hb), hrun]
  rw [absorbChecked]
  simp only [hnxt, h.checked_isAllocated hd, hud, hle, ne_eq, hlast, not_false_eq_true, and_self,
    if_true, h.checked_getSize hb, h.checked_getSize hd, hset, hsize, Option.bind_eq_bind,
    Option.bind_some]

/-- **The inner loop** stays inside up to the next block in use.  By induction on the free blocks
in between. -/
theorem absorbChecked_used (h : Shape A s (pre ++ b :: (free ++ c :: post))) (hu : b.used = false)
    (hfree : ∀ d ∈ free, d.used = false) (hc : c.used = true) (hfuel : free.length < fuel) :
    ∃ n t, absorbChecked A b.addr fuel (b.addr + b.size) s = some t ∧
      Shape A t (pre ++ ⟨b.addr, n, false⟩ :: c :: post) ∧ t.memBrk = s.memBrk := by
  obtain ⟨fuel, rfl⟩ : ∃ k, fuel = k + 1 := ⟨fuel - 1, by omega⟩
  have hb' : b = ⟨b.addr, b.size, false⟩ := by rw [← hu]
  induction free generalizing b s fuel with
  | nil =>
      have hmem : c ∈ pre ++ b :: c :: post := by simp
      have hnxt : b.addr + b.size = c.addr := h.tiles.next_addr.symm
      refine ⟨b.size, s, ?_, hb' ▸ h, rfl⟩
      simp [absorbChecked, hnxt, h.checked_isAllocated hmem, hc]
  | cons d free ih =>
      have hud : d.used = false := hfree d List.mem_cons_self
      obtain ⟨fuel, rfl⟩ : ∃ k, fuel = k + 1 := ⟨fuel - 1, by simp at hfuel; omega⟩
      obtain ⟨n, t, hrun, hS, hbrk⟩ := ih h.merge.2 rfl (fun e he => hfree e (List.mem_cons_of_mem _ he))
        fuel (by simpa using hfuel) rfl
      exact ⟨n, t, (absorbChecked_merge h hud).trans hrun, hS, hbrk⟩

/-- The inner loop gets outside if there is no block in use behind the free one.  By induction on
the blocks behind. -/
theorem absorbChecked_free (h : Shape A s (pre ++ b :: post)) (hfree : ∀ d ∈ post, d.used = false) :
    absorbChecked A b.addr fuel (b.addr + b.size) s = none := by
  induction post generalizing b s fuel with
  | nil =>
      cases fuel with
      | zero => rfl
      | succ fuel =>
          have hnxt : b.addr + b.size = s.memBrk := h.tiles.last_end
          rw [absorbChecked, hnxt, checked, if_neg not_inside_brk]
          rfl
  | cons d post ih =>
      cases fuel with
      | zero => rfl
      | succ fuel =>
          have hud : d.used = false := hfree d List.mem_cons_self
          rw [absorbChecked_merge h hud]
          exact ih h.merge.2 fun e he => hfree e (List.mem_cons_of_mem _ he)

/-- Blocks are all free, or there is a first one in use. -/
theorem free_or_first_used (bs : List Block) : (∀ d ∈ bs, d.used = false) ∨
    ∃ free c post, bs = free ++ c :: post ∧ (∀ d ∈ free, d.used = false) ∧ c.used = true := by
  induction bs with
  | nil => exact .inl fun _ hd => absurd hd List.not_mem_nil
  | cons b bs ih =>
      cases hu : b.used with
      | true => exact .inr ⟨[], b, bs, rfl, fun _ hd => absurd hd List.not_mem_nil, hu⟩
      | false =>
          rcases ih with hfree | ⟨free, c, post, rfl, hfree, hc⟩
          · exact .inl (List.forall_mem_cons.mpr ⟨hu, hfree⟩)
          · exact .inr ⟨b :: free, c, post, rfl, List.forall_mem_cons.mpr ⟨hu, hfree⟩, hc⟩

/-- The last block is in use, if there is one. -/
def LastUsed (bs : List Block) : Prop := ∀ b ∈ bs.getLast?, b.used = true

/-- **The outer loop** stays inside if the last block is in use, and otherwise it does not.  By
induction on the fuel. -/
theorem coalesceFromChecked_iff (h : Shape A s (pre ++ post)) (hcurr : TileHeap curr post s.memBrk)
    (hfuel : post.length < fuel) :
    (LastUsed post → ∃ bs t, coalesceFromChecked A fuel curr s = some t ∧ Shape A t bs) ∧
      (¬ LastUsed post → coalesceFromChecked A fuel curr s = none) := by
  induction fuel generalizing pre post s curr with
  | zero => omega
  | succ fuel ih =>
      cases post with
      | nil =>
          have hlt := h.last_lt
          obtain rfl : curr = s.memBrk := hcurr
          have hstop : ¬ s.memBrk ≤ s.mmHeapLast := by omega
          refine ⟨fun _ => ⟨pre ++ [], s, by simp [coalesceFromChecked, hstop], h⟩, fun hlast => ?_⟩
          exact absurd (by simp [LastUsed]) hlast
      | cons b post =>
          have hb : b ∈ pre ++ b :: post := by simp
          obtain ⟨rfl, hrest⟩ := tiles_cons.mp hcurr
          have hlast : s.mmHeapLast ≠ NULL := fun he => by simpa using h.last_null.mp he
          have hle := h.le_last b hb
          cases hu : b.used with
          | true =>
              have h' : Shape A s ((pre ++ [b]) ++ post) := by simpa using h
              have hiff : LastUsed (b :: post) ↔ LastUsed post := by
                cases post with
                | nil => simp [LastUsed, hu]
                | cons c post => simp only [LastUsed, List.getLast?_cons_cons]
              have hstep : coalesceFromChecked A (fuel + 1) b.addr s =
                  coalesceFromChecked A fuel (b.addr + b.size) s := by
                simp [coalesceFromChecked, hlast, hle, h.checked_isAllocated hb, hu,
                  h.checked_getSize hb]
              rw [hstep, hiff]
              exact ih h' hrest (by simpa using hfuel)
          | false =>
              have hstep : coalesceFromChecked A (fuel + 1) b.addr s =
                  (absorbChecked A b.addr (s.memBrk + 1) (b.addr + b.size) s).bind fun t =>
                    (checked b.addr t (getSize A b.addr t)).bind fun k =>
                      coalesceFromChecked A fuel (b.addr + k) t := by
                simp [coalesceFromChecked, hlast, hle, h.checked_isAllocated hb, hu,
                  h.checked_getSize hb]
              rw [hstep]
              rcases free_or_first_used post with hfree | ⟨free, c, post, rfl, hfree, hc⟩
              · rw [absorbChecked_free h hfree]
                refine ⟨fun hused => ?_, fun _ => rfl⟩
                have hlast' := hused _ (List.getLast?_eq_some_getLast (List.cons_ne_nil b post))
                rcases List.mem_cons.mp (List.getLast_mem (List.cons_ne_nil b post)) with heq | hmem
                · rw [heq, hu] at hlast'
                  cases hlast'
                · rw [hfree _ hmem] at hlast'
                  cases hlast'
              · have hlength := h.length_lt
                simp only [List.length_append, List.length_cons] at hlength hfuel
                obtain ⟨n, t, hrun, hS, hbrk⟩ := absorbChecked_used h hu hfree hc
                  (show free.length < s.memBrk + 1 by omega)
                have hiff : LastUsed (b :: (free ++ c :: post)) ↔ LastUsed (c :: post) := by
                  rw [LastUsed, LastUsed, ← List.cons_append,
                    List.getLast?_append_of_ne_nil _ (List.cons_ne_nil c post)]
                have hsize := hS.checked_getSize (b := ⟨b.addr, n, false⟩) (by simp)
                have hS' : Shape A t ((pre ++ [⟨b.addr, n, false⟩]) ++ c :: post) := by simpa using hS
                rw [hrun, hiff, Option.bind_some, hsize, Option.bind_some]
                exact ih hS' hS.tiles.rest (by simp only [List.length_cons]; omega)

/-- **`coalesce`** accesses only headers inside exactly if the last block is in use. -/
theorem coalesceChecked_iff (h : Shape A s bs) :
    (LastUsed bs → ∃ bs' t, coalesceChecked A s = some t ∧ Shape A t bs') ∧
      (¬ LastUsed bs → coalesceChecked A s = none) := by
  cases bs with
  | nil =>
      have hlast := h.last_null.mpr rfl
      refine ⟨fun _ => ⟨[], s, by simp [coalesceChecked, coalesceFromChecked, hlast], h⟩, fun hnot => ?_⟩
      exact absurd (by simp [LastUsed]) hnot
  | cons b bs =>
      have hfirst : s.mmHeapFirst = b.addr := h.first_eq
      obtain ⟨haddr, -⟩ := tiles_cons.mp h.tiles
      have hall : Shape A s ([] ++ b :: bs) := h
      refine coalesceFromChecked_iff hall ?_ h.length_lt
      rw [hfirst, haddr]
      exact h.tiles

/-- Splitting accesses two headers inside the block. -/
theorem splitFitChecked_eq (h : Shape A s bs) (hb : b ∈ bs) (hn : 16 ≤ n) (hfit : n + 16 ≤ b.size)
    (heven : n % 2 = 0) : splitFitChecked A b.addr b.size n s = splitFit A b.addr b.size n s := by
  have hbnd := h.bounds hb
  have hinside := h.inside hb
  have hset : setHeader A b.addr n false s = some { s with mem := tagMem s.mem b.addr n false } :=
    setHeader_eq h.brk_le (by omega) (by omega)
  have hget : getSize A b.addr { s with mem := tagMem s.mem b.addr n false } = some n := by
    have hacc : Accessible A b.addr 8 ⟨tagMem s.mem b.addr n false, s.memBrk⟩ :=
      accessible_of_le_brk h.brk_le (by omega) (by dsimp only; omega)
    have hlt : n < 2 ^ 64 := by omega
    have hword : wordSize (Block.mk b.addr n false).word = n := wordSize_add heven hlt
    simp [getSize, load_eq hacc, tagMem_same heven (show n < 2 ^ 63 by omega), hword]
  have hfirst : Inside b.addr { s with mem := tagMem s.mem b.addr n false } := hinside
  have hrest : Inside (b.addr + n) { s with mem := tagMem s.mem b.addr n false } :=
    ⟨hinside.1.trans (Nat.le_add_right _ _), by dsimp only; omega⟩
  simp [splitFitChecked, splitFit, checked, hinside, hset, hget, hfirst, hrest]

/-- The loop of `find_fit` stays inside.  By induction on the blocks still to be visited. -/
theorem findFitFromChecked_eq (h : Shape A s (pre ++ post)) (hcurr : TileHeap curr post s.memBrk)
    (hn16 : n % 16 = 0) (hn : 16 ≤ n) (hfuel : post.length < fuel) :
    findFitFromChecked A n fuel curr s = findFitFrom A n fuel curr s := by
  obtain ⟨fuel, rfl⟩ : ∃ k, fuel = k + 1 := ⟨fuel - 1, by omega⟩
  induction post generalizing pre curr fuel with
  | nil =>
      have hlt := h.last_lt
      obtain rfl : curr = s.memBrk := hcurr
      have hstop : ¬ s.memBrk ≤ s.mmHeapLast := by omega
      simp [findFitFromChecked, findFitFrom, hstop]
  | cons b post ih =>
      have hb : b ∈ pre ++ b :: post := by simp
      obtain ⟨rfl, hrest⟩ := tiles_cons.mp hcurr
      obtain ⟨fuel, rfl⟩ : ∃ k, fuel = k + 1 := ⟨fuel - 1, by simp at hfuel; omega⟩
      have h' : Shape A s ((pre ++ [b]) ++ post) := by simpa using h
      have hnext := ih h' hrest fuel (by simpa using hfuel)
      have hsplit (hfit : minBlockSize ≤ b.size - n) :
          splitFitChecked A b.addr b.size n s = splitFit A b.addr b.size n s :=
        splitFitChecked_eq h hb hn (by rw [minBlockSize_eq] at hfit; omega) (by omega)
      rw [findFitFromChecked, findFitFrom, h.checked_isAllocated hb, h.checked_getSize hb,
        h.isAllocated_mem hb, h.getSize_mem hb]
      simp only [Option.bind_eq_bind, Option.bind_some, hnext]
      split
      · split
        · split
          · rw [hsplit ‹_›]
          · rfl
        · rfl
      · rfl

/-- **`find_fit`** accesses only headers inside. -/
theorem findFitChecked_eq (h : Shape A s bs) (hn16 : n % 16 = 0) (hn : 16 ≤ n) :
    findFitChecked A n s = findFit A n s := by
  cases bs with
  | nil =>
      have hlast := h.last_null.mpr rfl
      simp [findFitChecked, findFitFromChecked, findFit, findFitFrom, hlast]
  | cons b bs =>
      have hfirst : s.mmHeapFirst = b.addr := h.first_eq
      obtain ⟨haddr, -⟩ := tiles_cons.mp h.tiles
      have hall : Shape A s ([] ++ b :: bs) := h
      refine findFitFromChecked_eq hall ?_ hn16 hn h.length_lt
      rw [hfirst, haddr]
      exact h.tiles

/-! ## All reachable heaps -/

/-- The last block that a traversal visits is in use, if it visits any. -/
def LastInUse (A : Arena) (s : State) : Prop :=
  ∀ blocks, traversal A (s.memBrk + 1) s.mmHeapFirst s = some blocks →
    ∀ block ∈ blocks.getLast?, isAllocated A block s = some true

/-- The last block is in use, said by its header and by the list of blocks. -/
theorem Shape.lastInUse_iff (h : Shape A s bs) : LastInUse A s ↔ LastUsed bs := by
  rw [LastInUse, traversal_spec h]
  simp only [Option.some.injEq, forall_eq', List.getLast?_map, LastUsed]
  cases hlast : bs.getLast? with
  | none => simp
  | some b =>
      have hb := h.isAllocated_mem (List.mem_of_getLast? hlast)
      simp [hb]

/-- **Headers inside the heap.** In every heap that clients can reach, and for every size that
they may request, all headers that `coalesce` and then `find_fit` read or write lie between
`mm_heap_first` and the break exactly if the last block is in use. -/
theorem headers_inside_iff {c : Client State} (hA : A.Mapped)
    (h : Reachable A (allocator A) RequestOk c) (hn : RequestOk n) :
    (∃ s q t, coalesceChecked A c.heap = some s ∧ findFitChecked A (blockSize n) s = some (q, t)) ↔
      LastInUse A c.heap := by
  obtain ⟨U, ⟨bs, hS, -⟩, -⟩ := (contract hA).reachable_inv h
  obtain ⟨hinside, houtside⟩ := coalesceChecked_iff hS
  obtain ⟨hn16, hn, -⟩ := blockSize_spec hn.sizeOk
  rw [hS.lastInUse_iff]
  constructor
  · rintro ⟨s, q, t, hrun, -⟩
    by_contra hlast
    rw [houtside hlast] at hrun
    cases hrun
  · intro hlast
    obtain ⟨bs', s, hrun, hS'⟩ := hinside hlast
    obtain ⟨q, t, hfit, -⟩ := findFit_spec hS' hn16 hn
    refine ⟨s, q, t, hrun, ?_⟩
    rw [findFitChecked_eq hS' hn16 hn, hfit]

/-- A heap of one block, which is in use. -/
theorem headers_inside_oneBlock :
    (∃ s q t, coalesceChecked lowArena oneBlock = some s ∧
      findFitChecked lowArena (blockSize 24) s = some (q, t)) ↔ LastInUse lowArena oneBlock :=
  headers_inside_iff (Arena.mapped_mapped _ _ _) reachable_oneBlock (by decide)

/-- It is a heap of this block. -/
theorem oneBlock_shape : Shape lowArena oneBlock [⟨4104, 32, true⟩] where
  brk_le := by decide
  tiles := ⟨rfl, rfl⟩
  sizes := by simp
  first_eq := rfl
  last_null := by simp [oneBlock, NULL]
  le_last := by simp [oneBlock]
  last_lt := by decide
  tagged := by
    intro b hb
    obtain rfl := List.mem_singleton.mp hb
    exact tagMem_same (by decide) (by decide)

/-- The heap after its one block is freed. -/
def freeBlock : State := { oneBlock with mem := tagMem oneBlock.mem 4104 32 false }

/-- **The last block free.** After `mm_malloc(24)` and `mm_free`, the next `coalesce` reads a header
at the break. -/
theorem freeBlock_reads_outside :
    Reachable lowArena (allocator lowArena) RequestOk ⟨freeBlock, []⟩ ∧
      (∃ s, coalesce lowArena freeBlock = some s) ∧ coalesceChecked lowArena freeBlock = none := by
  have hone : Shape lowArena oneBlock ([] ++ ⟨4104, 32, true⟩ :: []) := oneBlock_shape
  obtain ⟨hset, hS⟩ := hone.setUsed false
  have hrun : (allocator lowArena).run (.free 4112) false oneBlock = some (NULL, freeBlock) := by
    have hsize := oneBlock_shape.getSize_mem (b := ⟨4104, 32, true⟩) (by simp)
    simp only [Allocator.run, allocator, mmFree, hsize, NULL]
    simp only [Option.bind_eq_bind, Option.bind_some]
    rw [if_neg (by decide), hset]
    rfl
  have hstep : Moves (allocator lowArena) RequestOk ⟨oneBlock, [(4112, 24)]⟩
      ⟨freeBlock, liveAfter [(4112, 24)] (.free 4112) NULL⟩ :=
    .call ⟨.inr ⟨24, List.mem_singleton.mpr rfl⟩, fun n hn => by cases hn⟩ hrun
  refine ⟨.step reachable_oneBlock hstep, ?_, ?_⟩
  · obtain ⟨bs, t, hcoalesce, -⟩ := coalesce_spec (Arena.mapped_mapped _ _ _) hS
    exact ⟨t, hcoalesce⟩
  · exact (coalesceChecked_iff hS).2 (by simp [LastUsed])

end Malloc.Implicit
