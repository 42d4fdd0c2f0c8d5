import CS24.Malloc.ExplicitCalls

/-!
# Zero-size requests to the explicit allocator

`mm_malloc(0)` asks for a block of 16 bytes: a header and a footer, and no room for the
links of the free list.  Two things can go wrong with such a block.  It can be split off
a longer free block, whose links then lie in the rest; and it can be put into the free
list, where its links overwrite its footer and the block behind.  Apart from these, the
blocks of 16 bytes are blocks like the others, and the heap stays in order.
-/

namespace Malloc.Explicit

open Bytes Links Tiling System

/-- The block before is free.  `coalesce` finds it through its footer. -/
def FreeBefore (A : Arena) (block : Nat) (s : State) : Prop :=
  block ≠ s.mmHeapFirst ∧ ∃ footer, load A (block - 8) s.toMemlib = some footer ∧
    isAllocated A (block - wordSize footer) s = some false

/-- The block behind is free. -/
def FreeBehind (A : Arena) (block : Nat) (s : State) : Prop :=
  block < s.mmHeapLast ∧ ∃ size, getSize A block s = some size ∧
    isAllocated A (block + size) s = some false

/-- The block of the payload has room for links, or a free neighbour. -/
def RoomToFree (A : Arena) (ptr : Nat) (s : State) : Prop :=
  (∃ size, getSize A (ptr - 8) s = some size ∧ minBlockSize ≤ size) ∨
    FreeBefore A (ptr - 8) s ∨ FreeBehind A (ptr - 8) s

/-- The condition on a call: a request of zero bytes does not find a block that can be
split at the head of the free list, and a block that is given up has room for links or a
free neighbour at that time. -/
def Careful (A : Arena) (refuse : Bool) (s : State) : Call → Prop
  | .malloc n => n = 0 → HeadWhole A s
  | .free p => p ≠ NULL → RoomToFree A p s
  | .realloc p n =>
    if p = NULL then n = 0 → HeadWhole A s
    else if n = 0 then RoomToFree A p s
    else ∀ q t, mmMalloc A n refuse s = some (q, t) → q ≠ NULL → RoomToFree A p t

/-- The sizes of valid requests, zero among them. -/
def SizeOk (n : Nat) : Prop := n ≤ SIZE_MAX - 31

/-- The steps of clients that may also make zero-size requests and call `mm_calloc`, when
every call meets the condition. -/
inductive CarefulMoves (A : Arena) : Client State → Client State → Prop
  | call {c : Client State} {k : Call} {r : Bool} {q : Nat} {s : State} :
      Allowed SizeOk c.live k → Careful A r c.heap k →
      (allocator A).run k r c.heap = some (q, s) → CarefulMoves A c ⟨s, liveAfter c.live k q⟩
  | calloc {c : Client State} {nmemb size : Nat} {r : Bool} {q : Nat} {s : State} :
      SizeOk (nmemb * size) → mmCalloc A nmemb size r c.heap = some (q, s) →
      CarefulMoves A c ⟨s, liveAfter c.live (.malloc (nmemb * size)) q⟩
  | write {c : Client State} {p n i : Nat} {b : UInt8} :
      (p, n) ∈ c.live → i < n →
      CarefulMoves A c ⟨{ c.heap with mem := store8 c.heap.mem (p + i) b }, c.live⟩

variable {A : Arena} {least : Nat} {s : State} {U : Payloads} {pre post : List Block}
  {b : Block} {fl : List Nat} {live : Live}

/-- What the code reads about the neighbours of a block is what they are. -/
theorem RoomToFree.hasRoom (h : Settled A least s (pre ++ b :: post) fl)
    (hroom : RoomToFree A (b.addr + 8) s) : HasRoom pre b post := by
  have hb : b ∈ pre ++ b :: post := by simp
  have hmem := h.getSize_mem hb
  rw [RoomToFree, Nat.add_sub_cancel] at hroom
  rcases hroom with ⟨size, hsize, hmin⟩ | ⟨hfirst, footer, hload, halloc⟩ | ⟨hlast, size, hsize, halloc⟩
  · rw [hmem] at hsize
    rw [minBlockSize_eq, ← Option.some.inj hsize] at hmin
    exact Or.inl hmin
  · rcases List.eq_nil_or_concat pre with rfl | ⟨pre, c, rfl⟩
    · exact absurd h.first_eq.symm hfirst
    · simp only [List.concat_eq_append, List.append_assoc, List.singleton_append] at *
      have hc : c ∈ pre ++ c :: b :: post := by simp
      have hcs := h.size_ge hc
      have hcb := h.bounds hc
      have hbrk := h.brk_le
      have hlow := A.heap_low
      have hnext : b.addr = c.addr + c.size := h.tiles.next_addr
      have hword : wordSize c.word = c.size := wordSize_add (by omega) (by omega)
      have hleft : b.addr - c.size = c.addr := by omega
      rw [h.footer_before] at hload
      rw [← Option.some.inj hload, hword, hleft, h.isAllocated_mem hc] at halloc
      exact Or.inr (Or.inl ⟨c, by simp, Option.some.inj halloc⟩)
  · rw [h.last_eq, lt_lastAddr_iff h.tiles h.pos] at hlast
    obtain ⟨c, post, rfl⟩ := List.exists_cons_of_ne_nil hlast
    have hc : c ∈ pre ++ b :: c :: post := by simp
    have hnext : c.addr = b.addr + b.size := h.tiles.next_addr
    rw [hmem] at hsize
    rw [← Option.some.inj hsize, ← hnext, h.isAllocated_mem hc] at halloc
    exact Or.inr (Or.inr ⟨c, by simp, Option.some.inj halloc⟩)

/-- **`mm_free`** under the condition. -/
theorem Holds.free (h : Holds A least s U) {e : Nat × Nat} (he : e ∈ U)
    (hroom : RoomToFree A e.1 s) :
    ∃ t, mmFree A e.1 s = some t ∧ Holds A least t (U \ {e}) ∧
      KeepsBlocks A OVERHEAD (U \ {e}) s.toMemlib t.toMemlib := by
  obtain ⟨bs, fl, h, rfl⟩ := h
  obtain ⟨b, hb, hu, rfl⟩ := he
  obtain ⟨pre, post, rfl⟩ := List.append_of_mem hb
  obtain ⟨t, hrun, ht, hkeep, -⟩ := h.free hu (RoomToFree.hasRoom h hroom)
  exact ⟨t, hrun, ht, hkeep⟩

/-- Copying a payload into a new one and giving it up.  The copy does not change the tags
that the condition is about. -/
theorem Holds.moveInto {p cap : Nat} {e : Nat × Nat} (h : Holds A least s (insert (p, cap) U))
    (he : e ∈ U) (hcap : e.2 ≤ cap) (hnew : ∀ f ∈ U, f.1 ≠ p) (hroom : RoomToFree A e.1 s) :
    ∃ m t, memcpy A p e.1 e.2 s.toMemlib = some m ∧
      mmFree A e.1 { s with toMemlib := m } = some t ∧
      Holds A least t (insert (p, cap) (U \ {e})) ∧ ∀ l : Memlib,
        KeepsBlocks A OVERHEAD U l s.toMemlib → KeepsBlocks A OVERHEAD (U \ {e}) l t.toMemlib := by
  have hbrk := h.brk_le
  obtain ⟨-, -, hplo, hphi⟩ := h.placed _ (Or.inl rfl)
  obtain ⟨-, -, helo, hehi⟩ := h.placed _ (Or.inr he)
  have hdst : Accessible A p e.2 s.toMemlib :=
    accessible_of_le_brk hbrk hplo (by dsimp only at hphi; omega)
  have hsrc : Accessible A e.1 e.2 s.toMemlib := accessible_of_le_brk hbrk helo hehi
  have hne : (p, cap) ≠ e := fun heq => hnew e he (by rw [← heq])
  obtain ⟨bs, fl, h, hU⟩ := h
  obtain ⟨c, hc, huc, hcp⟩ : (p, cap) ∈ payloads OVERHEAD bs := hU ▸ Or.inl rfl
  obtain ⟨b, hb, hu, hbe⟩ : e ∈ payloads OVERHEAD bs := hU ▸ Or.inr he
  obtain ⟨pre, post, rfl⟩ := List.append_of_mem hb
  obtain ⟨hcaddr, hcsize⟩ := Prod.mk.inj hcp
  have hcs := h.size_ge hc
  unfold OVERHEAD at hcsize
  have hcopy : KeepsBlocks A OVERHEAD (insert (p, cap) U \ {(p, cap)}) s.toMemlib
      ⟨copy s.mem p e.1 e.2, s.memBrk⟩ := by
    rw [hU, ← hcp]
    refine keepsBlocks_of_inside h.tiles h.overhead_le hc fun i hi => copy_other ?_
    unfold Block.Contains at hi
    omega
  have hw : Settled A least { s with mem := copy s.mem p e.1 e.2 } (pre ++ b :: post) fl :=
    h.write hc huc fun i hi => copy_other (by omega)
  rw [← hbe] at hroom
  obtain ⟨t, hrun, ht, hfree, hbrk'⟩ := hw.free hu (RoomToFree.hasRoom h hroom)
  have hdiff : insert (p, cap) U \ {e} = insert (p, cap) (U \ {e}) :=
    Set.insert_sdiff_of_notMem _ hne
  rw [hbe, ← hU] at ht hfree
  rw [hdiff] at ht
  have haddr : b.addr + 8 = e.1 := congrArg Prod.fst hbe
  rw [haddr] at hrun
  exact ⟨_, t, by simp [memcpy, hdst, hsrc], hrun, ht, fun l hmalloc =>
    hmalloc.moved hcopy hfree (fun hp => hnew _ hp rfl) rfl hbrk'⟩

/-- **`mm_realloc`** of a payload, under the condition. -/
theorem Holds.realloc (h : Holds A least s U) {e : Nat × Nat} (he : e ∈ U) {n : Nat}
    (refuse : Bool) (hn : n ≤ SIZE_MAX - 31) (hn0 : n ≠ 0)
    (hroom : ∀ q t, mmMalloc A n refuse s = some (q, t) → q ≠ NULL → RoomToFree A e.1 t) :
    ∃ q t, mmRealloc A e.1 n refuse s = some (q, t) ∧
      KeepsBlocks A OVERHEAD (U \ {e}) s.toMemlib t.toMemlib ∧
      ((q = e.1 ∧ n ≤ e.2 ∧ Holds A least t U) ∨ (q = NULL ∧ Holds A least t U) ∨
        ∃ cap, n ≤ cap ∧ (∀ f ∈ U, f.1 ≠ q) ∧ Holds A least t (insert (q, cap) (U \ {e}))) := by
  obtain ⟨hn16, hsize, hsize'⟩ := blockSize_spec hn
  obtain ⟨k, hk, hcap, hk16, hkge⟩ := h.getSize_payload he
  have hne : e.1 ≠ NULL := (h.placed e he).1
  have hround : roundUp ((8 + 8 + n) % 2 ^ 64) ALIGNMENT = blockSize n := rfl
  by_cases hfit : blockSize n ≤ k
  · refine ⟨e.1, s, ?_, .refl _ _, Or.inl ⟨rfl, by omega, h⟩⟩
    simp only [mmRealloc, hne, hn0, if_false, hk, hround, Option.bind_eq_bind, Option.bind_some, hfit,
      if_true]
  · obtain ⟨p, u, hmalloc, hkeep, hres⟩ := h.malloc refuse hn (absurd · hn0) (absurd · hn0)
    rcases hres with ⟨rfl, hu⟩ | ⟨cap, hncap, hnew, hu⟩
    · refine ⟨NULL, u, ?_, hkeep.mono Set.sdiff_subset, Or.inr (Or.inl ⟨rfl, hu⟩)⟩
      simp only [mmRealloc, hne, hn0, if_false, hk, hround, Option.bind_eq_bind, Option.bind_some, hfit,
        hmalloc, if_true]
    · have hp := hu.placed _ (Or.inl rfl)
      obtain ⟨m, t, hcopy, hfree, ht, hmoved⟩ :=
        hu.moveInto he (by omega) hnew (hroom p u hmalloc hp.1)
      obtain ⟨k', hk', hcap', -, -⟩ := hu.getSize_payload (Or.inr he)
      have hlen : k' - 8 - 8 = e.2 := by omega
      have hp8 : p - 8 + 8 = p := by
        have := A.heap_aligned
        have := A.heap_pos
        unfold ALIGNMENT at *
        dsimp only at hp
        omega
      refine ⟨p, t, ?_, hmoved _ hkeep, Or.inr (Or.inr ⟨cap, hncap, hnew, ht⟩)⟩
      simp only [mmRealloc, hne, hn0, if_false, hk, hround, Option.bind_eq_bind, Option.bind_some, hfit,
        hmalloc, hp.1, hk', hlen, hcopy, hfree, hp8]

/-- A request for a new payload. -/
theorem Holds.request (h : Holds A 16 s U) (hl : Covers U live) {n : Nat} (refuse : Bool)
    (hn : SizeOk n) (hhead : n = 0 → HeadWhole A s) :
    ∃ q t U', mmMalloc A n refuse s = some (q, t) ∧ Holds A 16 t U' ∧
      Covers U' (liveAfter live (.malloc n) q) ∧
      KeepsBlocks A OVERHEAD U s.toMemlib t.toMemlib ∧
      (q ≠ NULL → ∃ cap, n ≤ cap ∧ (q, cap) ∈ U') := by
  have hforget : forget NULL live = live := forget_of_not_mem fun e he => by
    obtain ⟨cap, -, hU⟩ := hl.cap e he
    exact (h.placed _ hU).1
  obtain ⟨q, t, hrun, hkeep, hres⟩ := h.malloc refuse hn (fun _ => rfl) hhead
  rcases hres with ⟨rfl, ht⟩ | ⟨cap, hcap, hnew, ht⟩
  · exact ⟨NULL, t, U, hrun, ht, hl, hkeep, absurd rfl⟩
  · have hq : q ≠ NULL := (ht.placed _ (Or.inl rfl)).1
    have hafter : liveAfter live (.malloc n) q = (q, n) :: live := by
      simp [liveAfter, Call.requested, Call.released, hq, hforget]
    exact ⟨q, t, _, hrun, ht, by rw [hafter]; exact hl.insert hcap hnew, hkeep,
      fun _ => ⟨cap, hcap, Or.inl rfl⟩⟩

/-- Giving up a payload, or `NULL`. -/
theorem Holds.release (h : Holds A 16 s U) (hl : Covers U live) {p : Nat}
    (hlive : p = NULL ∨ ∃ n, (p, n) ∈ live) (hroom : p ≠ NULL → RoomToFree A p s) :
    ∃ t U', mmFree A p s = some t ∧ Holds A 16 t U' ∧ Covers U' (forget p live) ∧
      KeepsBlocks A OVERHEAD (others p U) s.toMemlib t.toMemlib := by
  rcases hlive with rfl | ⟨n, hmem⟩
  · have hforget : forget NULL live = live := forget_of_not_mem fun e he => by
      obtain ⟨cap, -, hU⟩ := hl.cap e he
      exact (h.placed _ hU).1
    exact ⟨s, U, rfl, h, hforget.symm ▸ hl, .refl _ _⟩
  · obtain ⟨cap, -, hU⟩ := hl.cap _ hmem
    obtain ⟨t, hrun, ht, hkeep⟩ := h.free hU (hroom (h.placed _ hU).1)
    have huniq : ∀ f ∈ U, f.1 = p → f = (p, cap) := fun f hf heq =>
      (h.apart f hf _ hU).resolve_right fun hne => hne.1 heq
    exact ⟨t, _, hrun, ht, hl.remove huniq, hkeep.mono others_subset_sdiff⟩

/-- **One call** that meets the condition returns, leaves a heap in order and keeps the
other blocks in use. -/
theorem Holds.call (h : Holds A 16 s U) (hl : Covers U live) {k : Call} {r : Bool}
    (hk : Allowed SizeOk live k) (hc : Careful A r s k) :
    ∃ q t U', (allocator A).run k r s = some (q, t) ∧ Holds A 16 t U' ∧
      Covers U' (liveAfter live k q) ∧
      KeepsBlocks A OVERHEAD (others k.released U) s.toMemlib t.toMemlib := by
  obtain ⟨hlive, hsize⟩ := hk
  cases k with
  | malloc n =>
      obtain ⟨q, t, U', hrun, ht, hl', hkeep, -⟩ := h.request hl r (hsize n rfl) hc
      exact ⟨q, t, U', hrun, ht, hl', hkeep.mono others_subset⟩
  | free p =>
      obtain ⟨t, U', hrun, ht, hl', hkeep⟩ := h.release (p := p) hl hlive hc
      exact ⟨NULL, t, U', by simp [Allocator.run, allocator, hrun], ht, hl', hkeep⟩
  | realloc p n =>
      by_cases hp : p = NULL
      · subst hp
        obtain ⟨q, t, U', hrun, ht, hl', hkeep, -⟩ := h.request hl r (hsize n rfl) hc
        exact ⟨q, t, U', hrun, ht, hl', hkeep.mono others_subset⟩
      · simp only [Careful, hp, if_false] at hc
        by_cases hn : n = 0
        · subst hn
          obtain ⟨t, U', hrun, ht, hl', hkeep⟩ :=
            h.release (p := p) hl hlive fun _ => by simpa using hc
          refine ⟨NULL, t, U', ?_, ht, ?_, hkeep⟩
          · simp [Allocator.run, allocator, mmRealloc, hp, hrun]
          · simpa [liveAfter, Call.requested, hp, Call.released] using hl'
        · simp only [hn, if_false] at hc
          have hreq : (Call.realloc p n).requested = some n := by simp [Call.requested, hn]
          obtain ⟨m, hmem⟩ := hlive.resolve_left hp
          obtain ⟨cap0, -, hU⟩ := hl.cap _ hmem
          have huniq : ∀ f ∈ U, f.1 = p → f = (p, cap0) := fun f hf heq =>
            (h.apart f hf _ hU).resolve_right fun hne => hne.1 heq
          obtain ⟨q, t, hrun, hkeep, hres⟩ := h.realloc hU r (hsize n hreq) hn hc
          have hkeep' := hkeep.mono others_subset_sdiff
          rcases hres with ⟨rfl, hfit, ht⟩ | ⟨rfl, ht⟩ | ⟨cap, hcap, hnew, ht⟩
          · refine ⟨q, t, U, hrun, ht, ?_, hkeep'⟩
            simpa [liveAfter, hreq, hp, Call.released] using hl.resize hU hfit huniq
          · refine ⟨NULL, t, U, hrun, ht, ?_, hkeep'⟩
            simpa [liveAfter, hreq] using hl
          · have hq : q ≠ NULL := (ht.placed _ (Or.inl rfl)).1
            refine ⟨q, t, _, hrun, ht, ?_, hkeep'⟩
            simpa [liveAfter, hreq, hq, Call.released] using
              (hl.remove huniq).insert hcap fun f hf => hnew f hf.1

/-- `mm_calloc` that returns leaves a heap in order. -/
theorem Holds.calloc (h : Holds A 16 s U) (hl : Covers U live) {nmemb size q : Nat} {r : Bool}
    {t : State} (hn : SizeOk (nmemb * size)) (hrun : mmCalloc A nmemb size r s = some (q, t)) :
    ∃ U', Holds A 16 t U' ∧ Covers U' (liveAfter live (.malloc (nmemb * size)) q) := by
  have hmod : nmemb * size % 2 ^ 64 = nmemb * size := by
    unfold SizeOk SIZE_MAX at hn
    exact Nat.mod_eq_of_lt (by omega)
  rw [mmCalloc, hmod] at hrun
  generalize nmemb * size = n at *
  by_cases hn0 : n = 0
  · simp only [hn0, if_true, Option.some.injEq, Prod.mk.injEq] at hrun
    obtain ⟨rfl, rfl⟩ := hrun
    exact ⟨U, h, hl⟩
  · obtain ⟨p, u, U', hmalloc, hu, hl', -, hcap⟩ := h.request hl r hn (absurd · hn0)
    simp only [hn0, if_false, hmalloc, Option.bind_eq_bind, Option.bind_some] at hrun
    obtain ⟨m, hset, hm⟩ := Option.bind_eq_some_iff.mp hrun
    obtain ⟨rfl, rfl⟩ := Prod.mk.inj (Option.some.inj hm)
    -- the zeros are written through the payload, which is not `NULL` if this does not trap
    unfold memset at hset
    have hp : p ≠ NULL := by
      intro hp
      have := A.heap_pos
      have hacc : ¬ Accessible A NULL n u.toMemlib := by unfold Accessible NULL; omega
      simp [hp, hn0, hacc] at hset
    obtain ⟨cap, hle, hmem⟩ := hcap hp
    obtain rfl : ({ u.toMemlib with mem := fill u.mem p 0 n } : Memlib) = m := by
      by_cases hacc : n = 0 ∨ Accessible A p n u.toMemlib
      · simpa [hacc] using hset
      · simp [hacc] at hset
    exact ⟨U', hu.write hmem fun i hi => fill_other (by dsimp only at hi; omega), hl'⟩

/-- The heap is in order in every state of a run whose calls meet the condition. -/
theorem holds_of_careful {c : Client State}
    (h : Reach (Starts A (allocator A)) (CarefulMoves A) c) :
    ∃ U, Holds A 16 c.heap U ∧ Covers U c.live := by
  refine h.invariant (I := fun c => ∃ U, Holds A 16 c.heap U ∧ Covers U c.live) ?_ ?_
  · rintro c ⟨s, r, hbrk, hinit, hlive⟩
    obtain ⟨h, -, -⟩ := mmInit_spec hbrk hinit
    exact ⟨∅, ⟨[], [], ⟨⟨by omega, h.brk_le, h.tiles, by simp, h.first_eq, h.last_eq, by simp,
      h.list, by simp, by simp⟩, by simp, by simp⟩, by simp⟩, hlive ▸ Covers.empty⟩
  · rintro c d ⟨U, hU, hl⟩ hstep
    cases hstep with
    | @call k r q t hk hc hrun =>
        obtain ⟨q', t', U', hrun', ht, hl', -⟩ := hU.call hl hk hc
        obtain ⟨rfl, rfl⟩ := Prod.mk.inj (Option.some.inj (hrun.symm.trans hrun'))
        exact ⟨U', ht, hl'⟩
    | calloc hn hrun => exact hU.calloc hl hn hrun
    | @write p n i b hmem hi =>
        obtain ⟨cap, hcap, hcU⟩ := hl.cap _ hmem
        refine ⟨U, hU.write hcU fun j hj => store8_other ?_, hl⟩
        dsimp only at hcap hj
        omega

/-- **All runs** whose calls meet the condition: the heap is in order in every state that
is reached, and there a call that meets the condition returns and leaves a heap in
order. -/
theorem settled_of_careful {c : Client State}
    (h : Reach (Starts A (allocator A)) (CarefulMoves A) c) :
    (∃ bs fl, Settled A 16 c.heap bs fl) ∧
      ∀ k r, Allowed SizeOk c.live k → Careful A r c.heap k →
        ∃ q s bs fl, (allocator A).run k r c.heap = some (q, s) ∧ Settled A 16 s bs fl := by
  obtain ⟨U, hU, hl⟩ := holds_of_careful h
  refine ⟨?_, fun k r hk hc => ?_⟩
  · obtain ⟨bs, fl, hU, -⟩ := hU
    exact ⟨bs, fl, hU⟩
  · obtain ⟨q, t, U', hrun, ⟨bs, fl, ht, -⟩, -⟩ := hU.call hl hk hc
    exact ⟨q, t, bs, fl, hrun, ht⟩

/-- A heap with one block of 16 bytes, in use. -/
def zeroBlock : State := ⟨⟨tagMem (fun _ => 0) 4104 16 true, 4120⟩, 4104, 4104, NULL⟩

theorem malloc_zero : (allocator lowArena).run (.malloc 0) false emptyHeap =
    some (4112, zeroBlock) :=
  malloc_emptyHeap (by decide) (by decide) (by decide)

theorem allowed_malloc_zero : Allowed SizeOk [] (.malloc 0) := by
  refine ⟨Or.inl rfl, fun n hn => ?_⟩
  obtain rfl := Option.some.inj hn
  exact Nat.zero_le _

theorem settled_zeroBlock :
    (∃ bs fl, Settled lowArena 16 zeroBlock bs fl) ∧
      ∀ k r, Allowed SizeOk [(4112, 0)] k → Careful lowArena r zeroBlock k →
        ∃ q s bs fl, (allocator lowArena).run k r zeroBlock = some (q, s) ∧
          Settled lowArena 16 s bs fl := by
  have hstep : CarefulMoves lowArena ⟨emptyHeap, []⟩
      ⟨zeroBlock, liveAfter [] (.malloc 0) 4112⟩ :=
    .call allowed_malloc_zero (fun _ => Or.inl rfl) malloc_zero
  exact settled_of_careful (.step (.init starts_emptyHeap) hstep)

/-- The heap after `mm_init(); mm_free(mm_malloc(0))`: the `left` of the freed block lies
over its footer, and its `right` behind the break. -/
def freedZero : State :=
  ⟨⟨store64 (store64 (tagMem zeroBlock.mem 4104 16 false) 4112 NULL) 4120 NULL, 4120⟩,
    4104, 4104, 4104⟩

theorem free_zero : (allocator lowArena).run (.free 4112) false zeroBlock =
    some (NULL, freedZero) := by
  have hsize : getSize lowArena 4104 zeroBlock = some 16 :=
    getSize_eq (b := ⟨4104, 16, true⟩) (by decide) (tagMem_tagged (by decide) (by decide) (by decide))
      (by decide) (by decide) (by decide) (by decide)
  have hset : setHeader lowArena 4104 16 false zeroBlock =
      some { zeroBlock with mem := tagMem zeroBlock.mem 4104 16 false } :=
    setHeader_eq (by decide) (by decide) (by decide) (by decide)
  have hacc : ∀ a m, 4096 ≤ a → a ≤ 5000 → Accessible lowArena a 8 ⟨m, 4120⟩ := by
    intro a m hlo hhi
    exact ⟨hlo, by simp only [lowArena, Arena.mapped, MAX_HEAP]; omega⟩
  have hleft : ∀ m, store lowArena 4112 NULL ⟨m, 4120⟩ = some ⟨store64 m 4112 NULL, 4120⟩ :=
    fun m => store_eq (hacc 4112 m (by decide) (by decide))
  have hright : ∀ m, store lowArena 4120 NULL ⟨m, 4120⟩ = some ⟨store64 m 4120 NULL, 4120⟩ :=
    fun m => store_eq (hacc 4120 m (by decide) (by decide))
  simp only [Allocator.run, allocator, mmFree, hsize, coalesce, coalesceLeft, coalesceRight,
    zeroBlock, NULL, addFreeNode, setLeft, setRight, State.put] at *
  simp [hleft, hright, freedZero, zeroBlock, NULL, hset]

/-- **The heap does not stay in order** in all runs with zero-size requests. -/
theorem freedZero_unsettled : ∃ c, Reachable lowArena (allocator lowArena) SizeOk c ∧
    ¬ ∃ bs fl, Settled lowArena 16 c.heap bs fl := by
  have hstep1 : Moves (allocator lowArena) SizeOk ⟨emptyHeap, []⟩
      ⟨zeroBlock, liveAfter [] (.malloc 0) 4112⟩ := .call allowed_malloc_zero malloc_zero
  have hlive : liveAfter [] (.malloc 0) 4112 = [(4112, 0)] := by decide
  rw [hlive] at hstep1
  have hfree : Allowed SizeOk [(4112, 0)] (.free 4112) :=
    ⟨Or.inr ⟨0, List.mem_singleton_self _⟩, fun n hn => by cases hn⟩
  have hstep2 : Moves (allocator lowArena) SizeOk ⟨zeroBlock, [(4112, 0)]⟩
      ⟨freedZero, liveAfter [(4112, 0)] (.free 4112) NULL⟩ := .call hfree free_zero
  refine ⟨_, .step (.step (.init starts_emptyHeap) hstep1) hstep2, ?_⟩
  rintro ⟨bs, fl, h⟩
  have htiles : TileHeap 4104 bs 4120 := h.tiles
  cases bs with
  | nil => exact absurd (tiles_nil.mp htiles) (by decide)
  | cons b bs =>
      obtain ⟨haddr, hrest⟩ := tiles_cons.mp htiles
      have hsize := h.size_ge (b := b) (by simp)
      have hle := hrest.le
      obtain ⟨-, hfooter⟩ := h.tagged b (by simp)
      have hat : b.addr + b.size - 8 = 4112 := by omega
      have hzero : load64 freedZero.mem 4112 = NULL := by
        unfold freedZero
        rw [load64_store64_apart (by decide), load64_store64_same (by decide)]
      have hword : b.word = NULL := by rw [← hfooter, hat]; exact hzero
      unfold Block.word NULL at hword
      omega

end Malloc.Explicit
