import CS24.Malloc.ExplicitZero
import CS24.Malloc.Reuse

/-!
# Sizes that wrap

Adding the tags and rounding up is done in `size_t` arithmetic, before anything
is compared.  From `SIZE_MAX - 30` on (`SIZE_MAX - 22` without footers) the sum
wraps: the request is served with a block of 16 bytes, or of none.  Below that,
every call returns `NULL` or a block with room for the request, and writes
nothing outside the blocks that are its business.
-/

namespace Malloc

open Bytes Tiling System

/-- A call that returned `q` has created no block that is too short: the payload has the
requested size and lies in the heap, all blocks have room for their tags, and nothing was
written outside the heap or in a block in use that the call does not give up. -/
structure SizesSound (A : Arena) (overhead : Nat) (k : Call) (q : Nat) (lib lib' : Memlib) :
    Prop where
  result : ∀ n, k.requested = some n → q ≠ NULL → A.heap ≤ q ∧ q + n ≤ lib'.memBrk ∧
    ∃ cs b, heapBlocks A lib' = some cs ∧ b ∈ cs ∧ b.used = true ∧ q = b.addr + 8 ∧
      n + overhead ≤ b.size
  blocks : ∃ cs, heapBlocks A lib' = some cs ∧
    ∀ b ∈ cs, 16 ≤ b.size ∧ A.heap + 8 ≤ b.addr ∧ b.addr + b.size ≤ lib'.memBrk
  frame : ∃ bs, heapBlocks A lib = some bs ∧ ∀ i, (i < A.heap + 8 ∨ lib'.memBrk ≤ i ∨
    ∃ b ∈ bs, b.used = true ∧ b.addr + 8 ≠ k.released ∧ b.Contains i) → lib'.mem i = lib.mem i

/-- Both allocators get it from what their calls do to the payloads in use. -/
theorem sizesSound_of_covers {A : Arena} {overhead q : Nat} {k : Call} {lib lib' : Memlib}
    {live : Live} {bs cs : List Block} (hover : 8 ≤ overhead ∧ overhead ≤ 16)
    (hbs : heapBlocks A lib = some bs) (hcs : heapBlocks A lib' = some cs)
    (hsize : ∀ b ∈ bs, overhead ≤ b.size)
    (hin : ∀ b ∈ cs, 16 ≤ b.size ∧ A.heap + 8 ≤ b.addr ∧ b.addr + b.size ≤ lib'.memBrk)
    (hl : Covers (payloads overhead cs) (liveAfter live k q))
    (hkeep : KeepsBlocks A overhead (others k.released (payloads overhead bs)) lib lib') :
    SizesSound A overhead k q lib lib' := by
  refine ⟨fun n hn hq => ?_, ⟨cs, hcs, hin⟩, bs, hbs, fun i hi => hkeep i ?_⟩
  · have hmem : (q, n) ∈ liveAfter live k q := by simp [liveAfter, hn, hq]
    obtain ⟨cap, hcap, b, hb, hu, heq⟩ := hl.cap _ hmem
    obtain ⟨rfl, rfl⟩ := Prod.mk.inj heq
    have := hin b hb
    dsimp only at hcap
    exact ⟨by omega, by omega, cs, b, hcs, hb, hu, rfl, by omega⟩
  · refine hi.imp_right (Or.imp_right ?_)
    rintro ⟨b, hb, hu, hne, hlo, hhi⟩
    have := hsize b hb
    refine ⟨b.payload overhead, ⟨⟨b, hb, hu, rfl⟩, hne⟩, ?_⟩
    dsimp only [Block.payload]
    omega

/-- **The explicit allocator** under the condition. -/
theorem Explicit.Holds.sizesSound {A : Arena} {s : Explicit.State} {U : Payloads} {live : Live}
    (h : Explicit.Holds A 16 s U) (hl : Covers U live) {k : Call} {r : Bool}
    (hk : Allowed Explicit.SizeOk live k) (hc : Explicit.Careful A r s k) :
    ∃ q t, (Explicit.allocator A).run k r s = some (q, t) ∧
      SizesSound A Explicit.OVERHEAD k q s.toMemlib t.toMemlib := by
  obtain ⟨q, t, U', hrun, ⟨cs, gl, ht, rfl⟩, hl', hkeep⟩ := h.call hl hk hc
  obtain ⟨bs, fl, hs, rfl⟩ := h
  refine ⟨q, t, hrun, sizesSound_of_covers (by decide) hs.heapBlocks_eq ht.heapBlocks_eq
    hs.overhead_le (fun b hb => ?_) hl' hkeep⟩
  have := ht.size_ge hb
  have := ht.bounds hb
  omega

namespace Implicit

variable {A : Arena} {s t : State} {U : Payloads} {live : Live} {n q : Nat} {r : Bool}

/-- Moving a payload keeps the other blocks in use. -/
theorem Inv.realloc_keeps (hA : A.Mapped) (h : Inv A s U) {e : Nat × Nat} (he : e ∈ U)
    (hn : SizeOk n) (hn0 : n ≠ 0) (hrun : mmRealloc A e.1 n r s = some (q, t)) :
    KeepsBlocks A OVERHEAD (U \ {e}) s.toMemlib t.toMemlib := by
  have C := basicContract hA
  obtain ⟨hn16, -, -, hsize⟩ := blockSize_spec hn
  obtain ⟨k, -, hk, hk16, -⟩ := h.getSize_payload he
  obtain ⟨p, u, hmalloc, hkeep, hres⟩ := mmMalloc_spec hA h r hn
  rw [mmRealloc_eq hA h he r hn hn0] at hrun
  by_cases hfit : blockSize n ≤ e.2 + 8
  · rw [if_pos hfit] at hrun
    obtain ⟨-, rfl⟩ := Prod.mk.inj (Option.some.inj hrun)
    exact .refl _ _
  · rw [if_neg hfit] at hrun
    simp only [Allocator.move, allocator, hmalloc, Option.bind_eq_bind, Option.bind_some] at hrun
    rcases hres with ⟨rfl, hu⟩ | ⟨cap, hcap, hnew, hu⟩
    · obtain ⟨-, rfl⟩ := Prod.mk.inj (Option.some.inj hrun)
      exact hkeep.mono Set.sdiff_subset
    · have hp : p ≠ NULL := (C.placed u _ hu _ (Or.inl rfl)).1
      have hgrow : e.2 ≤ cap := by omega
      simp only [hp, if_false] at hrun
      obtain ⟨m, hcopy, hrun⟩ := Option.bind_eq_some_iff.mp hrun
      obtain ⟨v, hfree, hv⟩ := Option.bind_eq_some_iff.mp hrun
      obtain ⟨-, rfl⟩ := Prod.mk.inj (Option.some.inj hv)
      obtain rfl : (⟨copy u.mem p e.1 e.2, u.memBrk⟩ : Memlib) = m := by
        unfold memcpy at hcopy
        split at hcopy
        · exact Option.some.inj hcopy
        · cases hcopy
      have hw : Inv A { u with mem := copy u.mem p e.1 e.2 } (insert (p, cap) U) :=
        hu.write (Or.inl rfl) fun i hi => copy_other (by dsimp only at hi; omega)
      obtain ⟨v', hfree', -, hkeep3, hbrk⟩ := mmFree_spec hw (Or.inr he)
      obtain rfl : v' = v := Option.some.inj (hfree'.symm.trans hfree)
      obtain ⟨cs, hS, hcs⟩ := hu
      obtain ⟨c, hc, -, hcp⟩ : (p, cap) ∈ payloads OVERHEAD cs := hcs ▸ Or.inl rfl
      have hcsize := hS.sizes c hc
      have hcopied : KeepsBlocks A OVERHEAD (insert (p, cap) U \ {(p, cap)}) u.toMemlib
          ⟨copy u.mem p e.1 e.2, u.memBrk⟩ := by
        rw [hcs, ← hcp]
        refine keepsBlocks_of_inside hS.tiles hS.overhead_le hc fun i hi => copy_other ?_
        obtain ⟨haddr, hsz⟩ := Prod.mk.inj hcp
        unfold Block.Contains at hi
        unfold OVERHEAD at hsz
        omega
      exact hkeep.moved hcopied hkeep3 (fun hpU => hnew _ hpU rfl) rfl hbrk

/-- Every call keeps the other blocks in use. -/
theorem Inv.call_keeps (hA : A.Mapped) (h : Inv A s U) (hl : Covers U live) {k : Call}
    (hk : Allowed SizeOk live k) (hrun : (allocator A).run k r s = some (q, t)) :
    KeepsBlocks A OVERHEAD (others k.released U) s.toMemlib t.toMemlib := by
  have hmalloc {n : Nat} (hn : SizeOk n) (hrun : mmMalloc A n r s = some (q, t)) :
      KeepsBlocks A OVERHEAD U s.toMemlib t.toMemlib := by
    obtain ⟨q', t', hrun', hkeep, -⟩ := mmMalloc_spec hA h r hn
    obtain ⟨-, rfl⟩ := Prod.mk.inj (Option.some.inj (hrun'.symm.trans hrun))
    exact hkeep
  have hfree {p : Nat} (hp : p = NULL ∨ ∃ n, (p, n) ∈ live) (hrun : mmFree A p s = some t) :
      KeepsBlocks A OVERHEAD (others p U) s.toMemlib t.toMemlib := by
    rcases hp with rfl | ⟨n, hmem⟩
    · obtain rfl : s = t := Option.some.inj hrun
      exact .refl _ _
    · obtain ⟨cap, -, hU⟩ := hl.cap _ hmem
      obtain ⟨t', hrun', -, hkeep, -⟩ := mmFree_spec h hU
      obtain rfl : t' = t := Option.some.inj (hrun'.symm.trans hrun)
      exact hkeep.mono others_subset_sdiff
  obtain ⟨hlive, hsize⟩ := hk
  cases k with
  | malloc n => exact (hmalloc (hsize n rfl) hrun).mono others_subset
  | free p =>
      obtain ⟨u, hu, heq⟩ := Option.map_eq_some_iff.mp hrun
      obtain ⟨-, rfl⟩ := Prod.mk.inj heq
      exact hfree hlive hu
  | realloc p n =>
      by_cases hp : p = NULL
      · subst hp
        exact (hmalloc (hsize n rfl) hrun).mono others_subset
      · by_cases hn : n = 0
        · subst hn
          rw [show (allocator A).run (.realloc p 0) r s = _ from
            (sizeContract hA).realloc_zero s p r hp] at hrun
          obtain ⟨u, hu, heq⟩ := Option.map_eq_some_iff.mp hrun
          obtain ⟨-, rfl⟩ := Prod.mk.inj heq
          exact hfree hlive hu
        · obtain ⟨m, hmem⟩ := hlive.resolve_left hp
          obtain ⟨cap, -, hU⟩ := hl.cap _ hmem
          have hreq : (Call.realloc p n).requested = some n := by simp [Call.requested, hn]
          exact (h.realloc_keeps hA hU (hsize n hreq) hn hrun).mono others_subset_sdiff

/-- **The implicit allocator** for all sizes that do not wrap. -/
theorem Inv.sizesSound (hA : A.Mapped) (h : Inv A s U) (hl : Covers U live) {k : Call}
    (hk : Allowed SizeOk live k) :
    ∃ q t, (allocator A).run k r s = some (q, t) ∧
      SizesSound A OVERHEAD k q s.toMemlib t.toMemlib := by
  obtain ⟨q, t, U', hrun, ht, hl', -⟩ := (sizeContract hA).call_ok h hl hk r
  have hkeep := h.call_keeps hA hl hk hrun
  obtain ⟨bs, hs, rfl⟩ := h
  obtain ⟨cs, ht, rfl⟩ := ht
  refine ⟨q, t, hrun, sizesSound_of_covers (by decide) hs.heapBlocks_eq ht.heapBlocks_eq
    hs.overhead_le (fun b hb => ?_) hl' hkeep⟩
  have := ht.sizes b hb
  have := ht.bounds hb
  omega

end Implicit

/-- **No size wraps into a block that is too short**, in every run whose calls meet the
condition: sizes up to `SIZE_MAX - 31` for the explicit allocator, with the condition on
zero-size requests, and up to `SIZE_MAX - 23` for the implicit one. -/
theorem sizes_sound {A : Arena} (hA : A.Mapped) :
    (∀ c, Reach (Starts A (Explicit.allocator A)) (Explicit.CarefulMoves A) c →
      ∀ k r, Allowed Explicit.SizeOk c.live k → Explicit.Careful A r c.heap k →
        ∃ q t, (Explicit.allocator A).run k r c.heap = some (q, t) ∧
          SizesSound A Explicit.OVERHEAD k q c.heap.toMemlib t.toMemlib) ∧
    (∀ c, CallocReachable A (Implicit.allocator A) Implicit.SizeOk c →
      ∀ k r, Allowed Implicit.SizeOk c.live k →
        ∃ q t, (Implicit.allocator A).run k r c.heap = some (q, t) ∧
          SizesSound A Implicit.OVERHEAD k q c.heap.toMemlib t.toMemlib) := by
  constructor
  · intro c h k r hk hc
    obtain ⟨U, hU, hl⟩ := Explicit.holds_of_careful h
    exact hU.sizesSound hl hk hc
  · intro c h k r hk
    have hreach := h.reachable (Implicit.lawful A) fun n hn => Nat.le_trans hn (by decide)
    obtain ⟨U, hU, hl⟩ := (Implicit.sizeContract hA).reachable_inv hreach
    exact hU.sizesSound hA hl hk

theorem sizes_sound_first :
    (∃ q t, (Explicit.allocator lowArena).run (.malloc 0) false Explicit.emptyHeap =
        some (q, t) ∧ SizesSound lowArena Explicit.OVERHEAD (.malloc 0) q
          Explicit.emptyHeap.toMemlib t.toMemlib) ∧
    ∃ q t, (Implicit.allocator lowArena).run (.malloc (SIZE_MAX - 23)) false Implicit.oneBlock =
        some (q, t) ∧ SizesSound lowArena Implicit.OVERHEAD (.malloc (SIZE_MAX - 23)) q
          Implicit.oneBlock.toMemlib t.toMemlib := by
  have hA : lowArena.Mapped := Arena.mapped_mapped _ _ _
  have hreach := Implicit.reachable_oneBlock.mono fun _ hn => Implicit.RequestOk.sizeOk hn
  have hallowed : Allowed Implicit.SizeOk [(4112, 24)] (.malloc (SIZE_MAX - 23)) :=
    ⟨Or.inl rfl, fun n hn => (Option.some.inj hn).symm.le⟩
  exact ⟨(sizes_sound hA).1 ⟨Explicit.emptyHeap, []⟩ (.init Explicit.starts_emptyHeap)
    (.malloc 0) false Explicit.allowed_malloc_zero fun _ => Or.inl rfl,
    (sizes_sound hA).2 _ hreach.calloc _ false hallowed⟩

/-- **Near `SIZE_MAX` the sum wraps**: the first block that `mm_malloc(SIZE_MAX)` creates
has 16 bytes. -/
theorem sizes_unsound :
    ¬ ∀ c, CallocReachable lowArena (Explicit.allocator lowArena) (· ≤ SIZE_MAX) c →
      ∀ n ≤ SIZE_MAX, ∃ q t, (Explicit.allocator lowArena).run (.malloc n) false c.heap =
        some (q, t) ∧ SizesSound lowArena Explicit.OVERHEAD (.malloc n) q
          c.heap.toMemlib t.toMemlib := by
  intro h
  obtain ⟨q, t, hrun, hsound⟩ :=
    h ⟨Explicit.emptyHeap, []⟩ (.init Explicit.starts_emptyHeap) SIZE_MAX (le_refl _)
  have hshort := Explicit.malloc_emptyHeap (show roundUp ((8 + 8 + SIZE_MAX) % 2 ^ 64) ALIGNMENT = 16
    by decide) (by decide) (by decide)
  obtain ⟨rfl, rfl⟩ := Prod.mk.inj (Option.some.inj (hshort.symm.trans hrun))
  obtain ⟨-, hle, -⟩ := hsound.result SIZE_MAX rfl (by decide)
  exact absurd hle (by decide)

end Malloc
