import CS24.Lib.System
import CS24.Malloc.Memlib

/-!
# The allocators as their clients see them

`mm.h` as an interface, the runs a correct client may make, and what the client
is owed: payloads that are aligned, inside the heap and apart from each other,
and bytes that nobody but the client changes.  Both allocators owe it, and both
pay it through the same argument: `Contract` says what each call does to the set
of payloads in use, each with its full capacity, and `Contract.served` turns
that into the client's guarantee for whole runs.
-/

namespace Malloc

open Bytes System

/-- The functions of `mm.h` on allocator states `σ`.  `withMem` is a client's
write: it replaces the memory and no variable of the allocator. -/
structure Allocator (σ : Type) where
  lib : σ → Memlib
  withMem : σ → Mem → σ
  init : Bool → σ → Bool × σ
  malloc : Nat → Bool → σ → Option (Nat × σ)
  free : Nat → σ → Option σ
  realloc : Nat → Nat → Bool → σ → Option (Nat × σ)

/-- A call a client makes. -/
inductive Call
  | malloc (size : Nat)
  | free (ptr : Nat)
  | realloc (ptr size : Nat)
  deriving DecidableEq, Repr

namespace Call

/-- The pointer the call gives up, `NULL` for none. -/
def released : Call → Nat
  | malloc _ => NULL
  | free p => p
  | realloc p _ => p

/-- The number of bytes the call asks for, if it asks for a payload. -/
def requested : Call → Option Nat
  | malloc n => some n
  | free _ => none
  | realloc p n => if p ≠ NULL ∧ n = 0 then none else some n

end Call

/-- Run a call; the second argument lets `mem_sbrk` refuse.  `mm_free` returns
nothing, which is `NULL` here. -/
def Allocator.run {σ : Type} (M : Allocator σ) : Call → Bool → σ → Option (Nat × σ)
  | .malloc n, r, s => M.malloc n r s
  | .free p, _, s => (M.free p s).map fun s => (NULL, s)
  | .realloc p n, r, s => M.realloc p n r s

/-- The live pointers with the number of bytes requested for each. -/
abbrev Live := List (Nat × Nat)

/-- A pointer is not live any more. -/
def forget (p : Nat) (live : Live) : Live := live.filter fun e => e.1 ≠ p

/-- The live pointers after a call that returned `q`. -/
def liveAfter (live : Live) (k : Call) (q : Nat) : Live :=
  match k.requested with
  | none => forget k.released live
  | some n => if q = NULL then live else (q, n) :: forget k.released live

/-- The calls a correct client may make, when `sizes` are the sizes it may
request: it frees or reallocates only `NULL` and live pointers. -/
def Allowed (sizes : Nat → Prop) (live : Live) (k : Call) : Prop :=
  (k.released = NULL ∨ ∃ n, (k.released, n) ∈ live) ∧ ∀ n, k.requested = some n → sizes n

/-- A state of the client and its heap. -/
structure Client (σ : Type) where
  heap : σ
  live : Live

section Runs

variable {σ : Type} (A : Arena) (M : Allocator σ) (sizes : Nat → Prop)

/-- The memory is reset to an empty heap, whatever it contains, and `mm_init`
succeeds. -/
def Starts (c : Client σ) : Prop :=
  ∃ s r, (M.lib s).memBrk = A.heap ∧ M.init r s = (true, c.heap) ∧ c.live = []

/-- One step of a client: an allowed call that returns, or a write to a byte of
a live payload. -/
inductive Moves : Client σ → Client σ → Prop
  | call {c : Client σ} {k : Call} {r : Bool} {q : Nat} {s : σ} :
      Allowed sizes c.live k → M.run k r c.heap = some (q, s) →
      Moves c ⟨s, liveAfter c.live k q⟩
  | write {c : Client σ} {p n i : Nat} {b : UInt8} :
      (p, n) ∈ c.live → i < n →
      Moves c ⟨M.withMem c.heap (store8 (M.lib c.heap).mem (p + i) b), c.live⟩

/-- The states that clients can reach. -/
abbrev Reachable : Client σ → Prop := Reach (Starts A M) (Moves M sizes)

end Runs

/-- Two memories agree on the requested bytes of a payload. -/
def SameBytes (m m' : Mem) (e : Nat × Nat) : Prop := ∀ i, i < e.2 → m' (e.1 + i) = m (e.1 + i)

/-- All live payloads are aligned, inside the heap, and apart from each other. -/
structure LiveOk (A : Arena) (lib : Memlib) (live : Live) : Prop where
  placed : ∀ e ∈ live, e.1 % ALIGNMENT = 0 ∧ A.heap ≤ e.1 ∧ e.1 + e.2 ≤ lib.memBrk
  apart : live.Pairwise fun e f => e.1 ≠ f.1 ∧ Apart e.1 e.2 f.1 f.2

/-- What a client is owed by one call that took `lib` to `lib'` and returned
`q`. -/
structure CallOk (A : Arena) (live : Live) (k : Call) (q : Nat) (lib lib' : Memlib) : Prop where
  /-- a returned payload is aligned, inside the heap and apart from the others -/
  result : ∀ n, k.requested = some n → q ≠ NULL →
    q % ALIGNMENT = 0 ∧ A.heap ≤ q ∧ q + n ≤ lib'.memBrk ∧
      ∀ e ∈ forget k.released live, Apart q n e.1 e.2
  /-- no requested byte of a payload that is not given up changes -/
  frame : ∀ e ∈ forget k.released live, SameBytes lib.mem lib'.mem e
  /-- a reallocated payload starts with the old bytes -/
  copied : ∀ m, (k.released, m) ∈ live → ∀ n, k.requested = some n → q ≠ NULL →
    ∀ i, i < min m n → lib'.mem (q + i) = lib.mem (k.released + i)
  /-- a request that fails leaves every payload live and unchanged -/
  failed : ∀ n, k.requested = some n → q = NULL →
    liveAfter live k q = live ∧ ∀ e ∈ live, SameBytes lib.mem lib'.mem e

/-- **The client's guarantee** in one state: the live payloads are in order, and
every allowed call returns and does what it owes. -/
structure Served {σ : Type} (A : Arena) (M : Allocator σ) (sizes : Nat → Prop)
    (c : Client σ) : Prop where
  live : LiveOk A (M.lib c.heap) c.live
  calls : ∀ k r, Allowed sizes c.live k → ∃ q s, M.run k r c.heap = some (q, s) ∧
    CallOk A c.live k q (M.lib c.heap) (M.lib s)

/-- A set of payloads in use, each with its capacity. -/
abbrev Payloads := Set (Nat × Nat)

/-- No byte of a payload in `U` differs. -/
def Preserves (U : Payloads) (m m' : Mem) : Prop := ∀ e ∈ U, SameBytes m m' e

/-- What `init`, `malloc`, `free` and a client's write do to the payloads in use,
under an invariant `Inv` of the allocator's states. -/
structure BasicContract {σ : Type} (A : Arena) (M : Allocator σ) (sizes : Nat → Prop)
    (Inv : σ → Payloads → Prop) : Prop where
  init : ∀ r s t, (M.lib s).memBrk = A.heap → M.init r s = (true, t) → Inv t ∅
  brk_le : ∀ s U, Inv s U → (M.lib s).memBrk ≤ A.heap + MAX_HEAP
  placed : ∀ s U, Inv s U → ∀ e ∈ U,
    e.1 ≠ NULL ∧ e.1 % ALIGNMENT = 0 ∧ A.heap ≤ e.1 ∧ e.1 + e.2 ≤ (M.lib s).memBrk
  apart : ∀ s U, Inv s U → ∀ e ∈ U, ∀ f ∈ U, e = f ∨ (e.1 ≠ f.1 ∧ Apart e.1 e.2 f.1 f.2)
  lib_withMem : ∀ s m, M.lib (M.withMem s m) = { M.lib s with mem := m }
  write : ∀ s U, Inv s U → ∀ e ∈ U, ∀ m,
    (∀ i, i < e.1 ∨ e.1 + e.2 ≤ i → m i = (M.lib s).mem i) → Inv (M.withMem s m) U
  malloc : ∀ s U, Inv s U → ∀ n r, sizes n → ∃ q t, M.malloc n r s = some (q, t) ∧
    Preserves U (M.lib s).mem (M.lib t).mem ∧
    ((q = NULL ∧ Inv t U) ∨ ∃ cap, n ≤ cap ∧ (∀ e ∈ U, e.1 ≠ q) ∧ Inv t (insert (q, cap) U))
  free_null : ∀ s, M.free NULL s = some s
  free : ∀ s U, Inv s U → ∀ e ∈ U, ∃ t, M.free e.1 s = some t ∧ Inv t (U \ {e}) ∧
    Preserves (U \ {e}) (M.lib s).mem (M.lib t).mem

/-- Reallocating `e` failed, or moved it to `q` with at least `n` bytes. -/
def Moved {σ : Type} (M : Allocator σ) (Inv : σ → Payloads → Prop) (U : Payloads)
    (e : Nat × Nat) (n : Nat) (s : σ) (q : Nat) (t : σ) : Prop :=
  (q = NULL ∧ Inv t U ∧ Preserves U (M.lib s).mem (M.lib t).mem) ∨
    ∃ cap, n ≤ cap ∧ (∀ f ∈ U, f.1 ≠ q) ∧ Inv t (insert (q, cap) (U \ {e})) ∧
      Preserves (U \ {e}) (M.lib s).mem (M.lib t).mem ∧
      ∀ i, i < min e.2 cap → (M.lib t).mem (q + i) = (M.lib s).mem (e.1 + i)

/-- What every function of an allocator does to the payloads in use. -/
structure Contract {σ : Type} (A : Arena) (M : Allocator σ) (sizes : Nat → Prop)
    (Inv : σ → Payloads → Prop) : Prop extends BasicContract A M sizes Inv where
  realloc_null : ∀ s n r, M.realloc NULL n r s = M.malloc n r s
  realloc_zero : ∀ s p r, p ≠ NULL →
    M.realloc p 0 r s = (M.free p s).map fun t => (NULL, t)
  realloc : ∀ s U, Inv s U → ∀ e ∈ U, ∀ n r, sizes n → n ≠ 0 →
    ∃ q t, M.realloc e.1 n r s = some (q, t) ∧
      ((q = e.1 ∧ n ≤ e.2 ∧ Inv t U ∧ Preserves U (M.lib s).mem (M.lib t).mem) ∨
        Moved M Inv U e n s q t)

/-- The payloads in use are exactly the live ones, with room for the requests. -/
structure Covers (U : Payloads) (live : Live) : Prop where
  cap : ∀ e ∈ live, ∃ cap, e.2 ≤ cap ∧ (e.1, cap) ∈ U
  live_of_mem : ∀ e ∈ U, ∃ n, (e.1, n) ∈ live
  distinct : live.Pairwise fun e f => e.1 ≠ f.1

/-- The other pointers are still live. -/
theorem mem_forget {p : Nat} {live : Live} {e : Nat × Nat} :
    e ∈ forget p live ↔ e ∈ live ∧ e.1 ≠ p := by simp [forget]

/-- A pointer that is not live need not be forgotten. -/
theorem forget_of_not_mem {p : Nat} {live : Live} (h : ∀ e ∈ live, e.1 ≠ p) :
    forget p live = live := by
  simpa [forget, List.filter_eq_self] using h

/-- The bytes of a request are among those of its payload. -/
theorem Preserves.sameBytes {U : Payloads} {m m' : Mem} (h : Preserves U m m') {p n cap : Nat}
    (hmem : (p, cap) ∈ U) (hn : n ≤ cap) : SameBytes m m' (p, n) :=
  fun i hi => h (p, cap) hmem i (lt_of_lt_of_le hi hn)

namespace Covers

variable {U : Payloads} {live : Live}

/-- No pointer is live at first. -/
theorem empty : Covers ∅ [] := ⟨by simp, by simp, by simp⟩

/-- A new payload becomes live. -/
theorem insert {q n cap : Nat} (h : Covers U live) (hn : n ≤ cap) (hnew : ∀ e ∈ U, e.1 ≠ q) :
    Covers (insert (q, cap) U) ((q, n) :: live) := by
  refine ⟨?_, ?_, ?_⟩
  · intro e he
    rcases List.mem_cons.mp he with rfl | he
    · exact ⟨cap, hn, Or.inl rfl⟩
    · obtain ⟨c, hc, hU⟩ := h.cap e he
      exact ⟨c, hc, Or.inr hU⟩
  · rintro e (rfl | he)
    · exact ⟨n, by simp⟩
    · obtain ⟨k, hk⟩ := h.live_of_mem e he
      exact ⟨k, by simp [hk]⟩
  · refine List.pairwise_cons.mpr ⟨fun e he heq => ?_, h.distinct⟩
    obtain ⟨c, -, hU⟩ := h.cap e he
    exact hnew _ hU heq.symm

/-- A payload stops being live. -/
theorem remove {e : Nat × Nat} (h : Covers U live) (huniq : ∀ f ∈ U, f.1 = e.1 → f = e) :
    Covers (U \ {e}) (forget e.1 live) := by
  refine ⟨?_, ?_, h.distinct.sublist List.filter_sublist⟩
  · intro f hf
    obtain ⟨hf, hne⟩ := mem_forget.mp hf
    obtain ⟨c, hc, hU⟩ := h.cap f hf
    exact ⟨c, hc, hU, fun he => hne (by rw [← Set.mem_singleton_iff.mp he])⟩
  · rintro f ⟨hf, hne⟩
    obtain ⟨n, hn⟩ := h.live_of_mem f hf
    refine ⟨n, mem_forget.mpr ⟨hn, fun he => hne ?_⟩⟩
    exact huniq f hf he

/-- The request recorded for a payload changes, within its capacity. -/
theorem resize {e : Nat × Nat} {n : Nat} (h : Covers U live) (he : e ∈ U) (hn : n ≤ e.2)
    (huniq : ∀ f ∈ U, f.1 = e.1 → f = e) : Covers U ((e.1, n) :: forget e.1 live) := by
  have hins := (h.remove huniq).insert (q := e.1) hn fun f hf heq => hf.2 (huniq f hf.1 heq)
  have hU : Insert.insert (e.1, e.2) (U \ {e}) = U := by
    ext f
    by_cases hfe : f = e
    · subst hfe
      simp [he]
    · simp [hfe]
  rwa [hU] at hins

end Covers

/-- Reallocation by allocating, copying `len` bytes and freeing. -/
def Allocator.move {σ : Type} (A : Arena) (M : Allocator σ) (p n len : Nat) (r : Bool) (s : σ) :
    Option (Nat × σ) := do
  let (q, s) ← M.malloc n r s
  if q = NULL then some (NULL, s)
  else do
    let m ← memcpy A q p len (M.lib s)
    let s ← M.free p (M.withMem s m.mem)
    some (q, s)

/-- **Moving a payload**: the copy fits, because the payload was too small for
the request, and it does not touch the other payloads. -/
theorem BasicContract.move {σ : Type} {A : Arena} {M : Allocator σ} {sizes : Nat → Prop}
    {Inv : σ → Payloads → Prop} (C : BasicContract A M sizes Inv) {s : σ} {U : Payloads}
    (h : Inv s U) {e : Nat × Nat} (he : e ∈ U) {n : Nat} (r : Bool) (hn : sizes n)
    (hgrow : e.2 ≤ n) :
    ∃ q t, M.move A e.1 n e.2 r s = some (q, t) ∧ Moved M Inv U e n s q t := by
  obtain ⟨q, t, hmalloc, hpres, hres⟩ := C.malloc s U h n r hn
  rcases hres with ⟨rfl, ht⟩ | ⟨cap, hcap, hnew, ht⟩
  · exact ⟨NULL, t, by simp [Allocator.move, hmalloc], Or.inl ⟨rfl, ht, hpres⟩⟩
  have heU : e ∈ insert (q, cap) U := Or.inr he
  have hqU : (q, cap) ∈ insert (q, cap) U := Or.inl rfl
  have hbrk := C.brk_le t _ ht
  obtain ⟨hq0, -, hqlo, hqhi⟩ := C.placed t _ ht _ hqU
  obtain ⟨-, -, helo, hehi⟩ := C.placed t _ ht _ heU
  have hne : (q, cap) ≠ e := fun he' => hnew e he (by rw [← he'])
  have hdst : Accessible A q e.2 (M.lib t) :=
    accessible_of_le_brk hbrk hqlo (by dsimp only at hqhi; omega)
  have hsrc : Accessible A e.1 e.2 (M.lib t) := accessible_of_le_brk hbrk helo hehi
  have hw := C.write t _ ht (q, cap) hqU (copy (M.lib t).mem q e.1 e.2)
    fun i hi => copy_other (by dsimp only at hi; omega)
  obtain ⟨u, hfree, hu, hkeep⟩ := C.free _ _ hw e heU
  have hU : insert (q, cap) U \ {e} = insert (q, cap) (U \ {e}) :=
    Set.insert_sdiff_of_notMem _ hne
  rw [hU] at hu hkeep
  rw [C.lib_withMem] at hkeep
  refine ⟨q, u, ?_, Or.inr ⟨cap, hcap, hnew, hu, fun f hf i hi => ?_, fun i hi => ?_⟩⟩
  · simp [Allocator.move, hmalloc, hq0, memcpy, hdst, hsrc, hfree]
  · have hfq := (C.apart t _ ht _ hqU f (Or.inr hf.1)).resolve_left
      fun hq => hnew f hf.1 (by rw [← hq])
    calc (M.lib u).mem (f.1 + i) = copy (M.lib t).mem q e.1 e.2 (f.1 + i) := hkeep f (Or.inr hf) i hi
      _ = (M.lib t).mem (f.1 + i) :=
        copy_other (by have := hfq.2; unfold Apart at this; dsimp only at this; omega)
      _ = (M.lib s).mem (f.1 + i) := hpres f hf.1 i hi
  · calc (M.lib u).mem (q + i) = copy (M.lib t).mem q e.1 e.2 (q + i) :=
          hkeep (q, cap) (Or.inl rfl) i (by dsimp only; omega)
      _ = (M.lib t).mem (e.1 + i) := copy_inside (by omega)
      _ = (M.lib s).mem (e.1 + i) := hpres e he i (by omega)

namespace Contract

variable {σ : Type} {A : Arena} {M : Allocator σ} {sizes : Nat → Prop}
  {Inv : σ → Payloads → Prop}

/-- A contract for fewer sizes. -/
theorem mono {sizes' : Nat → Prop} (C : Contract A M sizes Inv)
    (h : ∀ n, sizes' n → sizes n) : Contract A M sizes' Inv :=
  { C with
    malloc := fun s U hs n r hn => C.malloc s U hs n r (h n hn)
    realloc := fun s U hs e he n r hn => C.realloc s U hs e he n r (h n hn) }

/-- A payload has one pointer. -/
theorem unique (C : Contract A M sizes Inv) {s : σ} {U : Payloads} (h : Inv s U)
    {e f : Nat × Nat} (he : e ∈ U) (hf : f ∈ U) (heq : f.1 = e.1) : f = e :=
  (C.apart s U h f hf e he).resolve_right fun hne => hne.1 heq

/-- Live pointers are what the contract says of payloads. -/
theorem liveOk (C : Contract A M sizes Inv) {s : σ} {U : Payloads} {live : Live}
    (h : Inv s U) (hl : Covers U live) : LiveOk A (M.lib s) live := by
  refine ⟨fun e he => ?_, hl.distinct.imp_of_mem fun {e f} he hf hne => ⟨hne, ?_⟩⟩
  · obtain ⟨cap, hcap, hU⟩ := hl.cap e he
    obtain ⟨-, h1, h2, h3⟩ := C.placed s U h _ hU
    exact ⟨h1, h2, by dsimp only at h3; omega⟩
  · obtain ⟨c, hc, hcU⟩ := hl.cap e he
    obtain ⟨d, hd, hdU⟩ := hl.cap f hf
    rcases C.apart s U h _ hcU _ hdU with heq | ⟨-, hap⟩
    · exact absurd (congrArg Prod.fst heq) hne
    · unfold Apart at hap ⊢
      dsimp only at hap
      omega

/-- No live pointer is `NULL`. -/
theorem live_ne_null (C : Contract A M sizes Inv) {s : σ} {U : Payloads} {live : Live}
    (h : Inv s U) (hl : Covers U live) : ∀ e ∈ live, e.1 ≠ NULL := by
  intro e he
  obtain ⟨cap, -, hU⟩ := hl.cap e he
  exact (C.placed s U h _ hU).1

/-- The bytes of all live pointers are kept. -/
theorem sameBytes_live {U : Payloads} {live : Live} {m m' : Mem} (hl : Covers U live)
    (hp : Preserves U m m') : ∀ e ∈ live, SameBytes m m' e := by
  intro e he
  obtain ⟨cap, hcap, hU⟩ := hl.cap e he
  exact hp.sameBytes hU hcap

/-- A payload that is new in the set lies apart from the live ones. -/
theorem result_ok (C : Contract A M sizes Inv) {t : σ} {U : Payloads} {live : Live}
    {q n cap : Nat} (h : Inv t (Insert.insert (q, cap) U)) (hl : Covers U live) (hn : n ≤ cap)
    (hnew : ∀ e ∈ U, e.1 ≠ q) :
    q % ALIGNMENT = 0 ∧ A.heap ≤ q ∧ q + n ≤ (M.lib t).memBrk ∧
      ∀ e ∈ live, Apart q n e.1 e.2 := by
  have hlive := C.liveOk h (hl.insert hn hnew)
  obtain ⟨h1, h2, h3⟩ := hlive.placed (q, n) (by simp)
  exact ⟨h1, h2, h3, fun e he => ((List.pairwise_cons.mp hlive.apart).1 e he).2⟩

variable {s : σ} {U : Payloads} {live : Live} {k : Call} {r : Bool} {n : Nat}

/-- A call that only asks for a payload. -/
theorem request_ok (C : Contract A M sizes Inv) (h : Inv s U) (hl : Covers U live)
    (hrel : k.released = NULL) (hreq : k.requested = some n)
    (hrun : M.run k r s = M.malloc n r s) (hn : sizes n) :
    ∃ q t U', M.run k r s = some (q, t) ∧ Inv t U' ∧ Covers U' (liveAfter live k q) ∧
      CallOk A live k q (M.lib s) (M.lib t) := by
  have hforget : forget NULL live = live := forget_of_not_mem (C.live_ne_null h hl)
  have hnolive : ∀ m, (NULL, m) ∉ live := fun m hm => C.live_ne_null h hl _ hm rfl
  obtain ⟨q, t, hmalloc, hpres, hres⟩ := C.malloc s U h n r hn
  have hframe := sameBytes_live hl hpres
  rcases hres with ⟨rfl, ht⟩ | ⟨cap, hcap, hnew, ht⟩
  · have hafter : liveAfter live k NULL = live := by simp [liveAfter, hreq]
    refine ⟨NULL, t, U, hrun.trans hmalloc, ht, by rwa [hafter], ?_⟩
    refine ⟨fun _ _ hq => absurd rfl hq, ?_, fun m hm => ?_, fun _ _ _ => ⟨hafter, hframe⟩⟩
    · rw [hrel, hforget]
      exact hframe
    · exact absurd (hrel ▸ hm) (hnolive m)
  · have hq : q ≠ NULL := (C.placed t _ ht _ (Or.inl rfl)).1
    have hafter : liveAfter live k q = (q, n) :: live := by
      simp [liveAfter, hreq, hq, hrel, hforget]
    refine ⟨q, t, _, hrun.trans hmalloc, ht, by rw [hafter]; exact hl.insert hcap hnew, ?_⟩
    refine ⟨fun m hm _ => ?_, ?_, fun m hm => ?_, fun _ _ hq' => absurd hq' hq⟩
    · obtain rfl : n = m := Option.some.inj (hreq.symm.trans hm)
      rw [hrel, hforget]
      exact C.result_ok ht hl hcap hnew
    · rw [hrel, hforget]
      exact hframe
    · exact absurd (hrel ▸ hm) (hnolive m)

/-- A call that only gives up a payload, or `NULL`. -/
theorem release_ok (C : Contract A M sizes Inv) (h : Inv s U) (hl : Covers U live)
    (hlive : k.released = NULL ∨ ∃ n, (k.released, n) ∈ live) (hreq : k.requested = none)
    (hrun : M.run k r s = (M.free k.released s).map fun t => (NULL, t)) :
    ∃ q t U', M.run k r s = some (q, t) ∧ Inv t U' ∧ Covers U' (liveAfter live k q) ∧
      CallOk A live k q (M.lib s) (M.lib t) := by
  have hafter (q : Nat) : liveAfter live k q = forget k.released live := by
    simp [liveAfter, hreq]
  rcases hlive with hnull | ⟨n, hmem⟩
  · have hforget : forget NULL live = live := forget_of_not_mem (C.live_ne_null h hl)
    refine ⟨NULL, s, U, by rw [hrun, hnull, C.free_null]; rfl, h,
      by rwa [hafter, hnull, hforget], ?_⟩
    exact ⟨by simp [hreq], fun _ _ _ _ => rfl, by simp [hreq], by simp [hreq]⟩
  · obtain ⟨cap, -, hU⟩ := hl.cap _ hmem
    have huniq : ∀ f ∈ U, f.1 = k.released → f = (k.released, cap) :=
      fun f hf heq => C.unique h hU hf heq
    have hl' := hl.remove (e := (k.released, cap)) huniq
    obtain ⟨t, hfree, ht, hpres⟩ := C.free s U h _ hU
    refine ⟨NULL, t, _, by rw [hrun, hfree]; rfl, ht, by rw [hafter]; exact hl', ?_⟩
    exact ⟨by simp [hreq], sameBytes_live hl' hpres, by simp [hreq], by simp [hreq]⟩

/-- A call that gives up a payload for another one. -/
theorem resize_ok (C : Contract A M sizes Inv) (h : Inv s U) (hl : Covers U live) {p : Nat}
    (hp : p ≠ NULL) (hlive : ∃ n, (p, n) ∈ live) (hn : sizes n) (hn0 : n ≠ 0) :
    ∃ q t U', M.run (.realloc p n) r s = some (q, t) ∧ Inv t U' ∧
      Covers U' (liveAfter live (.realloc p n) q) ∧
      CallOk A live (.realloc p n) q (M.lib s) (M.lib t) := by
  obtain ⟨n0, hmem⟩ := hlive
  obtain ⟨cap0, hcap0, hU⟩ := hl.cap _ hmem
  have hreq : (Call.realloc p n).requested = some n := by simp [Call.requested, hn0]
  have huniq : ∀ f ∈ U, f.1 = p → f = (p, cap0) := fun f hf heq => C.unique h hU hf heq
  -- the request recorded for `p` is the one that is meant
  have hmem_le : ∀ m, (p, m) ∈ live → m ≤ cap0 := by
    intro m hm
    obtain ⟨c, hc, hcU⟩ := hl.cap _ hm
    have := congrArg Prod.snd (huniq _ hcU rfl)
    dsimp only at this hc
    omega
  have hl' := hl.remove (e := (p, cap0)) huniq
  obtain ⟨q, t, hrun, hres⟩ := C.realloc s U h _ hU n r hn hn0
  rcases hres with ⟨rfl, hfit, ht, hpres⟩ | ⟨rfl, ht, hpres⟩ | ⟨cap, hcap, hnew, ht, hpres, hcopy⟩
  · have hafter : liveAfter live (.realloc q n) q = (q, n) :: forget q live := by
      simp [liveAfter, hreq, hp, Call.released]
    have hl2 := hl.resize (e := (q, cap0)) (n := n) hU hfit huniq
    have hlive2 := C.liveOk ht hl2
    refine ⟨q, t, U, hrun, ht, by rwa [hafter], ?_⟩
    refine ⟨fun m hm _ => ?_, fun e he => ?_, fun m hm m' _ _ i hi => ?_,
      fun _ _ hq => absurd hq hp⟩
    · obtain rfl : n = m := Option.some.inj (hreq.symm.trans hm)
      obtain ⟨h1, h2, h3⟩ := hlive2.placed (q, n) (by simp)
      exact ⟨h1, h2, h3, fun e he => ((List.pairwise_cons.mp hlive2.apart).1 e he).2⟩
    · exact sameBytes_live hl hpres e (mem_forget.mp he).1
    · exact hpres.sameBytes hU (hmem_le m hm) i (by omega)
  · have hafter : liveAfter live (.realloc p n) NULL = live := by simp [liveAfter, hreq]
    have hframe := sameBytes_live hl hpres
    refine ⟨NULL, t, U, hrun, ht, by rwa [hafter], ?_⟩
    exact ⟨fun _ _ hq => absurd rfl hq, fun e he => hframe e (mem_forget.mp he).1,
      fun _ _ _ _ hq => absurd rfl hq, fun _ _ _ => ⟨hafter, hframe⟩⟩
  · have hq : q ≠ NULL := (C.placed t _ ht _ (Or.inl rfl)).1
    have hafter : liveAfter live (.realloc p n) q = (q, n) :: forget p live := by
      simp [liveAfter, hreq, hq, Call.released]
    have hnew' : ∀ f ∈ U \ {(p, cap0)}, f.1 ≠ q := fun f hf => hnew f hf.1
    refine ⟨q, t, _, hrun, ht, by rw [hafter]; exact hl'.insert hcap hnew', ?_⟩
    refine ⟨fun m hm _ => ?_, sameBytes_live hl' hpres, fun m hm m' hm' _ i hi => ?_,
      fun _ _ hq' => absurd hq' hq⟩
    · obtain rfl : n = m := Option.some.inj (hreq.symm.trans hm)
      exact C.result_ok ht hl' hcap hnew'
    · obtain rfl : n = m' := Option.some.inj (hreq.symm.trans hm')
      have := hmem_le m hm
      exact hcopy i (by dsimp only; omega)

/-- **One call**: every allowed call returns, keeps the invariant and does what
it owes to the client. -/
theorem call_ok (C : Contract A M sizes Inv) (h : Inv s U) (hl : Covers U live)
    (hk : Allowed sizes live k) (r : Bool) :
    ∃ q t U', M.run k r s = some (q, t) ∧ Inv t U' ∧ Covers U' (liveAfter live k q) ∧
      CallOk A live k q (M.lib s) (M.lib t) := by
  obtain ⟨hlive, hsize⟩ := hk
  cases k with
  | malloc n => exact C.request_ok h hl rfl rfl rfl (hsize n rfl)
  | free p => exact C.release_ok h hl hlive rfl rfl
  | realloc p n =>
      by_cases hp : p = NULL
      · subst hp
        exact C.request_ok (k := .realloc NULL n) (n := n) h hl rfl rfl (C.realloc_null s n r)
          (hsize n rfl)
      · by_cases hn : n = 0
        · subst hn
          exact C.release_ok (k := .realloc p 0) h hl hlive (by simp [Call.requested, hp])
            (C.realloc_zero s p r hp)
        · have hreq : (Call.realloc p n).requested = some n := by simp [Call.requested, hn]
          exact C.resize_ok h hl hp (hlive.resolve_left hp) (hsize n hreq) hn

/-- **All runs**: the invariant holds in every state clients can reach, for a
set of payloads that are exactly the live ones. -/
theorem reachable_inv (C : Contract A M sizes Inv) {c : Client σ} (h : Reachable A M sizes c) :
    ∃ U, Inv c.heap U ∧ Covers U c.live := by
  refine h.invariant (I := fun c => ∃ U, Inv c.heap U ∧ Covers U c.live) ?_ ?_
  · rintro c ⟨s, r, hbrk, hinit, hlive⟩
    exact ⟨∅, C.init r s c.heap hbrk hinit, hlive ▸ Covers.empty⟩
  · rintro c d ⟨U, hU, hl⟩ hstep
    cases hstep with
    | @call k r q t hk hrun =>
        obtain ⟨q', t', U', hrun', ht, hl', -⟩ := C.call_ok hU hl hk r
        obtain ⟨rfl, rfl⟩ := Prod.mk.inj (Option.some.inj (hrun.symm.trans hrun'))
        exact ⟨U', ht, hl'⟩
    | @write p n i b hmem hi =>
        obtain ⟨cap, hcap, hcU⟩ := hl.cap _ hmem
        refine ⟨U, C.write _ U hU _ hcU _ fun j hj => store8_other ?_, hl⟩
        dsimp only at hcap hj
        omega

/-- **The client's guarantee holds in every reachable state.** -/
theorem served (C : Contract A M sizes Inv) {c : Client σ} (h : Reachable A M sizes c) :
    Served A M sizes c := by
  obtain ⟨U, hU, hl⟩ := C.reachable_inv h
  refine ⟨C.liveOk hU hl, fun k r hk => ?_⟩
  obtain ⟨q, t, U', hrun, -, -, hok⟩ := C.call_ok hU hl hk r
  exact ⟨q, t, hrun, hok⟩

end Contract

end Malloc
