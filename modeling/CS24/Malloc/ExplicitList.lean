import CS24.Lib.Links
import CS24.Malloc.Explicit

/-!
# The free list in memory

`addFreeNode` and `removeFreeNode` as operations on a list of node addresses.
The link words of a node occupy the bytes `[x + 8, x + 24)`; nodes lie at least
32 bytes apart, so a link word of one node never overlaps one of another.
Besides the new list, each lemma says which bytes can have changed.
-/

namespace Malloc.Explicit

open Bytes Links

/-- The `left` word of a node. -/
def leftOf (m : Mem) (x : Nat) : Nat := load64 m (x + 8)

/-- The `right` word of a node. -/
def rightOf (m : Mem) (x : Nat) : Nat := load64 m (x + 16)

/-- Two nodes are at least one minimal block apart. -/
def Far (x y : Nat) : Prop := x + 32 ≤ y ∨ y + 32 ≤ x

/-- Being far from each other is symmetric. -/
theorem Far.symm {x y : Nat} (h : Far x y) : Far y x := Or.comm.mp h

/-- Nodes pairwise at least one minimal block apart. -/
def Spaced (l : List Nat) : Prop := l.Pairwise Far

/-- Two nodes are the same one or far from each other. -/
theorem Spaced.eq_or_far {l : List Nat} (h : Spaced l) {x y : Nat} (hx : x ∈ l) (hy : y ∈ l) :
    x = y ∨ Far x y := by
  induction l with
  | nil => simp at hx
  | cons z l ih =>
      obtain ⟨hz, hl⟩ := List.pairwise_cons.mp h
      rcases List.mem_cons.mp hx with rfl | hx' <;> rcases List.mem_cons.mp hy with rfl | hy'
      · exact Or.inl rfl
      · exact Or.inr (hz y hy')
      · exact Or.inr (hz x hx').symm
      · exact ih hl hx' hy'

/-- No node is there twice. -/
theorem Spaced.nodup {l : List Nat} (h : Spaced l) : l.Nodup :=
  h.imp fun {x y} (hf : Far x y) he => by unfold Far at hf; omega

/-- The byte at `i` belongs to a link word of one of the nodes. -/
def LinkArea (nodes : List Nat) (i : Nat) : Prop := ∃ x ∈ nodes, x + 8 ≤ i ∧ i < x + 24

/-- The block at `x` lies below the break `brk`, with room for its links. -/
structure NodeIn (A : Arena) (brk x : Nat) : Prop where
  heap_le : A.heap ≤ x
  le_brk : x + 32 ≤ brk

/-- The free list starting at `head` consists of the nodes `l`, in order. -/
structure FreeList (m : Mem) (head : Nat) (l : List Nat) : Prop where
  head_eq : head = first NULL l
  links : Threaded (rightOf m) (leftOf m) NULL l

section LinkWords

variable {m : Mem} {x y v : Nat}

/-- A left link is read as it was written, -/
theorem leftOf_setLeft_same (hv : v < 2 ^ 64) : leftOf (store64 m (x + 8) v) x = v :=
  load64_store64_same hv

/-- and so is a right one. -/
theorem rightOf_setRight_same (hv : v < 2 ^ 64) : rightOf (store64 m (x + 16) v) x = v :=
  load64_store64_same hv

/-- The links of other nodes stay as they are, -/
theorem leftOf_setLeft_far (h : Far x y) : leftOf (store64 m (x + 8) v) y = leftOf m y :=
  load64_store64_apart (by unfold Apart; unfold Far at h; omega)

/-- on both sides, -/
theorem rightOf_setRight_far (h : Far x y) : rightOf (store64 m (x + 16) v) y = rightOf m y :=
  load64_store64_apart (by unfold Apart; unfold Far at h; omega)

/-- and so does the left link when the right one is written, -/
theorem leftOf_setRight (h : x = y ∨ Far x y) : leftOf (store64 m (x + 16) v) y = leftOf m y :=
  load64_store64_apart (by unfold Apart; unfold Far at h; omega)

/-- and the other way round. -/
theorem rightOf_setLeft (h : x = y ∨ Far x y) : rightOf (store64 m (x + 8) v) y = rightOf m y :=
  load64_store64_apart (by unfold Apart; unfold Far at h; omega)

end LinkWords

/-- Outside the link area of its node, a link write changes nothing. -/
theorem store_link_other {m : Mem} {nodes : List Nat} {x k v i : Nat} (hx : x ∈ nodes)
    (hk : k = 8 ∨ k = 16) (hi : ¬ LinkArea nodes i) : store64 m (x + k) v i = m i := by
  refine store64_other ?_
  by_contra hc
  exact hi ⟨x, hx, by omega, by omega⟩

section Access

variable {A : Arena} {mem : Mem} {brk hf hl free x : Nat}

/-- A node is not `NULL`, -/
theorem NodeIn.ne_null (h : NodeIn A brk x) : x ≠ NULL := by
  have := A.heap_pos
  have := h.heap_le
  unfold NULL
  omega

/-- and its address fits in a word. -/
theorem NodeIn.lt (h : NodeIn A brk x) (hbrk : brk ≤ A.heap + MAX_HEAP) : x < 2 ^ 64 := by
  have := A.heap_low
  have := h.le_brk
  omega

variable (hbrk : brk ≤ A.heap + MAX_HEAP)
include hbrk

/-- A word access inside the bytes handed out succeeds. -/
theorem load_in {a : Nat} (hlo : A.heap ≤ a) (hhi : a + 8 ≤ brk) :
    load A a ⟨mem, brk⟩ = some (load64 mem a) :=
  load_eq (accessible_of_le_brk hbrk hlo hhi)

/-- A word in the heap can be written. -/
theorem put_in {a v : Nat} (hlo : A.heap ≤ a) (hhi : a + 8 ≤ brk) :
    State.put A a v ⟨⟨mem, brk⟩, hf, hl, free⟩ =
      some ⟨⟨store64 mem a v, brk⟩, hf, hl, free⟩ := by
  have h : Accessible A a 8 ⟨mem, brk⟩ := accessible_of_le_brk hbrk hlo hhi
  simp [State.put, store_eq h]

variable (hx : NodeIn A brk x)
include hx

/-- The links of a node can be read, -/
theorem left_eq : left A x ⟨⟨mem, brk⟩, hf, hl, free⟩ = some (leftOf mem x) :=
  load_in hbrk (by have := hx.heap_le; omega) (by have := hx.le_brk; omega)

/-- both of them, -/
theorem right_eq : right A x ⟨⟨mem, brk⟩, hf, hl, free⟩ = some (rightOf mem x) :=
  load_in hbrk (by have := hx.heap_le; omega) (by have := hx.le_brk; omega)

/-- and written, -/
theorem setLeft_eq (v : Nat) : setLeft A x v ⟨⟨mem, brk⟩, hf, hl, free⟩ =
    some ⟨⟨store64 mem (x + 8) v, brk⟩, hf, hl, free⟩ :=
  put_in hbrk (by have := hx.heap_le; omega) (by have := hx.le_brk; omega)

/-- both of them. -/
theorem setRight_eq (v : Nat) : setRight A x v ⟨⟨mem, brk⟩, hf, hl, free⟩ =
    some ⟨⟨store64 mem (x + 16) v, brk⟩, hf, hl, free⟩ :=
  put_in hbrk (by have := hx.heap_le; omega) (by have := hx.le_brk; omega)

end Access

variable {A : Arena} {mem : Mem} {brk hf hl free x : Nat} {fl before after : List Nat}

/-- **Adding a node** puts it in front of the list and touches only link words
of the node and of the list. -/
theorem addFreeNode_spec (hf hl : Nat) (hbrk : brk ≤ A.heap + MAX_HEAP)
    (hfl : FreeList mem free fl) (hsp : Spaced (x :: fl))
    (hin : ∀ y ∈ x :: fl, NodeIn A brk y) :
    ∃ mem', addFreeNode A x ⟨⟨mem, brk⟩, hf, hl, free⟩ = some ⟨⟨mem', brk⟩, hf, hl, x⟩ ∧
      FreeList mem' x (x :: fl) ∧ ∀ i, ¬ LinkArea (x :: fl) i → mem' i = mem i := by
  have hx := hin x (by simp)
  have hxlt := hx.lt hbrk
  cases fl with
  | nil =>
      obtain rfl : free = NULL := hfl.head_eq
      refine ⟨store64 (store64 mem (x + 8) NULL) (x + 16) NULL, ?_, ⟨rfl, ?_⟩, ?_⟩
      · simp [addFreeNode, setLeft_eq hbrk hx, setRight_eq hbrk hx]
      · exact rightOf_setRight_same (by simp [NULL])
      · intro i hi
        rw [store_link_other (List.mem_singleton_self x) (Or.inr rfl) hi,
          store_link_other (List.mem_singleton_self x) (Or.inl rfl) hi]
  | cons f fl =>
      obtain rfl : free = f := hfl.head_eq
      have hfree := hin free (by simp)
      have hxfar : ∀ y ∈ free :: fl, Far x y := (List.pairwise_cons.mp hsp).1
      have hffar : ∀ y ∈ fl, Far free y :=
        (List.pairwise_cons.mp (List.pairwise_cons.mp hsp).2).1
      have hxf : Far x free := hxfar free (by simp)
      have hfeq : ∀ y ∈ free :: fl, free = y ∨ Far free y :=
        fun y hy => hsp.eq_or_far (by simp) (List.mem_cons_of_mem _ hy)
      refine ⟨store64 (store64 (store64 mem (x + 16) free) (free + 8) x) (x + 8) NULL,
        ?_, ⟨rfl, ?_⟩, ?_⟩
      · simp [addFreeNode, hfree.ne_null, setRight_eq hbrk hx, setLeft_eq hbrk hfree,
          setLeft_eq hbrk hx]
      · refine hfl.links.push_front ?_ ?_ ?_ ?_
        · rw [rightOf_setLeft (Or.inl rfl), rightOf_setLeft (Or.inr hxf.symm),
            rightOf_setRight_same (hfree.lt hbrk)]
          rfl
        · intro y hy
          rw [rightOf_setLeft (Or.inr (hxfar y hy)), rightOf_setLeft (hfeq y hy),
            rightOf_setRight_far (hxfar y hy)]
        · intro y hy
          obtain rfl : free = y := by simpa using hy
          rw [leftOf_setLeft_far hxf, leftOf_setLeft_same hxlt]
        · intro y hy
          have hxy := hxfar y (List.mem_cons_of_mem _ hy)
          rw [leftOf_setLeft_far hxy, leftOf_setLeft_far (hffar y hy),
            leftOf_setRight (Or.inr hxy)]
      · intro i hi
        rw [store_link_other (by simp) (Or.inl rfl) hi,
          store_link_other (by simp) (Or.inl rfl) hi,
          store_link_other (by simp) (Or.inr rfl) hi]

/-- In a list of spaced nodes, one node is far from all the others. -/
theorem Spaced.far_others (h : Spaced (before ++ x :: after)) {y : Nat}
    (hy : y ∈ before ++ after) : Far x y := by
  obtain ⟨-, htail, hcross⟩ := List.pairwise_append.mp h
  rcases List.mem_append.mp hy with hy | hy
  · exact (hcross y hy x (by simp)).symm
  · exact (List.pairwise_cons.mp htail).1 y hy

/-- Without one of its nodes a list is spaced too. -/
theorem Spaced.remove (h : Spaced (before ++ x :: after)) : Spaced (before ++ after) :=
  h.sublist (by simp)

/-- The memory after cutting the node behind `y` out of the list, as both
`removeFreeNode` and `findFit` do it: `right` of `y` is redirected to `next`
and, if there is such a node, its `left` to `y`. -/
def cutMem (mem : Mem) (y next : Nat) : Mem :=
  if next = NULL then store64 mem (y + 16) next
  else store64 (store64 mem (y + 16) next) (next + 8) y

/-- Cutting out a node `x` with predecessor `y` leaves the list without `x`. -/
theorem cutMem_freeList {y : Nat} (hbrk : brk ≤ A.heap + MAX_HEAP)
    (hfl : FreeList mem free (before ++ y :: x :: after))
    (hsp : Spaced (before ++ y :: x :: after))
    (hin : ∀ z ∈ before ++ y :: x :: after, NodeIn A brk z) :
    FreeList (cutMem mem y (first NULL after)) free (before ++ y :: after) := by
  have hleft : leftOf mem x = y := hfl.links.left_mid
  have hright : rightOf mem x = first NULL after :=
    (List.append_cons before y (x :: after) ▸ hfl.links).right_mid
  have hyin := hin y (by simp)
  have hyfar : ∀ z ∈ before ++ x :: after, Far y z := fun z hz => hsp.far_others hz
  have hrest : Spaced (before ++ y :: after) := by
    have hsp' : Spaced ((before ++ [y]) ++ x :: after) := by simpa using hsp
    simpa using hsp'.remove
  have hhead : first NULL (before ++ y :: after) = free := by
    rw [hfl.head_eq]
    cases before <;> rfl
  cases after with
  | nil =>
      simp only [cutMem, first_nil, if_true] at hright ⊢
      refine ⟨hhead.symm, hfl.links.cut ?_ ?_ (by simp) ?_⟩
      · rw [rightOf_setRight_same (by simp [NULL]), hright]
      · intro z hz
        exact rightOf_setRight_far (hyfar z (by simp at hz; simp [hz]))
      · intro z hz
        have hz' : z ∈ before ++ [y] := List.mem_of_mem_tail (by simpa using hz)
        exact leftOf_setRight (hrest.eq_or_far (by simp) hz')
  | cons f after =>
      have hfin := hin f (by simp)
      have hffar : ∀ z ∈ (before ++ [y]) ++ after, Far f z :=
        fun z hz => Spaced.far_others (by simpa using hrest) hz
      simp only [cutMem, first_cons, hfin.ne_null, if_false] at hright ⊢
      refine ⟨hhead.symm, hfl.links.cut ?_ ?_ ?_ ?_⟩
      · rw [rightOf_setLeft (Or.inr (hffar y (by simp))),
          rightOf_setRight_same (hfin.lt hbrk), hright]
      · intro z hz
        rw [rightOf_setLeft (hrest.eq_or_far (by simp) (by simp at hz ⊢; tauto)),
          rightOf_setRight_far (hyfar z (by simp at hz ⊢; tauto))]
      · intro z hz
        obtain rfl : f = z := by simpa using hz
        rw [leftOf_setLeft_same (hyin.lt hbrk), hleft]
      · intro z hz
        have hz' : z ∈ (before ++ [y]) ++ after := by
          rcases List.mem_append.mp hz with hz | hz
          · exact List.mem_append_left _ (List.mem_of_mem_tail hz)
          · exact List.mem_append_right _ hz
        rw [leftOf_setLeft_far (hffar z hz'),
          leftOf_setRight (hrest.eq_or_far (by simp) (by simp at hz' ⊢; tauto))]

/-- Cutting touches only link words of the list. -/
theorem cutMem_other {y i : Nat} {nodes : List Nat} (hy : y ∈ nodes)
    (hafter : ∀ z ∈ after, z ∈ nodes) (hi : ¬ LinkArea nodes i) :
    cutMem mem y (first NULL after) i = mem i := by
  unfold cutMem
  split
  · exact store_link_other hy (Or.inr rfl) hi
  · cases after with
    | nil => exact absurd rfl ‹_›
    | cons f after =>
        simp only [first_cons]
        rw [store_link_other (hafter f (by simp)) (Or.inl rfl) hi,
          store_link_other hy (Or.inr rfl) hi]

/-- **Removing a node** takes it out of the list and touches only link words of
the list. -/
theorem removeFreeNode_spec (hf hl : Nat) (hbrk : brk ≤ A.heap + MAX_HEAP)
    (hfl : FreeList mem free (before ++ x :: after)) (hsp : Spaced (before ++ x :: after))
    (hin : ∀ z ∈ before ++ x :: after, NodeIn A brk z) :
    ∃ mem', removeFreeNode A x ⟨⟨mem, brk⟩, hf, hl, free⟩ =
        some ⟨⟨mem', brk⟩, hf, hl, first NULL (before ++ after)⟩ ∧
      FreeList mem' (first NULL (before ++ after)) (before ++ after) ∧
      ∀ i, ¬ LinkArea (before ++ x :: after) i → mem' i = mem i := by
  have hx := hin x (by simp)
  have hright : rightOf mem x = first NULL after := hfl.links.right_mid
  rcases List.eq_nil_or_concat before with rfl | ⟨before, y, rfl⟩
  · obtain rfl : free = x := hfl.head_eq
    obtain ⟨-, -, hlinks⟩ := threaded_cons.mp hfl.links
    cases after with
    | nil =>
        refine ⟨mem, ?_, ⟨rfl, trivial⟩, fun _ _ => rfl⟩
        simp [removeFreeNode, right_eq hbrk hx, hright]
    | cons f after =>
        have hf := hin f (by simp)
        refine ⟨store64 mem (f + 8) NULL, ?_, ⟨rfl, ?_⟩, ?_⟩
        · simp [removeFreeNode, right_eq hbrk hx, hright, hf.ne_null, setLeft_eq hbrk hf]
        · have hsp' : Spaced (f :: after) := (List.pairwise_cons.mp hsp).2
          refine hlinks.congr (fun z hz => ?_) (fun z hz => ?_)
          · exact rightOf_setLeft (hsp'.eq_or_far (by simp) hz)
          · exact leftOf_setLeft_far ((List.pairwise_cons.mp hsp').1 z hz)
        · intro i hi
          exact store_link_other (by simp) (Or.inl rfl) hi
  · simp only [List.concat_eq_append, List.append_assoc, List.singleton_append] at *
    have hy := hin y (by simp)
    have hleft : leftOf mem x = y := hfl.links.left_mid
    have hyx : Far y x := hsp.far_others (by simp)
    have hne : x ≠ free := by
      intro he
      have hhead : free = first NULL (before ++ y :: x :: after) := hfl.head_eq
      have hnd := hsp.nodup
      cases before with
      | nil => unfold Far at hyx; simp at hhead; omega
      | cons z before => simp at hhead hnd; grind
    have hhead : first NULL (before ++ y :: after) = free := by
      rw [hfl.head_eq]
      cases before <;> rfl
    refine ⟨cutMem mem y (first NULL after), ?_, ?_, ?_⟩
    · rw [hhead]
      have hleft1 : leftOf (store64 mem (y + 16) (first NULL after)) x = y := by
        rw [leftOf_setRight (Or.inr hyx), hleft]
      have hright1 : rightOf (store64 mem (y + 16) (first NULL after)) x = first NULL after := by
        rw [rightOf_setRight_far hyx, hright]
      cases after with
      | nil =>
          simp only [first_nil] at hright hright1
          simp [removeFreeNode, hne, left_eq hbrk hx, hleft, hy.ne_null, right_eq hbrk hx, hright,
            setRight_eq hbrk hy, cutMem, hright1]
      | cons f after =>
          have hf := hin f (by simp)
          simp only [first_cons] at hright hright1 hleft1
          simp [removeFreeNode, hne, left_eq hbrk hx, hleft, hy.ne_null, right_eq hbrk hx, hright,
            setRight_eq hbrk hy, cutMem, hright1, hleft1, hf.ne_null, setLeft_eq hbrk hf]
    · rw [hhead]
      exact cutMem_freeList hbrk hfl hsp hin
    · intro i hi
      exact cutMem_other (by simp) (fun z hz => by simp [hz]) hi

end Malloc.Explicit
