import CS24.Lib.Links

/-!
# The queue's linked structure

`queue.c` between taking and releasing the lock.  The nodes are a partial map
from addresses: `malloc` hands out an address that is not allocated, `free`
removes it, and a function that follows a pointer to no node crashes, which is
`none` here.  `Linked q l vs` says that the nodes `l`, linked both ways from
`head` to `tail`, hold the values `vs`; it is what every critical section takes
for granted and leaves behind.
-/

namespace Threads

open Links

def NULL : Nat := 0

/-- A `node_t`. -/
structure Node (α : Type*) where
  value : α
  left : Nat
  right : Nat

/-- A `queue_t` without its lock, and the nodes that are allocated for it. -/
structure Queue (α : Type*) where
  nodes : Nat → Option (Node α)
  head : Nat
  tail : Nat
  size : Nat

namespace Queue

variable {α : Type*}

/-- `queue_init` -/
def init : Queue α := ⟨fun _ => none, NULL, NULL, 0⟩

/-- What `malloc` may return: an address that is not in use. -/
def Fresh (q : Queue α) (a : Nat) : Prop := q.nodes a = none ∧ a ≠ NULL ∧ a < 2 ^ 64

/-- The critical section of `queue_enqueue`; `node` is the address `malloc`
returned. -/
def enqueue (node : Nat) (value : α) (q : Queue α) : Option (Queue α) :=
  let nodes := Function.update q.nodes node (some ⟨value, NULL, NULL⟩)
  if q.head = NULL then some ⟨nodes, node, node, 1⟩
  else do
    let tail := q.tail
    let t ← nodes tail
    let nodes := Function.update nodes tail (some { t with right := node })
    let n ← nodes node
    let nodes := Function.update nodes node (some { n with left := tail })
    some ⟨nodes, q.head, node, (q.size + 1) % 2 ^ 64⟩

/-- The critical section of `queue_dequeue` behind the loop, when `size` is not
0. -/
def dequeue (q : Queue α) : Option (α × Queue α) :=
  if q.size = 1 then do
    let head ← q.nodes q.head
    some (head.value, ⟨Function.update q.nodes q.head none, NULL, NULL, 0⟩)
  else do
    let head ← q.nodes q.head
    let nxt := head.right
    let n ← q.nodes nxt
    let nodes := Function.update q.nodes nxt (some { n with left := NULL })
    let nodes := Function.update nodes q.head none
    some (head.value, ⟨nodes, nxt, q.tail, (q.size + (2 ^ 64 - 1)) % 2 ^ 64⟩)

/-- `node->right` -/
def rightOf (q : Queue α) (a : Nat) : Nat := ((q.nodes a).map Node.right).getD NULL

/-- `node->left` -/
def leftOf (q : Queue α) (a : Nat) : Nat := ((q.nodes a).map Node.left).getD NULL

/-- `node->value` -/
def valueOf (q : Queue α) (a : Nat) : Option α := (q.nodes a).map Node.value

/-- The last node of a list, or `NULL`. -/
def last (l : List Nat) : Nat := l.getLast?.getD NULL

@[simp] theorem last_nil : last [] = NULL := rfl

@[simp] theorem last_append_singleton (l : List Nat) (x : Nat) : last (l ++ [x]) = x := by
  simp [last]

/-- The queue consists of the nodes `l`, in order, which hold `vs`. -/
structure Linked (q : Queue α) (l : List Nat) (vs : List α) : Prop where
  head_eq : q.head = first NULL l
  tail_eq : q.tail = last l
  size_eq : q.size = l.length
  links : Threaded q.rightOf q.leftOf NULL l
  left_head : ∀ x ∈ l.head?, q.leftOf x = NULL
  nodup : l.Nodup
  allocated : ∀ a, (q.nodes a).isSome = true ↔ a ∈ l
  addr : ∀ a ∈ l, a ≠ NULL ∧ a < 2 ^ 64
  values : l.map q.valueOf = vs.map some

/-- The queue holds the values `vs`, oldest first. -/
def Represents (q : Queue α) (vs : List α) : Prop := ∃ l, Linked q l vs

/-- A new queue is empty. -/
theorem init_represents : (init : Queue α).Represents [] :=
  ⟨[], ⟨rfl, rfl, rfl, trivial, by simp, by simp, by simp [init], by simp, rfl⟩⟩

variable {q q' : Queue α} {l : List Nat} {vs : List α} {v : α} {a x : Nat}

/-- Distinct addresses below `2 ^ 64`, none of them `NULL`, are fewer than
`2 ^ 64`: the counter of a queue does not overflow. -/
theorem length_lt_of_addr (hnd : l.Nodup) (haddr : ∀ a ∈ l, a ≠ NULL ∧ a < 2 ^ 64) :
    l.length < 2 ^ 64 := by
  have hsub : l ⊆ List.Ico 1 (2 ^ 64) := by
    intro a ha
    obtain ⟨h0, hlt⟩ := haddr a ha
    rw [List.Ico.mem]
    unfold NULL at h0
    omega
  have := (hnd.subperm hsub).length_le
  rw [List.Ico.length] at this
  omega

namespace Linked

/-- The nodes of the list are allocated, -/
theorem node (h : Linked q l vs) (ha : a ∈ l) : ∃ n, q.nodes a = some n :=
  Option.isSome_iff_exists.mp ((h.allocated a).mpr ha)

/-- and a node that is not is not among them. -/
theorem not_mem_of_none (h : Linked q l vs) (ha : q.nodes a = none) : a ∉ l :=
  fun hm => by obtain ⟨n, hn⟩ := h.node hm; simp [ha] at hn

/-- There are as many nodes as values. -/
theorem length_eq (h : Linked q l vs) : l.length = vs.length := by
  have := congrArg List.length h.values
  simpa using this

/-- The head is `NULL` if there is none. -/
theorem head_null_iff (h : Linked q l vs) : q.head = NULL ↔ l = [] := by
  rw [h.head_eq]
  cases l with
  | nil => simp
  | cons x l => simp [(h.addr x (by simp)).1]

/-- Following `right` from `head` visits the nodes and ends after `size` of them. -/
theorem right_iterate (h : Linked q l vs) :
    q.rightOf^[q.size] q.head = NULL ∧ (q.size ≠ 0 → q.rightOf^[q.size - 1] q.head = q.tail) := by
  rw [h.head_eq, h.size_eq, h.tail_eq]
  refine ⟨h.links.iterate_length, fun hne => ?_⟩
  have hi : l.length - 1 < l.length := by omega
  rw [h.links.iterate hi, last, List.getLast?_eq_getElem?, List.getElem?_eq_getElem hi]
  rfl

/-- A node is put behind the last one, `t`. -/
theorem pushed {front : List Nat} {t : Nat} {n : Node α} (h : Linked q (front ++ [t]) vs)
    (hx : q.Fresh x) (hn : q.nodes t = some n) (hnx : q'.nodes x = some ⟨v, t, NULL⟩)
    (hnt : q'.nodes t = some { n with right := x })
    (hnodes : ∀ a, a ≠ x → a ≠ t → q'.nodes a = q.nodes a) (hhead : q'.head = q.head)
    (htail : q'.tail = x) (hsize : q'.size = (q.size + 1) % 2 ^ 64) :
    Linked q' (front ++ [t] ++ [x]) (vs ++ [v]) := by
  obtain ⟨hnone, hx0, hxlt⟩ := hx
  have hxl : x ∉ front ++ [t] := h.not_mem_of_none hnone
  have hne_x : ∀ a ∈ front ++ [t], a ≠ x := fun a ha he => hxl (he ▸ ha)
  have hright : ∀ a ∈ front, q'.rightOf a = q.rightOf a := by
    intro a ha
    have hat : a ≠ t := by
      rintro rfl
      exact (List.nodup_append.mp h.nodup).2.2 a ha a (by simp) rfl
    simp [rightOf, hnodes a (hne_x a (by simp [ha])) hat]
  have hsame : ∀ a ∈ front ++ [t], q'.leftOf a = q.leftOf a ∧ q'.valueOf a = q.valueOf a := by
    intro a ha
    by_cases hat : a = t
    · subst hat
      simp [leftOf, valueOf, hnt, hn]
    · simp [leftOf, valueOf, hnodes a (hne_x a ha) hat]
  have haddr : ∀ a ∈ front ++ [t] ++ [x], a ≠ NULL ∧ a < 2 ^ 64 := by
    intro a ha
    rcases List.mem_append.mp ha with ha | ha
    · exact h.addr a ha
    · obtain rfl : a = x := by simpa using ha
      exact ⟨hx0, hxlt⟩
  have hnodup : (front ++ [t] ++ [x]).Nodup :=
    List.nodup_append.mpr ⟨h.nodup, by simp, by simpa using fun a ha => hne_x a (by simpa using ha)⟩
  refine ⟨?_, ?_, ?_, ?_, ?_, hnodup, ?_, haddr, ?_⟩
  · rw [hhead, h.head_eq]
    cases front <;> rfl
  · rw [htail, last_append_singleton]
  · -- the counter does not overflow
    have hlt := length_lt_of_addr hnodup haddr
    rw [List.length_append, ← h.size_eq, List.length_singleton] at hlt ⊢
    rw [hsize, Nat.mod_eq_of_lt hlt]
  · have hpush : Threaded q'.rightOf q'.leftOf NULL (front ++ [t, x]) :=
      h.links.push_back (by simp [rightOf, hnx]) (by simp [rightOf, hnt]) (by simp [leftOf, hnx])
        hright fun y hy => (hsame y (List.mem_of_mem_tail hy)).1
    simpa using hpush
  · intro y hy
    have hy' : y ∈ (front ++ [t]).head? := by cases front <;> simpa using hy
    rw [(hsame y (List.mem_of_mem_head? hy')).1]
    exact h.left_head y hy'
  · intro a
    have hold := h.allocated a
    by_cases hax : a = x
    · simp [hax, hnx]
    by_cases hat : a = t
    · simp [hat, hnt]
    · simpa [hnodes a hax hat, hax, hat] using hold
  · rw [List.map_append, List.map_congr_left fun a ha => (hsame a ha).2, h.values, List.map_append]
    simp [valueOf, hnx]

/-- The first node is cut off, and `y` is the new one. -/
theorem popped {y : Nat} {m : Node α} (h : Linked q (x :: y :: l) (v :: vs))
    (hm : q.nodes y = some m) (hnx : q'.nodes x = none) (hny : q'.nodes y = some { m with left := NULL })
    (hnodes : ∀ a, a ≠ x → a ≠ y → q'.nodes a = q.nodes a) (hhead : q'.head = y)
    (htail : q'.tail = q.tail) (hsize : q'.size = (q.size + (2 ^ 64 - 1)) % 2 ^ 64) :
    Linked q' (y :: l) vs := by
  have hnodup := List.nodup_cons.mp h.nodup
  have hvalues : (y :: l).map q.valueOf = vs.map some := (List.cons.inj h.values).2
  have hne : ∀ a ∈ y :: l, a ≠ x := fun a ha he => hnodup.1 (he ▸ ha)
  have hsame : ∀ a ∈ y :: l, q'.rightOf a = q.rightOf a ∧ q'.valueOf a = q.valueOf a := by
    intro a ha
    by_cases hay : a = y
    · subst hay
      simp [rightOf, valueOf, hny, hm]
    · simp [rightOf, valueOf, hnodes a (hne a ha) hay]
  have hleft : ∀ a ∈ l, q'.leftOf a = q.leftOf a := by
    intro a ha
    have hay : a ≠ y := fun he => (List.nodup_cons.mp hnodup.2).1 (he ▸ ha)
    simp [leftOf, hnodes a (hne a (by simp [ha])) hay]
  have hrest := (threaded_cons.mp h.links).2.2
  refine ⟨hhead, ?_, ?_, hrest.congr (fun a ha => (hsame a ha).1) hleft, ?_, hnodup.2, ?_,
    fun a ha => h.addr a (by simp [ha]), ?_⟩
  · rw [htail, h.tail_eq]
    simp [last, List.getLast?_cons]
  · have hlt := length_lt_of_addr h.nodup h.addr
    have hs := h.size_eq
    simp only [List.length_cons] at hlt hs ⊢
    omega
  · simp [leftOf, hny]
  · intro a
    have hold := h.allocated a
    by_cases hax : a = x
    · subst hax
      simpa [hnx] using hnodup.1
    by_cases hay : a = y
    · simp [hay, hny]
    · simpa [hnodes a hax hay, hax, hay] using hold
  · rw [List.map_congr_left fun a ha => (hsame a ha).2, hvalues]

end Linked

/-- **Enqueueing** appends the value and does not crash. -/
theorem enqueue_spec (h : q.Represents vs) (hx : q.Fresh x) (v : α) :
    ∃ q', q.enqueue x v = some q' ∧ q'.Represents (vs ++ [v]) := by
  obtain ⟨l, h⟩ := h
  rcases List.eq_nil_or_concat l with rfl | ⟨front, t, rfl⟩
  · obtain rfl : vs = [] := List.eq_nil_of_length_eq_zero (by simpa using h.length_eq.symm)
    have hempty (a : Nat) : q.nodes a = none := by
      have := (h.allocated a).not.mpr (by simp)
      simpa using this
    refine ⟨⟨Function.update q.nodes x (some ⟨v, NULL, NULL⟩), x, x, 1⟩, ?_, [x], ?_⟩
    · simp [enqueue, h.head_null_iff.mpr rfl]
    · refine ⟨rfl, rfl, rfl, by simp [Threaded, rightOf], by simp [leftOf], by simp, fun a => ?_,
        by simpa using hx.2, by simp [valueOf]⟩
      by_cases hax : a = x <;> simp [hax, hempty]
  · rw [List.concat_eq_append] at h
    obtain ⟨n, hn⟩ := h.node (a := t) (by simp)
    have htx : t ≠ x := fun he => h.not_mem_of_none hx.1 (by simp [he])
    have hhead : q.head ≠ NULL := fun he => by simpa using h.head_null_iff.mp he
    have htail : q.tail = t := by rw [h.tail_eq, last_append_singleton]
    let nodes' := Function.update (Function.update (Function.update q.nodes x
      (some ⟨v, NULL, NULL⟩)) t (some { n with right := x })) x (some ⟨v, t, NULL⟩)
    refine ⟨⟨nodes', q.head, x, (q.size + 1) % 2 ^ 64⟩, ?_, front ++ [t] ++ [x],
      h.pushed hx hn ?_ ?_ ?_ rfl rfl rfl⟩
    · simp [enqueue, hhead, htail, htx, hn, nodes', Function.update_of_ne htx.symm]
    · simp [nodes']
    · simp [nodes', htx]
    · intro a hax hat
      simp [nodes', hax, hat]

/-- The counter tells whether there is a value to take. -/
theorem Represents.size_eq (h : q.Represents vs) : q.size = vs.length := by
  obtain ⟨l, h⟩ := h
  rw [h.size_eq, h.length_eq]

/-- **Dequeueing** takes the oldest value and does not crash. -/
theorem dequeue_spec (h : q.Represents (v :: vs)) :
    ∃ q', q.dequeue = some (v, q') ∧ q'.Represents vs := by
  obtain ⟨l, h⟩ := h
  cases l with
  | nil => simpa using h.length_eq
  | cons x l =>
      obtain ⟨n, hn⟩ := h.node (a := x) (by simp)
      have hhead : q.head = x := h.head_eq
      obtain ⟨hx, hvalues⟩ : q.valueOf x = some v ∧ l.map q.valueOf = vs.map some := by
        simpa using h.values
      have hv : n.value = v := by simpa [valueOf, hn] using hx
      cases l with
      | nil =>
          obtain rfl : vs = [] := by simpa using hvalues
          have hsize : q.size = 1 := h.size_eq
          refine ⟨⟨Function.update q.nodes x none, NULL, NULL, 0⟩, ?_, [], ?_⟩
          · simp [dequeue, hsize, hhead, hn, hv]
          · refine ⟨rfl, rfl, rfl, trivial, by simp, by simp, fun a => ?_, by simp, by simp⟩
            by_cases hax : a = x
            · simp [hax]
            · have := h.allocated a
              simpa [hax] using this
      | cons y l =>
          obtain ⟨m, hm⟩ := h.node (a := y) (by simp)
          have hright : q.rightOf x = y := (threaded_cons.mp h.links).1
          have hxr : n.right = y := by simpa [rightOf, hn] using hright
          have hyx : y ≠ x := fun he => (List.nodup_cons.mp h.nodup).1 (by simp [he])
          have hsize : q.size ≠ 1 := by rw [h.size_eq]; simp
          let nodes' := Function.update (Function.update q.nodes y (some { m with left := NULL })) x none
          refine ⟨⟨nodes', y, q.tail, (q.size + (2 ^ 64 - 1)) % 2 ^ 64⟩, ?_, y :: l,
            h.popped hm ?_ ?_ ?_ rfl rfl rfl⟩
          · simp [dequeue, hsize, hhead, hn, hv, hxr, hm, nodes']
          · simp [nodes']
          · simp [nodes', hyx]
          · intro a hax hay
            simp [nodes', hax, hay]

end Queue

end Threads
