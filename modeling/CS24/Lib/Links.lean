import Mathlib

/-!
# Doubly linked lists over address functions

A linked structure is given by two functions `right` and `left` from node
addresses to node addresses and a null address `nil`.  `Threaded right left
nil l` says that the nodes of `l`, in this order, form such a structure: `right`
of each node is the next one, `left` of every node but the first is the one
before, and `right` of the last is `nil`.  Nothing is said about `left` of the
first node, which programs use in different ways.

The lemmas describe the three ways a list changes, as conditions on the new
link functions at the nodes concerned: a node is put in front, put at the end,
or cut out.
-/

namespace Links

variable {α : Type*} {nil : α} {right left right' left' : α → α}

/-- The nodes of the list, in order, are linked both ways and end in `nil`. -/
def Threaded (right left : α → α) (nil : α) : List α → Prop
  | [] => True
  | [x] => right x = nil
  | x :: y :: l => right x = y ∧ left y = x ∧ Threaded right left nil (y :: l)

/-- The first node of a list, or the null address. -/
def first (nil : α) (l : List α) : α := l.headD nil

@[simp] theorem first_nil : first nil ([] : List α) = nil := rfl

@[simp] theorem first_cons (x : α) (l : List α) : first nil (x :: l) = x := rfl

@[simp] theorem threaded_nil : Threaded right left nil ([] : List α) := trivial

/-- Peel the first node off: its `right` is the first of the rest, whose `left`
leads back. -/
theorem threaded_cons {x : α} {l : List α} :
    Threaded right left nil (x :: l) ↔
      right x = first nil l ∧ (∀ y ∈ l.head?, left y = x) ∧ Threaded right left nil l := by
  cases l with
  | nil => simp [Threaded]
  | cons y l => simp [Threaded]

/-- Only the links of listed nodes matter, and `left` of the first does not. -/
theorem Threaded.congr {l : List α} (h : Threaded right left nil l)
    (hr : ∀ x ∈ l, right' x = right x) (hl : ∀ x ∈ l.tail, left' x = left x) :
    Threaded right' left' nil l := by
  induction l with
  | nil => trivial
  | cons x l ih =>
      obtain ⟨hx, hy, htail⟩ := threaded_cons.mp h
      refine threaded_cons.mpr ⟨by rw [hr x (by simp), hx], ?_, ?_⟩
      · intro y hm
        rw [hl y (List.mem_of_mem_head? hm)]
        exact hy y hm
      · exact ih htail (fun z hz => hr z (by simp [hz]))
          (fun z hz => hl z (List.mem_of_mem_tail hz))

/-- The `right` of a node inside the list is the first node of what follows. -/
theorem Threaded.right_mid {before after : List α} {x : α}
    (h : Threaded right left nil (before ++ x :: after)) :
    right x = first nil after := by
  induction before with
  | nil => exact (threaded_cons.mp h).1
  | cons y before ih => exact ih (threaded_cons.mp h).2.2

/-- The `left` of a node that has a predecessor is that predecessor. -/
theorem Threaded.left_mid {before after : List α} {x y : α}
    (h : Threaded right left nil (before ++ y :: x :: after)) : left x = y := by
  induction before with
  | nil => exact (threaded_cons.mp h).2.1 x (by simp)
  | cons z before ih => exact ih (threaded_cons.mp h).2.2

/-- Put a node in front: it points to the old first node, which points back. -/
theorem Threaded.push_front {l : List α} {x : α} (h : Threaded right left nil l)
    (hx : right' x = first nil l) (hr : ∀ y ∈ l, right' y = right y)
    (hback : ∀ y ∈ l.head?, left' y = x) (hl : ∀ y ∈ l.tail, left' y = left y) :
    Threaded right' left' nil (x :: l) :=
  threaded_cons.mpr ⟨hx, hback, h.congr hr hl⟩

/-- Put a node at the end of a nonempty list. -/
theorem Threaded.push_back {l : List α} {x last : α}
    (h : Threaded right left nil (l ++ [last])) (hx : right' x = nil)
    (hlast : right' last = x) (hback : left' x = last)
    (hr : ∀ y ∈ l, right' y = right y) (hl : ∀ y ∈ (l ++ [last]).tail, left' y = left y) :
    Threaded right' left' nil (l ++ [last, x]) := by
  induction l with
  | nil => simp [Threaded, hx, hlast, hback]
  | cons z l ih =>
      obtain ⟨hz, hy, htail⟩ := threaded_cons.mp h
      have hrest : Threaded right' left' nil (l ++ [last, x]) :=
        ih htail (fun y hm => hr y (by simp [hm])) (fun y hm => hl y (List.mem_of_mem_tail hm))
      refine threaded_cons.mpr ⟨?_, ?_, hrest⟩
      · rw [hr z (by simp), hz]
        cases l <;> rfl
      · intro y hm
        have hm' : y ∈ (l ++ [last]).head? := by cases l <;> simpa using hm
        rw [hl y (List.mem_of_mem_head? hm')]
        exact hy y hm'

/-- Cut out a node that has a predecessor: the predecessor takes over its
`right`, and the node after it, if any, its `left`. -/
theorem Threaded.cut {before after : List α} {x y : α}
    (h : Threaded right left nil (before ++ y :: x :: after))
    (hy : right' y = right x) (hr : ∀ z ∈ before ++ after, right' z = right z)
    (hnext : ∀ z ∈ after.head?, left' z = left x)
    (hl : ∀ z ∈ (before ++ [y]).tail ++ after.tail, left' z = left z) :
    Threaded right' left' nil (before ++ y :: after) := by
  induction before with
  | nil =>
      obtain ⟨-, hx, htail⟩ := threaded_cons.mp h
      obtain ⟨hxr, -, hafter⟩ := threaded_cons.mp htail
      refine threaded_cons.mpr ⟨hy.trans hxr, ?_, ?_⟩
      · intro z hz
        rw [hnext z hz]
        exact hx x (by simp)
      · exact hafter.congr (fun z hz => hr z (by simpa using hz))
          (fun z hz => hl z (by simpa using hz))
  | cons w before ih =>
      obtain ⟨hw, hback, htail⟩ := threaded_cons.mp h
      have hrest : Threaded right' left' nil (before ++ y :: after) := by
        refine ih htail (fun z hz => hr z (by simp at hz ⊢; tauto)) ?_
        intro z hz
        refine hl z ?_
        rcases List.mem_append.mp hz with hz | hz
        · exact List.mem_append_left _ (List.mem_of_mem_tail hz)
        · exact List.mem_append_right _ hz
      refine threaded_cons.mpr ⟨?_, ?_, hrest⟩
      · rw [hr w (by simp), hw]
        cases before <;> rfl
      · intro z hz
        have hz' : z ∈ (before ++ y :: x :: after).head? := by cases before <;> simpa using hz
        rw [hl z ?_]
        · exact hback z hz'
        · cases before with
          | nil => simp at hz; simp [hz]
          | cons v before => simp at hz; simp [hz]

/-- Following `right` from the first node visits the list in order. -/
theorem Threaded.iterate {l : List α} (h : Threaded right left nil l) {i : Nat}
    (hi : i < l.length) : right^[i] (first nil l) = l[i] := by
  induction l generalizing i with
  | nil => simp at hi
  | cons x l ih =>
      obtain ⟨hx, -, htail⟩ := threaded_cons.mp h
      cases i with
      | zero => rfl
      | succ i => simpa [hx] using ih htail (by simpa using hi)

/-- After the last node, `right` leads to the null address. -/
theorem Threaded.iterate_length {l : List α} (h : Threaded right left nil l) :
    right^[l.length] (first nil l) = nil := by
  induction l with
  | nil => rfl
  | cons x l ih =>
      obtain ⟨hx, -, htail⟩ := threaded_cons.mp h
      simpa [hx] using ih htail

end Links
