import Mathlib

/-!
# Lists kept in order

`bubble` is one backward pass of exchanges over an array whose part in front of
the start is in order: it carries the element at the start to its place.  `search`
is a binary search.  Elements are ordered by a key with values in any linear
order; `Ascending key xs` says that the keys increase strictly, so that a list in
order is determined by its elements.
-/

namespace SortedList

variable {α β : Type*}

/-- One pass from `index` down to 1, which exchanges neighbours that are out of
order. -/
def bubble (less : α → α → Bool) (xs : List α) : Nat → List α
  | 0 => xs
  | index + 1 =>
    match xs[index + 1]?, xs[index]? with
    | some cur, some previous =>
      if less cur previous then bubble less ((xs.set index cur).set (index + 1) previous) index
      else bubble less xs index
    | _, _ => xs

/-- The position of an element that compares equal, between `left` and `right`. -/
def search (cmp : α → Ordering) (xs : List α) (left right : Nat) : Option Nat :=
  if left < right then
    let mid := (left + right) / 2
    match xs[mid]? with
    | some x =>
      match cmp x with
      | .eq => some mid
      | .lt => search cmp xs left mid
      | .gt => search cmp xs (mid + 1) right
    | none => none
  else none
termination_by right - left

/-- The same search for the element itself, in which an access outside the array is an
error. -/
def probe (cmp : α → Ordering) (xs : List α) (left right : Nat) : Option (Option α) :=
  if left < right then
    let mid := (left + right) / 2
    match xs[mid]? with
    | some x =>
      match cmp x with
      | .eq => some (some x)
      | .lt => probe cmp xs left mid
      | .gt => probe cmp xs (mid + 1) right
    | none => none
  else some none
termination_by right - left

/-- What the pass makes of the elements before the start, the last one first. -/
def carry (less : α → α → Bool) : List α → α → List α
  | [], cur => [cur]
  | previous :: front, cur =>
    if less cur previous then carry less front cur ++ [previous]
    else carry less front previous ++ [cur]

section Bubble

variable {less : α → α → Bool} {front xs rest : List α} {cur : α}

/-- Going down in the array is going down in the list, other way round. -/
theorem bubble_eq_carry :
    bubble less (front.reverse ++ cur :: rest) front.length = carry less front cur ++ rest := by
  induction front generalizing cur rest with
  | nil => rfl
  | cons previous front ih =>
      have hsplit : (previous :: front).reverse ++ cur :: rest =
          front.reverse ++ previous :: cur :: rest := by simp
      have hlen := front.length_reverse
      have hcur : (front.reverse ++ previous :: cur :: rest)[front.length + 1]? = some cur := by
        rw [List.getElem?_append_right (by omega)]
        simp
      have hprevious : (front.reverse ++ previous :: cur :: rest)[front.length]? =
          some previous := by
        rw [List.getElem?_append_right (by omega)]
        simp
      rw [hsplit, List.length_cons]
      simp only [bubble, hcur, hprevious, carry]
      split
      · have hset : ((front.reverse ++ previous :: cur :: rest).set front.length cur).set
            (front.length + 1) previous = front.reverse ++ cur :: previous :: rest := by
          rw [List.set_append_right _ _ (by omega), List.set_append_right _ _ (by omega)]
          simp
        rw [hset, ih, List.append_assoc, List.singleton_append]
      · rw [ih, List.append_assoc, List.singleton_append]

/-- Elements only change their places. -/
theorem carry_perm : (carry less front cur).Perm (cur :: front) := by
  induction front generalizing cur with
  | nil => exact List.Perm.refl _
  | cons previous front ih =>
      rw [carry]
      split
      · exact (List.perm_append_singleton _ _).trans
          ((List.Perm.cons _ ih).trans (List.Perm.swap _ _ _))
      · exact (List.perm_append_singleton _ _).trans (List.Perm.cons _ ih)

/-- The new element is at the end at first. -/
theorem bubble_concat : bubble less (xs ++ [cur]) xs.length = carry less xs.reverse cur := by
  have heq : bubble less (xs.reverse.reverse ++ cur :: []) xs.reverse.length =
      carry less xs.reverse cur ++ [] := bubble_eq_carry
  rwa [List.reverse_reverse, List.length_reverse, List.append_nil] at heq

/-- The pass over a list with a new last element loses and adds nothing. -/
theorem bubble_perm : (bubble less (xs ++ [cur]) xs.length).Perm (cur :: xs) := by
  rw [bubble_concat]
  exact carry_perm.trans (List.Perm.cons _ xs.reverse_perm)

end Bubble

section Order

variable [LinearOrder β] {key : α → β} {less : α → α → Bool} {front xs ys : List α} {cur x y : α}

/-- The keys increase strictly. -/
def Ascending (key : α → β) (xs : List α) : Prop := xs.Pairwise fun x y => key x < key y

/-- A key belongs to one element. -/
theorem Ascending.eq_of_key (h : Ascending key xs) (hx : x ∈ xs) (hy : y ∈ xs)
    (hkey : key x = key y) : x = y := by
  by_contra hne
  have hsymm : Std.Symm fun x y : α => key x ≠ key y := ⟨fun _ _ h => h.symm⟩
  have hkeys : xs.Pairwise fun x y => key x ≠ key y := h.imp ne_of_lt
  exact hkeys.forall hx hy hne hkey

/-- Lists in order with the same elements are equal. -/
theorem Ascending.ext (hxs : Ascending key xs) (hys : Ascending key ys)
    (hmem : ∀ x, x ∈ xs ↔ x ∈ ys) : xs = ys := by
  have hanti : Std.Antisymm fun x y : α => key x < key y :=
    ⟨fun _ _ h h' => absurd h' (lt_asymm h)⟩
  have hirrefl : Std.Irrefl fun x y : α => key x < key y := ⟨fun _ => lt_irrefl _⟩
  exact List.Pairwise.eq_of_mem_iff hxs hys hmem

/-- The keys do not decrease. -/
def Sorted (key : α → β) (xs : List α) : Prop := xs.Pairwise fun x y => key x ≤ key y

/-- Ascending keys are sorted. -/
theorem Ascending.sorted (h : Ascending key xs) : Sorted key xs := h.imp le_of_lt

/-- The pass keeps what it carries over in order. -/
theorem sorted_carry (hless : ∀ x y, less x y = true ↔ key x < key y)
    (hfront : front.Pairwise fun x y => key y ≤ key x) : Sorted key (carry less front cur) := by
  induction front generalizing cur with
  | nil => exact List.pairwise_singleton _ _
  | cons previous front ih =>
      obtain ⟨hlast, hfront⟩ := List.pairwise_cons.mp hfront
      -- the larger of the two is put behind what the pass carries on
      have hbehind : ∀ {c d : α}, key c ≤ key d → key previous ≤ key d →
          Sorted key (carry less front c ++ [d]) := by
        intro c d hcd hprevious
        refine List.pairwise_append.mpr ⟨ih hfront, List.pairwise_singleton _ _, ?_⟩
        intro x hx y hy
        obtain rfl := List.mem_singleton.mp hy
        rcases List.mem_cons.mp (carry_perm.mem_iff.mp hx) with rfl | hx
        · exact hcd
        · exact (hlast x hx).trans hprevious
      rw [carry]
      by_cases hlt : key cur < key previous
      · rw [if_pos ((hless _ _).mpr hlt)]
        exact hbehind hlt.le le_rfl
      · rw [if_neg (fun h => hlt ((hless _ _).mp h))]
        exact hbehind (not_lt.mp hlt) (not_lt.mp hlt)

/-- **Insertion.** After the pass a new last element is in its place. -/
theorem sorted_bubble (hless : ∀ x y, less x y = true ↔ key x < key y) (hxs : Sorted key xs) :
    Sorted key (bubble less (xs ++ [cur]) xs.length) := by
  rw [bubble_concat]
  exact sorted_carry hless (List.pairwise_reverse.mpr hxs)

/-- Different keys that do not decrease increase. -/
theorem Sorted.ascending (h : Sorted key xs) (hnodup : (xs.map key).Nodup) : Ascending key xs := by
  rw [List.nodup_iff_pairwise_ne, List.pairwise_map] at hnodup
  exact h.imp₂ (fun _ _ hle hne => lt_of_le_of_ne hle hne) hnodup

/-- After the pass a new last element with a new key is in its place. -/
theorem ascending_bubble (hless : ∀ x y, less x y = true ↔ key x < key y)
    (hxs : Ascending key xs) (hcur : ∀ x ∈ xs, key x ≠ key cur) :
    Ascending key (bubble less (xs ++ [cur]) xs.length) := by
  refine (sorted_bubble hless hxs.sorted).ascending ?_
  rw [(bubble_perm.map key).nodup_iff, List.map_cons, List.nodup_cons]
  refine ⟨?_, ?_⟩
  · intro hmem
    obtain ⟨x, hx, heq⟩ := List.mem_map.mp hmem
    exact hcur x hx heq
  · rw [List.nodup_iff_pairwise_ne, List.pairwise_map]
    exact hxs.imp ne_of_lt

/-- The pass exchanges no elements with one key. -/
theorem filter_carry (hless : ∀ x y, less x y = true ↔ key x < key y) (k : β) :
    (carry less front cur).filter (key · = k) = (front.reverse ++ [cur]).filter (key · = k) := by
  induction front generalizing cur with
  | nil => rfl
  | cons previous front ih =>
      rw [carry, List.reverse_cons]
      by_cases hlt : key cur < key previous
      · rw [if_pos ((hless _ _).mpr hlt)]
        simp only [List.filter_append, ih, List.append_assoc]
        by_cases hk : key cur = k
        · have hprevious : key previous ≠ k := fun h => ne_of_lt hlt (hk.trans h.symm)
          simp [hprevious]
        · simp [hk]
      · rw [if_neg (fun h => hlt ((hless _ _).mp h))]
        simp only [List.filter_append, ih, List.append_assoc]

/-- **Stability.** The pass puts the new element behind those with its key. -/
theorem filter_bubble (hless : ∀ x y, less x y = true ↔ key x < key y) (k : β) :
    (bubble less (xs ++ [cur]) xs.length).filter (key · = k) =
      xs.filter (key · = k) ++ [cur].filter (key · = k) := by
  rw [bubble_concat, filter_carry hless, List.reverse_reverse, List.filter_append]

/-- A sorted list is determined by the elements with each key, in their order. -/
theorem Sorted.ext (hxs : Sorted key xs) (hys : Sorted key ys)
    (hsame : ∀ k, xs.filter (key · = k) = ys.filter (key · = k)) : xs = ys := by
  induction xs generalizing ys with
  | nil =>
      cases ys with
      | nil => rfl
      | cons y ys => simpa using hsame (key y)
  | cons x xs ih =>
      cases ys with
      | nil => simpa using hsame (key x)
      | cons y ys =>
          obtain ⟨hx, hxs'⟩ := List.pairwise_cons.mp hxs
          obtain ⟨hy, hys'⟩ := List.pairwise_cons.mp hys
          -- the first elements have the least key of the lists
          have hmem : ∀ z, z ∈ x :: xs ↔ z ∈ y :: ys := by
            intro z
            have := congrArg (z ∈ ·) (hsame (key z))
            simpa using this
          have hxy : key x ≤ key y := by
            rcases List.mem_cons.mp ((hmem y).mpr List.mem_cons_self) with rfl | h
            · exact le_rfl
            · exact hx y h
          have hyx : key y ≤ key x := by
            rcases List.mem_cons.mp ((hmem x).mp List.mem_cons_self) with rfl | h
            · exact le_rfl
            · exact hy x h
          have hkey : key y = key x := le_antisymm hyx hxy
          have hhead := hsame (key x)
          rw [List.filter_cons_of_pos (by simp), List.filter_cons_of_pos (by simp [hkey]),
            List.cons.injEq] at hhead
          obtain ⟨rfl, -⟩ := hhead
          congr 1
          refine ih hxs' hys' ?_
          intro k
          have htail := hsame k
          by_cases hk : key x = k
          · rw [List.filter_cons_of_pos (by simpa using hk),
              List.filter_cons_of_pos (by simpa using hk), List.cons.injEq] at htail
            exact htail.2
          · rwa [List.filter_cons_of_neg (by simpa using hk),
              List.filter_cons_of_neg (by simpa using hk)] at htail

/-- The comparison of keys is transitive -/
theorem keyLe_trans (x y z : α) (hxy : decide (key x ≤ key y) = true)
    (hyz : decide (key y ≤ key z) = true) : decide (key x ≤ key z) = true :=
  decide_eq_true ((of_decide_eq_true hxy).trans (of_decide_eq_true hyz))

/-- and total, -/
theorem keyLe_total (x y : α) : (decide (key x ≤ key y) || decide (key y ≤ key x)) = true := by
  simpa using le_total (key x) (key y)

/-- The stable sort by the keys. -/
def sort (key : α → β) (xs : List α) : List α := xs.mergeSort fun x y => key x ≤ key y

/-- so sorting sorts. -/
theorem sorted_sort : Sorted key (sort key xs) :=
  (List.pairwise_mergeSort keyLe_trans keyLe_total xs).imp of_decide_eq_true

/-- The sort leaves the elements with one key in their order. -/
theorem filter_sort (k : β) : (sort key xs).filter (key · = k) = xs.filter (key · = k) := by
  have hequal : (xs.filter (key · = k)).Pairwise fun x y => decide (key x ≤ key y) = true := by
    refine List.pairwise_of_forall_mem_list ?_
    intro x hx y hy
    simp only [List.mem_filter, decide_eq_true_eq] at hx hy
    exact decide_eq_true (hx.2.trans hy.2.symm).le
  have hsub := List.sublist_mergeSort keyLe_trans keyLe_total hequal List.filter_sublist
  have hfilter := hsub.filter (key · = k)
  rw [List.filter_filter] at hfilter
  simp only [Bool.and_self] at hfilter
  exact (hfilter.eq_of_length ((List.mergeSort_perm xs _).filter _).length_eq.symm).symm

/-- **Insertion sort.** Elements that are carried to their places one after the other end up as
the stable sort puts them. -/
theorem foldl_bubble (hless : ∀ x y, less x y = true ↔ key x < key y) :
    xs.foldl (fun ys x => bubble less (ys ++ [x]) ys.length) [] = sort key xs := by
  have hfold : ∀ ys, Sorted key ys →
      Sorted key (xs.foldl (fun ys x => bubble less (ys ++ [x]) ys.length) ys) ∧
        ∀ k, (xs.foldl (fun ys x => bubble less (ys ++ [x]) ys.length) ys).filter (key · = k) =
          ys.filter (key · = k) ++ xs.filter (key · = k) := by
    induction xs with
    | nil => exact fun ys hys => ⟨hys, fun k => (List.append_nil _).symm⟩
    | cons x xs ih =>
        intro ys hys
        obtain ⟨hsorted, hfilter⟩ := ih _ (sorted_bubble hless hys)
        refine ⟨hsorted, ?_⟩
        intro k
        rw [List.foldl_cons, hfilter, filter_bubble hless, List.append_assoc, ← List.filter_append,
          List.singleton_append]
  obtain ⟨hsorted, hfilter⟩ := hfold [] List.Pairwise.nil
  refine hsorted.ext sorted_sort ?_
  intro k
  rw [hfilter, filter_sort, List.filter_nil, List.nil_append]

/-- A binary search finds an element that compares equal. -/
theorem search_some {cmp : α → Ordering} {left right i : Nat}
    (h : search cmp xs left right = some i) : ∃ x, xs[i]? = some x ∧ cmp x = .eq := by
  fun_induction search cmp xs left right with
  | case1 left right hlt mid x hx hcmp =>
      obtain rfl := Option.some.inj h
      exact ⟨x, hx, hcmp⟩
  | case2 left right hlt mid x hx hcmp ih => exact ih h
  | case3 left right hlt mid x hx hcmp ih => exact ih h
  | case4 => cases h
  | case5 => cases h

/-- In a list in order, positions and keys are in the same order. -/
theorem Ascending.key_lt (hxs : Ascending key xs) {i j : Nat} (hij : i < j)
    (hx : xs[i]? = some x) (hy : xs[j]? = some y) : key x < key y := by
  obtain ⟨hi, rfl⟩ := List.getElem?_eq_some_iff.mp hx
  obtain ⟨hj, rfl⟩ := List.getElem?_eq_some_iff.mp hy
  exact List.pairwise_iff_getElem.mp hxs i j hi hj hij

/-- Elements further behind have larger keys. -/
theorem Sorted.key_le (hxs : Sorted key xs) {i j : Nat} (hij : i < j) (hx : xs[i]? = some x)
    (hy : xs[j]? = some y) : key x ≤ key y := by
  obtain ⟨hi, rfl⟩ := List.getElem?_eq_some_iff.mp hx
  obtain ⟨hj, rfl⟩ := List.getElem?_eq_some_iff.mp hy
  exact List.pairwise_iff_getElem.mp hxs i j hi hj hij

/-- **Binary search.** In a list in order it misses no element with the key. -/
theorem search_none {cmp : α → Ordering} {k : β} (hless : ∀ x, cmp x = .lt → k < key x)
    (hgreater : ∀ x, cmp x = .gt → key x < k) (hxs : Sorted key xs) {left right : Nat}
    (hright : right ≤ xs.length) (h : search cmp xs left right = none) {i : Nat}
    (hleft : left ≤ i) (hi : i < right)
    (hx : xs[i]? = some x) : key x ≠ k := by
  fun_induction search cmp xs left right with
  | case1 => cases h
  | case2 left right hlt mid m hm hcmp ih =>
      have hless := hless m hcmp
      rcases lt_trichotomy i mid with hlow | rfl | hhigh
      · exact ih (by omega) h hleft hlow
      · obtain rfl := Option.some.inj (hm.symm.trans hx)
        exact ne_of_gt hless
      · exact ne_of_gt (hless.trans_le (hxs.key_le hhigh hm hx))
  | case3 left right hlt mid m hm hcmp ih =>
      have hgreater := hgreater m hcmp
      rcases lt_trichotomy i mid with hlow | rfl | hhigh
      · exact ne_of_lt ((hxs.key_le hlow hx hm).trans_lt hgreater)
      · obtain rfl := Option.some.inj (hm.symm.trans hx)
        exact ne_of_lt hgreater
      · exact ih hright h hhigh hi
  | case4 left right hlt mid hm =>
      rw [List.getElem?_eq_none_iff] at hm
      omega
  | case5 => omega

/-- The search looks at no place outside the array. -/
theorem probe_eq {cmp : α → Ordering} {left right : Nat} (hright : right ≤ xs.length) :
    probe cmp xs left right = some ((search cmp xs left right).bind (xs[·]?)) := by
  fun_induction search cmp xs left right with
  | case1 left right hlt mid x hx hcmp =>
      rw [probe, if_pos hlt]
      simp only [mid] at hx
      simp [hx, hcmp, mid]
  | case2 left right hlt mid x hx hcmp ih =>
      rw [probe, if_pos hlt]
      simp only [mid] at hx
      simpa [hx, hcmp] using ih (by omega)
  | case3 left right hlt mid x hx hcmp ih =>
      rw [probe, if_pos hlt]
      simp only [mid] at hx
      simpa [hx, hcmp] using ih hright
  | case4 left right hlt mid hx =>
      rw [List.getElem?_eq_none_iff] at hx
      omega
  | case5 left right hlt => simp [probe, hlt]

end Order

end SortedList
