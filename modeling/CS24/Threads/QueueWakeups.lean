import CS24.Threads.QueueRuns

/-!
# No wakeup of the queue is lost

Every `queue_enqueue` signals, so while some thread waits, each value in the queue
has a woken thread that has not tested the loop condition again.  A thread that
takes a value without having waited takes it from one of these, who then waits
again; a thread that wakes up for no reason only adds to them.
-/

namespace Threads

open System

namespace Monitor

variable {T α : Type*} [DecidableEq T]

/-- While a thread waits, there are as many woken threads as values. -/
structure Covered (m : Monitor T α) : Prop where
  disjoint : Disjoint m.waiting m.woken
  size_le : m.waiting.Nonempty → m.queue.size ≤ m.woken.card

variable {m m' : Monitor T α} {t w : T} {v : α} {vs : List α}

theorem card_wake (hm : Disjoint m.waiting m.woken) (hw : w ∈ m.waiting) :
    (m.wake w).woken.card = m.woken.card + 1 :=
  Finset.card_insert_of_notMem (Finset.disjoint_left.mp hm hw)

theorem disjoint_wake (hm : Disjoint m.waiting m.woken) :
    Disjoint (m.wake w).waiting (m.wake w).woken := by
  refine Finset.disjoint_left.mpr fun x hx hx' => ?_
  obtain ⟨hne, hx⟩ := Finset.mem_erase.mp hx
  rcases Finset.mem_insert.mp hx' with rfl | hx'
  · exact hne rfl
  · exact Finset.disjoint_left.mp hm hx hx'

/-- A wakeup for no reason. -/
theorem Covered.wake (hm : m.Covered) (hw : w ∈ m.waiting) : (m.wake w).Covered := by
  refine ⟨disjoint_wake hm.disjoint, ?_⟩
  intro _
  have hsize := hm.size_le ⟨w, hw⟩
  have hcard := card_wake hm.disjoint hw
  change m.queue.size ≤ _
  omega

/-- One more value, and one more woken thread if any waits. -/
theorem Covered.enqueue (hm : m.Covered) (hq : m.queue.Represents vs) (h : Enqueues t v m m') :
    m'.Covered := by
  have hsize : m'.queue.size = m.queue.size + 1 := by
    rw [(h.represents hq).size_eq, hq.size_eq, List.length_append, List.length_singleton]
  obtain ⟨-, -, -, -, hsignal⟩ := h
  cases hsignal with
  | nobody hempty =>
      refine ⟨hm.disjoint, ?_⟩
      intro hwaiting
      exact absurd hempty hwaiting.ne_empty
  | one hw =>
      refine ⟨disjoint_wake hm.disjoint, ?_⟩
      intro _
      have hle := hm.size_le ⟨_, hw⟩
      have hcard := card_wake hm.disjoint hw
      rw [hsize]
      exact le_of_le_of_eq (Nat.succ_le_succ hle) hcard.symm

/-- A thread waits only at an empty queue. -/
theorem Covered.wait (hm : m.Covered) (h : Dequeues t none m m') : m'.Covered := by
  obtain ⟨ht, hsize⟩ := h
  refine ⟨?_, ?_⟩
  · refine Finset.disjoint_left.mpr fun x hx hx' => ?_
    obtain ⟨hne, hx'⟩ := Finset.mem_erase.mp hx'
    rcases Finset.mem_insert.mp hx with rfl | hx
    · exact hne rfl
    · exact Finset.disjoint_left.mp hm.disjoint hx hx'
  · intro _
    change m.queue.size ≤ _
    omega

/-- A thread that takes a value, woken or not, leaves enough woken threads. -/
theorem Covered.take (hm : m.Covered) (hq : m.queue.Represents vs)
    (h : Dequeues t (some v) m m') : m'.Covered := by
  obtain ⟨rest, rfl, hq'⟩ := h.represents hq
  have hsize : m.queue.size = m'.queue.size + 1 := by
    rw [hq'.size_eq, hq.size_eq, List.length_cons]
  obtain - | ⟨ht, -, -⟩ := h
  refine ⟨hm.disjoint.mono_right (Finset.erase_subset _ _), ?_⟩
  intro hwaiting
  have hle := hm.size_le hwaiting
  have hcard : m.woken.card - 1 ≤ (m.woken.erase t).card := Finset.pred_card_le_card_erase
  change _ ≤ (m.woken.erase t).card
  omega

/-- Whoever has tested the condition at a queue with a value leaves with one. -/
theorem exists_take (hq : m.queue.Represents vs) (hsize : m.queue.size ≠ 0) (ht : t ∉ m.waiting) :
    ∃ v m', Dequeues t (some v) m m' := by
  cases vs with
  | nil => exact absurd hq.size_eq hsize
  | cons v rest =>
      obtain ⟨q, hrun, -⟩ := Queue.dequeue_spec hq
      exact ⟨v, _, .take ht hsize hrun⟩

end Monitor

namespace QueueState

variable {T α : Type*} [DecidableEq T] {s s' : QueueState T α}

theorem step_covered (hq : Accounted s) (hs : s.Covered) (hstep : Step s s') : s'.Covered := by
  obtain ⟨vs, hq, -⟩ := hq
  cases hstep with
  | enqueue h => exact hs.enqueue hq h
  | wait h => exact hs.wait h
  | take h => exact hs.take hq h
  | spurious h => exact hs.wake h

theorem reachable_covered (h : Reachable s) : s.Covered := by
  refine Reach.invariant_of_reach (I := fun s : QueueState T α => s.Covered) h ?_ ?_
  · rintro s rfl
    exact ⟨Finset.disjoint_empty_left _, fun h => absurd rfl h.ne_empty⟩
  · intro s s' hreach hs hstep
    exact step_covered (reachable_accounted hreach) hs hstep

/-- **No lost wakeup.** In every state of every run: while a thread waits, at least
as many woken threads as there are values have not tested the condition again, and
if there is a value then one of them can take it. -/
theorem reachable_wakeup (h : Reachable s) :
    (s.waiting.Nonempty → s.queue.size ≤ s.woken.card) ∧
    (s.queue.size ≠ 0 → s.waiting.Nonempty →
      ∃ w ∈ s.woken, ∃ v m, Dequeues w (some v) s.toMonitor m) := by
  have hcovered := reachable_covered h
  refine ⟨hcovered.size_le, ?_⟩
  intro hsize hwaiting
  have hle := hcovered.size_le hwaiting
  obtain ⟨w, hw⟩ : s.woken.Nonempty := Finset.card_pos.mp (by omega)
  have hw' : w ∉ s.waiting := fun hmem => Finset.disjoint_left.mp hcovered.disjoint hmem hw
  obtain ⟨vs, hq, -⟩ := reachable_accounted h
  obtain ⟨v, m, htake⟩ := Monitor.exists_take hq hsize hw'
  exact ⟨w, hw, v, m, htake⟩

/-- Of the waiting threads 1 and 2, the value that thread 0 puts in wakes one. -/
def oneWoken : QueueState Nat Nat :=
  ⟨⟨⟨Function.update (fun _ => none) 16 (some ⟨7, NULL, NULL⟩), 16, 16, 1⟩, {2}, {1}⟩,
    [(0, 7)], []⟩

theorem oneWoken_wakeup : oneWoken.waiting.Nonempty ∧ oneWoken.queue.size ≠ 0 ∧
    ((oneWoken.waiting.Nonempty → oneWoken.queue.size ≤ oneWoken.woken.card) ∧
    (oneWoken.queue.size ≠ 0 → oneWoken.waiting.Nonempty →
      ∃ w ∈ oneWoken.woken, ∃ v m, Dequeues w (some v) oneWoken.toMonitor m)) := by
  have h0 : Reachable (init : QueueState Nat Nat) := .init rfl
  have h1 : Reachable (⟨⟨Queue.init, {1}, ∅⟩, [], []⟩ : QueueState Nat Nat) :=
    h0.step (.wait (.wait (t := 1) (by simp [init]) rfl))
  have h2 : Reachable (⟨⟨Queue.init, {2, 1}, ∅⟩, [], []⟩ : QueueState Nat Nat) :=
    h1.step (.wait (.wait (t := 2) (by simp) rfl))
  have hfresh : (Queue.init : Queue Nat).Fresh 16 := ⟨rfl, by decide, by decide⟩
  have henq : Enqueues 0 7 (⟨Queue.init, {2, 1}, ∅⟩ : Monitor Nat Nat) oneWoken.toMonitor :=
    .mk (by simp) (by simp) hfresh rfl (.one (w := 1) (by simp))
  exact ⟨⟨2, by simp [oneWoken]⟩, by decide, reachable_wakeup (h2.step (.enqueue henq))⟩

end QueueState

end Threads
