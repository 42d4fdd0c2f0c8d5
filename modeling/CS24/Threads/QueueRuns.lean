import CS24.Lib.System
import CS24.Threads.Queue

/-!
# The queue under any number of threads

A thread enters a critical section, runs it while it holds the lock, and leaves
it, so a run is a sequence of critical sections.  `pthread_cond_wait` ends one:
the thread gives up the lock and waits until it is woken, by a signal or for no
reason, and then tests the loop condition again in a critical section of its
own.  `malloc` is assumed to succeed; it may return any address not in use.
-/

namespace Threads

open System

/-- A queue whose lock is free, the threads in `pthread_cond_wait`, and those
woken from it that do not have the lock again yet. -/
structure Monitor (T α : Type*) where
  queue : Queue α
  waiting : Finset T
  woken : Finset T

section Monitor

variable {T α : Type*} [DecidableEq T]

/-- A thread wakes up in `pthread_cond_wait`. -/
def Monitor.wake (w : T) (m : Monitor T α) : Monitor T α :=
  { m with waiting := m.waiting.erase w, woken := insert w m.woken }

/-- `pthread_cond_signal` wakes one waiting thread, if there is one. -/
inductive Signals : Monitor T α → Monitor T α → Prop
  | nobody {m : Monitor T α} : m.waiting = ∅ → Signals m m
  | one {m : Monitor T α} {w : T} : w ∈ m.waiting → Signals m (m.wake w)

/-- Thread `t` runs `queue_enqueue(queue, v)`. -/
inductive Enqueues (t : T) (v : α) : Monitor T α → Monitor T α → Prop
  | mk {m m' : Monitor T α} {node : Nat} {q : Queue α} : t ∉ m.waiting → t ∉ m.woken →
      m.queue.Fresh node → m.queue.enqueue node v = some q →
      Signals { m with queue := q } m' → Enqueues t v m m'

/-- Thread `t`, entering `queue_dequeue` or woken in it, has the lock and tests the
loop condition: it waits, or it leaves with a value. -/
inductive Dequeues (t : T) : Option α → Monitor T α → Monitor T α → Prop
  | wait {m : Monitor T α} : t ∉ m.waiting → m.queue.size = 0 →
      Dequeues t none m { m with waiting := insert t m.waiting, woken := m.woken.erase t }
  | take {m : Monitor T α} {v : α} {q : Queue α} : t ∉ m.waiting → m.queue.size ≠ 0 →
      m.queue.dequeue = some (v, q) →
      Dequeues t (some v) m { m with queue := q, woken := m.woken.erase t }

theorem Signals.queue_eq {m m' : Monitor T α} (h : Signals m m') : m'.queue = m.queue := by
  cases h <;> rfl

theorem Enqueues.represents {m m' : Monitor T α} {t : T} {v : α} {vs : List α}
    (h : Enqueues t v m m') (hq : m.queue.Represents vs) : m'.queue.Represents (vs ++ [v]) := by
  obtain ⟨-, -, hfresh, hrun, hsignal⟩ := h
  obtain ⟨q, hrun', hq'⟩ := Queue.enqueue_spec hq hfresh v
  obtain rfl := Option.some.inj (hrun.symm.trans hrun')
  rwa [hsignal.queue_eq]

theorem Dequeues.of_none {m m' : Monitor T α} {t : T} (h : Dequeues t none m m') :
    m'.queue = m.queue := by
  cases h
  rfl

/-- A thread that leaves with a value takes the oldest one. -/
theorem Dequeues.represents {m m' : Monitor T α} {t : T} {v : α} {vs : List α}
    (h : Dequeues t (some v) m m') (hq : m.queue.Represents vs) :
    ∃ rest, vs = v :: rest ∧ m'.queue.Represents rest := by
  obtain _ | ⟨-, hsize, hrun⟩ := h
  cases vs with
  | nil => exact absurd hq.size_eq hsize
  | cons w rest =>
      obtain ⟨q, hrun', hq'⟩ := Queue.dequeue_spec hq
      obtain ⟨rfl, rfl⟩ := Prod.mk.inj (Option.some.inj (hrun.symm.trans hrun'))
      exact ⟨rest, rfl, hq'⟩

end Monitor

/-- A queue in use, with everything that was put in and taken out so far, in the
order of the critical sections, and by whom. -/
structure QueueState (T α : Type*) extends Monitor T α where
  enqueued : List (T × α)
  dequeued : List (T × α)

namespace QueueState

variable {T α : Type*} [DecidableEq T]

/-- After `queue_init`. -/
def init : QueueState T α := ⟨⟨Queue.init, ∅, ∅⟩, [], []⟩

/-- One critical section of some thread, or a wakeup for no reason. -/
inductive Step : QueueState T α → QueueState T α → Prop
  | enqueue {s : QueueState T α} {t : T} {v : α} {m : Monitor T α} :
      Enqueues t v s.toMonitor m → Step s ⟨m, s.enqueued ++ [(t, v)], s.dequeued⟩
  | wait {s : QueueState T α} {t : T} {m : Monitor T α} :
      Dequeues t none s.toMonitor m → Step s ⟨m, s.enqueued, s.dequeued⟩
  | take {s : QueueState T α} {t : T} {v : α} {m : Monitor T α} :
      Dequeues t (some v) s.toMonitor m → Step s ⟨m, s.enqueued, s.dequeued ++ [(t, v)]⟩
  | spurious {s : QueueState T α} {w : T} :
      w ∈ s.waiting → Step s ⟨s.toMonitor.wake w, s.enqueued, s.dequeued⟩

/-- The states of all runs. -/
abbrev Reachable : QueueState T α → Prop := Reach (fun s => s = init) Step

/-- The values that were put in and not taken out yet. -/
def remaining (s : QueueState T α) : List α :=
  (s.enqueued.map Prod.snd).drop s.dequeued.length

/-- The values taken out in place of those that `p` put in: the `i`-th value out
is paired with the `i`-th value in. -/
def delivered (p : T) (s : QueueState T α) : List α :=
  ((s.enqueued.zip s.dequeued).filter fun e => e.1.1 = p).map fun e => e.2.2

/-- The queue holds what was put in and not taken out. -/
def Accounted (s : QueueState T α) : Prop :=
  ∃ vs, s.queue.Represents vs ∧ s.enqueued.map Prod.snd = s.dequeued.map Prod.snd ++ vs

theorem step_accounted {s s' : QueueState T α} (h : Accounted s) (hstep : Step s s') :
    Accounted s' := by
  obtain ⟨vs, hq, hlog⟩ := h
  cases hstep with
  | enqueue h => exact ⟨_, h.represents hq, by simp [hlog]⟩
  | wait h =>
      refine ⟨vs, ?_, hlog⟩
      rw [h.of_none]
      exact hq
  | take h =>
      obtain ⟨rest, rfl, hq'⟩ := h.represents hq
      exact ⟨rest, hq', by simp [hlog]⟩
  | spurious h => exact ⟨vs, hq, hlog⟩

theorem reachable_accounted {s : QueueState T α} (h : Reachable s) : Accounted s := by
  refine h.invariant (fun s hs => ?_) fun s s' h hstep => step_accounted h hstep
  subst hs
  exact ⟨[], Queue.init_represents, rfl⟩

/-- The queue is first in, first out, and its structure is in order. -/
structure Fifo (s : QueueState T α) : Prop where
  /-- nothing is lost, duplicated or reordered -/
  out_of_in : s.dequeued.map Prod.snd <+: s.enqueued.map Prod.snd
  /-- each producer's values come out in its own order -/
  producer : ∀ p, s.delivered p <+: (s.enqueued.filter fun e => e.1 = p).map Prod.snd
  /-- the nodes from `head` on, linked both ways, hold the remaining values; no
  other node is allocated -/
  linked : ∃ l, s.queue.Linked l s.remaining
  /-- following `right` from `head` reaches `tail` in `size` nodes -/
  reaches : s.queue.rightOf^[s.queue.size] s.queue.head = NULL ∧
    (s.queue.size ≠ 0 → s.queue.rightOf^[s.queue.size - 1] s.queue.head = s.queue.tail)
  head_null : s.queue.head = NULL ↔ s.queue.size = 0
  tail_null : s.queue.tail = NULL ↔ s.queue.size = 0
  /-- the next critical section does not follow a dangling pointer -/
  enqueue_runs : ∀ node v, s.queue.Fresh node → ∃ q, s.queue.enqueue node v = some q
  dequeue_runs : s.queue.size ≠ 0 → ∃ v q, s.queue.dequeue = some (v, q)

/-- When values come out in the order in which they went in, so do the values of
each producer. -/
theorem producer_prefix (p : T) : ∀ {ins outs : List (T × α)},
    outs.map Prod.snd <+: ins.map Prod.snd →
    ((ins.zip outs).filter fun e => e.1.1 = p).map (fun e => e.2.2) <+:
      (ins.filter fun e => e.1 = p).map Prod.snd
  | ins, [], _ => by simp
  | [], _ :: _, h => by simp at h
  | x :: ins, y :: outs, h => by
      simp only [List.map_cons, List.cons_prefix_cons] at h
      have ih := producer_prefix p h.2
      by_cases hp : x.1 = p
      · simp [hp, h.1, ih]
      · simpa [hp] using ih

theorem Accounted.fifo {s : QueueState T α} (h : Accounted s) : Fifo s := by
  obtain ⟨vs, hq, hlog⟩ := h
  have hpref : s.dequeued.map Prod.snd <+: s.enqueued.map Prod.snd := hlog ▸ List.prefix_append _ _
  have hrem : s.remaining = vs := by
    rw [remaining, hlog, List.drop_left' (by simp)]
  have hsize := hq.size_eq
  obtain ⟨l, hl⟩ := hq
  have hlen := hl.length_eq
  have hhead : s.queue.head = NULL ↔ s.queue.size = 0 := by
    rw [hl.head_null_iff, hl.size_eq, List.length_eq_zero_iff]
  refine ⟨hpref, fun p => producer_prefix p hpref, ⟨l, hrem ▸ hl⟩, hl.right_iterate, hhead,
    ?_, fun node v hf => ?_, fun hne => ?_⟩
  · rw [hl.tail_eq, hl.size_eq, List.length_eq_zero_iff]
    rcases List.eq_nil_or_concat l with rfl | ⟨init, x, rfl⟩
    · simp
    · have := (hl.addr x (by simp)).1
      simp [this]
  · obtain ⟨q, hrun, -⟩ := Queue.enqueue_spec ⟨l, hl⟩ hf v
    exact ⟨q, hrun⟩
  · cases vs with
    | nil => exact absurd hsize hne
    | cons v vs =>
        obtain ⟨q, hrun, -⟩ := Queue.dequeue_spec ⟨l, hl⟩
        exact ⟨v, q, hrun⟩

/-- **The queue is a concurrent FIFO**, in every state of every run. -/
theorem reachable_fifo {s : QueueState T α} (h : Reachable s) : Fifo s :=
  (reachable_accounted h).fifo

/-- Thread 1 waits; threads 0 and 2 put in a value each, the first of which wakes thread 1, and it
takes one. -/
theorem twoValues_fifo : ∃ s : QueueState Nat Nat, s.enqueued = [(0, 7), (2, 8)] ∧
    s.dequeued = [(1, 7)] ∧ s.queue.size = 1 ∧ Fifo s := by
  have hwait : Dequeues 1 none (init : QueueState Nat Nat).toMonitor ⟨Queue.init, {1}, ∅⟩ :=
    .wait (by simp [init]) rfl
  let first : Queue Nat := ⟨Function.update (fun _ => none) 16 (some ⟨7, NULL, NULL⟩), 16, 16, 1⟩
  let woken : Monitor Nat Nat := Monitor.wake 1 ⟨first, {1}, ∅⟩
  have hfirst : Enqueues 0 7 (⟨Queue.init, {1}, ∅⟩ : Monitor Nat Nat) woken :=
    .mk (by simp) (by simp) ⟨rfl, by decide, by decide⟩ rfl (.one (by simp))
  let second : Queue Nat := ⟨Function.update (Function.update (Function.update first.nodes 32
    (some ⟨8, NULL, NULL⟩)) 16 (some ⟨7, NULL, 32⟩)) 32 (some ⟨8, 16, NULL⟩), 16, 32, 2⟩
  have hfresh : first.Fresh 32 := ⟨rfl, by decide, by decide⟩
  have hrun : first.enqueue 32 8 = some second := by simp [Queue.enqueue, first, second, NULL]
  have hsecond : Enqueues 2 8 woken { woken with queue := second } :=
    .mk (by decide) (by decide) hfresh hrun (.nobody (by decide))
  obtain ⟨q, htake, hsize⟩ : ∃ q, second.dequeue = some (7, q) ∧ q.size = 1 :=
    ⟨_, by simp [Queue.dequeue, first, second]; rfl, rfl⟩
  have htaken : Dequeues 1 (some 7) { woken with queue := second }
      ⟨q, woken.waiting, woken.woken.erase 1⟩ := .take (by decide) (by decide) htake
  have hreach : Reachable ⟨⟨Queue.init, {1}, ∅⟩, [], []⟩ := .step (.init rfl) (.wait hwait)
  have hreach := ((hreach.step (.enqueue hfirst)).step (.enqueue hsecond)).step (.take htaken)
  exact ⟨_, rfl, rfl, hsize, reachable_fifo hreach⟩

end QueueState

end Threads
