import CS24.Threads.QueueRuns

/-!
# The thread pool

`thread_pool.c` on top of the queue.  The queue's values are pointers to
`work_t`s, or `NULL` as the sentinel that ends a worker.  `n` workers run
`execute_work`; any number of client threads, and the work functions that run
in the workers, call `thread_pool_add_work`; one thread calls
`thread_pool_finish`.  A run interleaves their steps: a critical section of the
queue, an allocation, a call or return of a work function, a join.

The states also record what was added, what was executed and what was dequeued;
no step depends on the record.
-/

namespace Threads

open System

/-- A `work_t`.  `ticket` is not in the source: it tells the calls of
`thread_pool_add_work` apart in the record. -/
structure Work (F A : Type*) where
  workFunction : F
  aux : A
  ticket : Nat

/-- Where a worker is in `execute_work`. -/
inductive Worker (F A : Type*)
  /-- at the top of the loop, or inside `queue_dequeue` -/
  | idle
  /-- `queue_dequeue` returned a `work_t` -/
  | got (work : Nat)
  /-- inside the work function, called with an argument -/
  | running (work : Nat) (function : F) (aux : A)
  /-- the work function returned -/
  | returned (work : Nat)
  | exited

/-- Where `thread_pool_finish` is. -/
inductive Finisher
  | notCalled
  /-- `i` sentinels have been enqueued -/
  | enqueuing (i : Nat)
  /-- `i` workers have been joined -/
  | joining (i : Nat)
  /-- the queue and the pool have been freed -/
  | freed

/-- The threads of the program. -/
inductive Thread (C : Type*) (n : Nat)
  | client (c : C)
  | worker (i : Fin n)
  | finisher
  deriving DecidableEq

/-- A pool in use.  `works` are the allocated `work_t`s, `pending` the calls of
`thread_pool_add_work` that have allocated theirs and not enqueued it yet. -/
structure PoolState (C F A : Type*) (n : Nat) extends Monitor (Thread C n) Nat where
  works : Nat → Option (Work F A)
  worker : Fin n → Worker F A
  pending : List (Thread C n × Nat)
  finisher : Finisher
  added : List (Work F A)
  completed : List (Work F A)
  taken : List (Fin n × Nat)

namespace PoolState

variable {C F A : Type*} {n : Nat} [DecidableEq C]

/-- After `thread_pool_init(n)`. -/
def init : PoolState C F A n :=
  ⟨⟨Queue.init, ∅, ∅⟩, fun _ => none, fun _ => .idle, [], .notCalled, [], [], []⟩

/-- Thread `t` may call `thread_pool_add_work`: it is a client or runs a work
function, and is not inside such a call already. -/
def MayAdd (s : PoolState C F A n) (t : Thread C n) : Prop :=
  (∀ e ∈ s.pending, e.1 ≠ t) ∧
    match t with
    | .client _ => True
    | .worker i => ∃ p f a, s.worker i = .running p f a
    | .finisher => False

/-- What a worker does with what it dequeued. -/
def afterDequeue (p : Nat) : Worker F A := if p = NULL then .exited else .got p

/-- One step of one thread, or a wakeup for no reason.  No thread calls
`thread_pool_add_work` once `thread_pool_finish` has begun, and none is inside
such a call when it begins. -/
inductive Step : PoolState C F A n → PoolState C F A n → Prop
  | create {s : PoolState C F A n} {t : Thread C n} {f : F} {a : A} {p : Nat} :
      s.finisher = .notCalled → s.MayAdd t → s.works p = none → p ≠ NULL →
      Step s { s with
        works := Function.update s.works p (some ⟨f, a, s.added.length⟩)
        pending := (t, p) :: s.pending
        added := s.added ++ [⟨f, a, s.added.length⟩] }
  | publish {s : PoolState C F A n} {t : Thread C n} {p : Nat} {m : Monitor (Thread C n) Nat}
      {before after : List (Thread C n × Nat)} :
      s.pending = before ++ (t, p) :: after → Enqueues t p s.toMonitor m →
      Step s { s with toMonitor := m, pending := before ++ after }
  | wait {s : PoolState C F A n} {i : Fin n} {m : Monitor (Thread C n) Nat} :
      s.worker i = .idle → Dequeues (.worker i) none s.toMonitor m →
      Step s { s with toMonitor := m }
  | take {s : PoolState C F A n} {i : Fin n} {p : Nat} {m : Monitor (Thread C n) Nat} :
      s.worker i = .idle → Dequeues (.worker i) (some p) s.toMonitor m →
      Step s { s with
        toMonitor := m
        worker := Function.update s.worker i (afterDequeue p)
        taken := s.taken ++ [(i, p)] }
  | spurious {s : PoolState C F A n} {t : Thread C n} :
      t ∈ s.waiting → Step s { s with toMonitor := s.toMonitor.wake t }
  | start {s : PoolState C F A n} {i : Fin n} {p : Nat} {w : Work F A} :
      s.worker i = .got p → s.works p = some w →
      Step s { s with
        worker := Function.update s.worker i (.running p w.workFunction w.aux) }
  | finishWork {s : PoolState C F A n} {i : Fin n} {p : Nat} {f : F} {a : A} {w : Work F A} :
      s.worker i = .running p f a → (∀ e ∈ s.pending, e.1 ≠ .worker i) → s.works p = some w →
      Step s { s with
        worker := Function.update s.worker i (.returned p)
        completed := s.completed ++ [⟨f, a, w.ticket⟩] }
  | release {s : PoolState C F A n} {i : Fin n} {p : Nat} {w : Work F A} :
      s.worker i = .returned p → s.works p = some w →
      Step s { s with
        works := Function.update s.works p none
        worker := Function.update s.worker i .idle }
  | finish {s : PoolState C F A n} :
      s.finisher = .notCalled → s.pending = [] → Step s { s with finisher := .enqueuing 0 }
  | sentinel {s : PoolState C F A n} {i : Nat} {m : Monitor (Thread C n) Nat} :
      s.finisher = .enqueuing i → i < n → Enqueues .finisher NULL s.toMonitor m →
      Step s { s with toMonitor := m, finisher := .enqueuing (i + 1) }
  | startJoins {s : PoolState C F A n} :
      s.finisher = .enqueuing n → Step s { s with finisher := .joining 0 }
  | join {s : PoolState C F A n} {i : Fin n} :
      s.finisher = .joining i → s.worker i = .exited →
      Step s { s with finisher := .joining (i + 1) }
  | free {s : PoolState C F A n} :
      s.finisher = .joining n → Step s { s with finisher := .freed }

/-- The states of all runs. -/
abbrev Reachable : PoolState C F A n → Prop := Reach (fun s => s = init) Step

/-- `thread_pool_finish` has got past its joins. -/
def PastJoins (s : PoolState C F A n) : Prop := s.finisher = .joining n ∨ s.finisher = .freed

end PoolState

end Threads
