import CS24.Lib.Progress
import CS24.Threads.QueueWakeups
import CS24.Threads.ThreadPoolDrain

/-!
# `thread_pool_finish` returns

Once `thread_pool_finish` has begun, every step of a thread lowers a weight: what is
left to do for each value in the queue, for each piece of work with a worker, for
each worker that may test the queue once more, and for the finisher itself.  Only a
wakeup for no reason raises it, by one, since the woken worker tests the queue again.

No thread is stuck on the way.  Whoever waits does so at an empty queue or while
another one has been woken, so if no worker can move then the queue is empty or all
workers have exited, and the finisher can move.
-/

namespace Threads

open System

/-! ## What is left to do -/

/-- The steps a worker still makes for the work it has taken. -/
def Worker.remaining {F A : Type*} : Worker F A → Nat
  | got _ => 3
  | running _ _ _ => 2
  | returned _ => 1
  | _ => 0

/-- The steps of `thread_pool_finish`, and those that its sentinels cause. -/
def Finisher.remaining (n : Nat) : Finisher → Nat
  | notCalled => 7 * n + 3
  | enqueuing i => 6 * (n - i) + n + 2
  | joining i => n - i + 1
  | freed => 0

section Awake

variable {C : Type*} [DecidableEq C] {n : Nat} {m m' : Monitor (Thread C n) Nat}
  {t : Thread C n} {i : Fin n}

/-- The workers that are not in `pthread_cond_wait`. -/
def Monitor.awake (m : Monitor (Thread C n) Nat) : Finset (Fin n) :=
  Finset.univ.filter fun i => .worker i ∉ m.waiting

/-- There are not more threads awake than workers. -/
theorem Monitor.card_awake_le : m.awake.card ≤ n := by
  simpa using Finset.card_le_univ m.awake

/-- A wakeup makes one more awake at most. -/
theorem Monitor.card_awake_wake : (m.wake t).awake.card ≤ m.awake.card + 1 := by
  have hsub : ∀ i, t = .worker i → (m.wake t).awake ⊆ insert i m.awake := by
    intro i ht j hj
    by_cases hji : j = i
    · simp [hji]
    · simp only [awake, Monitor.wake, Finset.mem_filter, Finset.mem_univ, true_and,
        Finset.mem_insert, Finset.mem_erase, not_and] at hj ⊢
      refine .inr (hj ?_)
      simpa [ht] using hji
  cases t with
  | worker i => exact (Finset.card_le_card (hsub i rfl)).trans (Finset.card_insert_le _ _)
  | client c =>
      have hsame : (m.wake (.client c)).awake ⊆ m.awake := by
        intro j hj
        simpa [awake, Monitor.wake] using hj
      exact (Finset.card_le_card hsame).trans (Nat.le_succ _)
  | finisher =>
      have hsame : (m.wake .finisher).awake ⊆ m.awake := by
        intro j hj
        simpa [awake, Monitor.wake] using hj
      exact (Finset.card_le_card hsame).trans (Nat.le_succ _)

/-- A worker that waits is no longer awake. -/
theorem Dequeues.card_awake_wait (h : Dequeues (.worker i) none m m') :
    m'.awake.card + 1 = m.awake.card := by
  obtain ⟨hi, -⟩ := h
  have hmem : i ∈ m.awake := by simpa [Monitor.awake] using hi
  have herase : Monitor.awake { m with
      waiting := insert (.worker i) m.waiting, woken := m.woken.erase (.worker i) } =
      m.awake.erase i := by
    ext j
    simp [Monitor.awake]
  rw [herase, Finset.card_erase_add_one hmem]

/-- A worker that takes something was awake. -/
theorem Dequeues.awake_take {p : Nat} (h : Dequeues (.worker i) (some p) m m') :
    m'.awake = m.awake := by
  cases h
  rfl

/-- Adding something wakes one worker at most. -/
theorem Enqueues.card_awake {p : Nat} (h : Enqueues t p m m') :
    m'.awake.card ≤ m.awake.card + 1 := by
  obtain ⟨-, -, -, -, hsignal⟩ := h
  cases hsignal with
  | nobody => exact Nat.le_succ _
  | one _ => exact Monitor.card_awake_wake

end Awake

namespace PoolState

variable {C F A : Type*} {n : Nat} {s s' : PoolState C F A n} {ws : List Nat} {m : Nat}

/-- A worker's step on the work it has taken. -/
theorem remaining_update {i : Fin n} {x : Worker F A}
    (h : x.remaining < (s.worker i).remaining) :
    overWorkers Worker.remaining (Function.update s.worker i x) <
      overWorkers Worker.remaining s.worker := by
  have hsum := overWorkers_update Worker.remaining s.worker i x
  omega

section Weight

variable [DecidableEq C]

/-- What is left to do. -/
def weight (s : PoolState C F A n) : Nat :=
  4 * s.queue.size + overWorkers Worker.remaining s.worker + s.awake.card +
    s.finisher.remaining n

/-- A wakeup for no reason. -/
def Wakes (s s' : PoolState C F A n) : Prop :=
  ∃ t ∈ s.waiting, s' = { s with toMonitor := s.toMonitor.wake t }

/-- A step of a thread. -/
def Runs (s s' : PoolState C F A n) : Prop := Step s s' ∧ ¬ s.Wakes s'

/-- Spurious wakeups are steps of the pool. -/
theorem Wakes.step (h : s.Wakes s') : Step s s' := by
  obtain ⟨t, ht, rfl⟩ := h
  exact .spurious ht

/-- A spurious wakeup costs one step more. -/
theorem Wakes.weight_le (h : s.Wakes s') : s'.weight ≤ s.weight + 1 := by
  obtain ⟨t, -, rfl⟩ := h
  have hawake : (s.toMonitor.wake t).awake.card ≤ s.awake.card + 1 := Monitor.card_awake_wake
  change 4 * s.queue.size + overWorkers Worker.remaining s.worker + (s.toMonitor.wake t).awake.card +
    s.finisher.remaining n ≤ _
  unfold weight
  omega

/-- **Every step lowers the weight**, but for those of `thread_pool_add_work`. -/
theorem PoolInvariant.weight_lt (h : s.PoolInvariant ws m) (hpend : s'.pending = s.pending)
    (hruns : s.Runs s') : s'.weight < s.weight := by
  obtain ⟨hstep, hwakes⟩ := hruns
  cases hstep with
  | create _ _ _ _ => exact absurd hpend (List.cons_ne_self _ _)
  | publish hpend' _ =>
      have hlength := congrArg List.length (hpend.trans hpend')
      simp at hlength
  | wait _ hdeq =>
      have hawake := hdeq.card_awake_wait
      have hqueue := hdeq.of_none
      simp only [weight, hqueue]
      omega
  | @take i p mon hi hdeq =>
      obtain ⟨rest, hvs, hq⟩ := hdeq.represents h.queue
      have hsize : s.queue.size = mon.queue.size + 1 := by
        rw [h.queue.size_eq, hvs, hq.size_eq, List.length_cons]
      have hsum := overWorkers_update Worker.remaining s.worker i (afterDequeue p)
      have hidle : (s.worker i).remaining = 0 := by rw [hi]; rfl
      have hafter : (afterDequeue p : Worker F A).remaining ≤ 3 := by
        unfold afterDequeue
        split <;> simp [Worker.remaining]
      simp only [weight, hdeq.awake_take]
      omega
  | spurious ht => exact absurd ⟨_, ht, rfl⟩ hwakes
  | @start i p w hi _ =>
      have hlt : overWorkers Worker.remaining
          (Function.update s.worker i (.running p w.workFunction w.aux)) < _ :=
        remaining_update (by rw [hi]; exact Nat.lt_succ_self 2)
      simp only [weight]
      omega
  | @finishWork i p _ _ _ hi _ _ =>
      have hlt : overWorkers Worker.remaining (Function.update s.worker i (.returned p)) < _ :=
        remaining_update (by rw [hi]; exact Nat.lt_succ_self 1)
      simp only [weight]
      omega
  | @release i _ _ hi _ =>
      have hlt : overWorkers Worker.remaining (Function.update s.worker i .idle) < _ :=
        remaining_update (by rw [hi]; exact Nat.lt_succ_self 0)
      simp only [weight]
      omega
  | finish hf' _ =>
      simp only [weight, hf', Finisher.remaining]
      omega
  | sentinel hf' hk henq =>
      have hsize := (henq.represents h.queue).size_eq
      have hawake := henq.card_awake
      rw [List.length_append, ← h.queue.size_eq, List.length_singleton] at hsize
      simp only [weight, hf', Finisher.remaining, hsize]
      omega
  | startJoins hf' =>
      simp only [weight, hf', Finisher.remaining]
      omega
  | @join i hf' _ =>
      have hi := i.isLt
      simp only [weight, hf', Finisher.remaining]
      omega
  | free hf' =>
      simp only [weight, hf', Finisher.remaining]
      omega

/-- A call of `thread_pool_add_work` that ends has put one value more into the queue. -/
theorem PoolInvariant.weight_publish (h : s.PoolInvariant ws m) (hstep : Step s s')
    (hadded : s'.added = s.added) :
    s'.pending = s.pending ∨
      s'.pending.length + 1 = s.pending.length ∧ s'.weight ≤ s.weight + 5 := by
  cases hstep with
  | create _ _ _ _ => simp at hadded
  | publish hpend henq =>
      refine .inr ⟨by simp [hpend, Nat.add_assoc], ?_⟩
      have hsize := (henq.represents h.queue).size_eq
      have hawake := henq.card_awake
      rw [List.length_append, ← h.queue.size_eq, List.length_singleton] at hsize
      simp only [weight, hsize]
      omega
  | _ => exact .inl rfl

end Weight

/-! ## Nobody is stuck -/


/-- Only workers at the top of their loop wait or are woken. -/
def Parked (s : PoolState C F A n) : Prop :=
  ∀ t, t ∈ s.waiting ∨ t ∈ s.woken → ∃ i, t = .worker i ∧ s.worker i = .idle

/-- A worker that has left the top of its loop neither waits nor is woken. -/
theorem Parked.update {i : Fin n} {x : Worker F A} {mon : Monitor (Thread C n) Nat} (h : s.Parked)
    (hsub : ∀ t, t ∈ mon.waiting ∨ t ∈ mon.woken → t ∈ s.waiting ∨ t ∈ s.woken)
    (hi : Thread.worker i ∉ mon.waiting ∧ Thread.worker i ∉ mon.woken) :
    ∀ t, t ∈ mon.waiting ∨ t ∈ mon.woken →
      ∃ j, t = .worker j ∧ Function.update s.worker i x j = .idle := by
  intro t ht
  obtain ⟨j, rfl, hj⟩ := h t (hsub t ht)
  have hji : j ≠ i := by
    rintro rfl
    exact ht.elim hi.1 hi.2
  exact ⟨j, rfl, by simpa [hji] using hj⟩

/-- A worker that is not at the top of its loop. -/
theorem Parked.busy {i : Fin n} (h : s.Parked) (hi : s.worker i ≠ .idle) :
    Thread.worker i ∉ s.waiting ∧ Thread.worker i ∉ s.woken := by
  have hnot : ¬ (Thread.worker i ∈ s.waiting ∨ Thread.worker i ∈ s.woken) := by
    intro hmem
    obtain ⟨j, hj, hidle⟩ := h _ hmem
    cases hj
    exact hi hidle
  exact not_or.mp hnot

/-- Other threads than workers never wait. -/
theorem Parked.off {t : Thread C n} (h : s.Parked) (ht : ∀ i, t ≠ .worker i) :
    t ∉ s.waiting ∧ t ∉ s.woken := by
  have hnot : ¬ (t ∈ s.waiting ∨ t ∈ s.woken) := by
    intro hmem
    obtain ⟨i, hi, -⟩ := h t hmem
    exact ht i hi
  exact not_or.mp hnot

section Stuck

variable [DecidableEq C]

/-- Only workers without work wait, whatever is added. -/
theorem Parked.enqueues {t : Thread C n} {p : Nat} {mon : Monitor (Thread C n) Nat}
    (h : s.Parked) (henq : Enqueues t p s.toMonitor mon) :
    ∀ t, t ∈ mon.waiting ∨ t ∈ mon.woken → ∃ i, t = .worker i ∧ s.worker i = .idle := by
  obtain ⟨-, -, -, -, hsignal⟩ := henq
  cases hsignal with
  | nobody => exact h
  | one hw =>
      rintro t (ht | ht)
      · exact h t (.inl (Finset.mem_of_mem_erase ht))
      · rcases Finset.mem_insert.mp ht with rfl | ht
        · exact h _ (.inl hw)
        · exact h t (.inr ht)

/-- Threads that wait stay workers without work. -/
theorem Parked.step (h : s.Parked) (hstep : Step s s') : s'.Parked := by
  cases hstep with
  | create _ _ _ _ => exact h
  | publish _ henq => exact h.enqueues henq
  | @wait i mon hi hdeq =>
      obtain ⟨-, -⟩ := hdeq
      rintro t (ht | ht)
      · rcases Finset.mem_insert.mp ht with rfl | ht
        · exact ⟨i, rfl, hi⟩
        · exact h t (.inl ht)
      · exact h t (.inr (Finset.mem_of_mem_erase ht))
  | @take i p mon hi hdeq =>
      obtain - | ⟨hnot, -, -⟩ := hdeq
      refine h.update (fun t ht => ht.imp_right Finset.mem_of_mem_erase) ⟨hnot, ?_⟩
      exact Finset.notMem_erase _ _
  | @spurious t ht =>
      rintro u (hu | hu)
      · exact h u (.inl (Finset.mem_of_mem_erase hu))
      · rcases Finset.mem_insert.mp hu with rfl | hu
        · exact h _ (.inl ht)
        · exact h u (.inr hu)
  | start hi _ => exact h.update (fun _ ht => ht) (h.busy (by rw [hi]; exact nofun))
  | finishWork hi _ _ => exact h.update (fun _ ht => ht) (h.busy (by rw [hi]; exact nofun))
  | @release i p w hi _ =>
      have hbusy := h.busy (i := i) (by rw [hi]; exact nofun)
      exact h.update (fun _ ht => ht) hbusy
  | finish _ _ => exact h
  | sentinel _ _ henq => exact h.enqueues henq
  | startJoins _ => exact h
  | join _ _ => exact h
  | free _ => exact h

/-- No step loses a wakeup. -/
theorem PoolInvariant.covered_step (hinv : s.PoolInvariant ws m) (h : s.Covered)
    (hstep : Step s s') : s'.Covered := by
  cases hstep with
  | create _ _ _ _ => exact h
  | publish _ henq => exact h.enqueue hinv.queue henq
  | wait _ hdeq => exact h.wait hdeq
  | take _ hdeq => exact h.take hinv.queue hdeq
  | spurious ht => exact h.wake ht
  | start _ _ => exact h
  | finishWork _ _ _ => exact h
  | release _ _ => exact h
  | finish _ _ => exact h
  | sentinel _ _ henq => exact h.enqueue hinv.queue henq
  | startJoins _ => exact h
  | join _ _ => exact h
  | free _ => exact h

/-- In every state only workers without work wait, -/
theorem reachable_parked (h : Reachable s) : s.Parked := by
  refine h.invariant (I := fun s : PoolState C F A n => s.Parked) ?_ fun s s' h hstep => h.step hstep
  rintro s rfl t ht
  simp [init] at ht

/-- and no wakeup is lost. -/
theorem reachable_covered (h : Reachable s) : s.Covered := by
  refine h.invariant_of_reach (I := fun s : PoolState C F A n => s.Covered) ?_ ?_
  · rintro s rfl
    exact ⟨Finset.disjoint_empty_left _, fun h => absurd rfl h.ne_empty⟩
  · intro s s' hreach hs hstep
    obtain ⟨ws, m, hinv⟩ := reachable_invariant hreach
    exact hinv.covered_step hs hstep

/-- The joins do not go beyond the last worker. -/
theorem reachable_joins_le (h : Reachable s) : ∀ i, s.finisher = .joining i → i ≤ n := by
  refine h.invariant (I := fun s : PoolState C F A n => ∀ i, s.finisher = .joining i → i ≤ n) ?_ ?_
  · rintro s rfl i hi
    cases hi
  · intro s s' h hstep j hj
    cases hstep with
    | create _ _ _ _ => exact h j hj
    | publish _ _ => exact h j hj
    | wait _ _ => exact h j hj
    | take _ _ => exact h j hj
    | spurious _ => exact h j hj
    | start _ _ => exact h j hj
    | finishWork _ _ _ => exact h j hj
    | release _ _ => exact h j hj
    | finish _ _ => cases hj
    | sentinel _ _ _ => cases hj
    | startJoins _ =>
        cases hj
        exact Nat.zero_le n
    | @join i _ _ =>
        cases hj
        exact i.isLt
    | free _ => cases hj

/-- No step can be made but by a wakeup for no reason. -/
def Stuck (s : PoolState C F A n) : Prop := ∀ s', Step s s' → s.Wakes s'

/-- No worker can move, and none is inside `thread_pool_add_work`. -/
structure WorkersStuck (s : PoolState C F A n) : Prop where
  stuck : ∀ s', Step s s' → s'.finisher = s.finisher → s'.pending = s.pending → s.Wakes s'
  pending : ∀ i, ∀ e ∈ s.pending, e.1 ≠ .worker i

structure Wakes.Same (s s' : PoolState C F A n) : Prop where
  worker : s'.worker = s.worker
  finisher : s'.finisher = s.finisher
  pending : s'.pending = s.pending
  added : s'.added = s.added
  waiting : s'.waiting ⊂ s.waiting

/-- A spurious wakeup changes who is awake and nothing else. -/
theorem Wakes.same (h : s.Wakes s') : Wakes.Same s s' := by
  obtain ⟨t, ht, rfl⟩ := h
  exact ⟨rfl, rfl, rfl, rfl, Finset.erase_ssubset ht⟩

/-- A worker that cannot move waits or has exited. -/
theorem WorkersStuck.worker (h : s.WorkersStuck) (hinv : s.PoolInvariant ws m)
    (i : Fin n) : s.worker i = .exited ∨ s.worker i = .idle ∧ .worker i ∈ s.waiting := by
  have hmoves : ∀ x s', Step s s' → s'.worker = Function.update s.worker i x →
      s'.finisher = s.finisher → s'.pending = s.pending → x = s.worker i := by
    intro x s' hstep hworker hfin hpend
    have hsame := congrFun (h.stuck s' hstep hfin hpend).same.worker i
    rwa [hworker, Function.update_self] at hsame
  cases hi : s.worker i with
  | exited => exact .inl rfl
  | got p =>
      obtain ⟨w, hw⟩ := hinv.allocated (i := i) (p := p) (.inl (by simp [hi, Worker.unfinished]))
      have hsame := hmoves _ _ (.start hi hw) rfl rfl rfl
      rw [hi] at hsame
      cases hsame
  | running p f a =>
      obtain ⟨w, hw⟩ := hinv.allocated (i := i) (p := p) (.inl (by simp [hi, Worker.unfinished]))
      have hsame := hmoves _ _ (.finishWork hi (h.pending i) hw) rfl rfl rfl
      rw [hi] at hsame
      cases hsame
  | returned p =>
      obtain ⟨w, hw⟩ := hinv.allocated (i := i) (p := p) (.inr (by simp [hi, Worker.finished]))
      have hsame := hmoves _ _ (.release hi hw) rfl rfl rfl
      rw [hi] at hsame
      cases hsame
  | idle =>
      refine .inr ⟨rfl, ?_⟩
      by_contra hnot
      by_cases hsize : s.queue.size = 0
      · have hwakes := h.stuck _ (.wait hi (.wait hnot hsize)) rfl rfl
        exact hwakes.same.waiting.not_subset (Finset.subset_insert _ _)
      · obtain ⟨p, mon, htake⟩ := Monitor.exists_take hinv.queue hsize hnot
        have hsame := hmoves _ _ (.take hi htake) rfl rfl rfl
        rw [hi, afterDequeue] at hsame
        split at hsame <;> cases hsame

/-- If a worker waits at the end, nobody has been woken and the queue is empty. -/
theorem WorkersStuck.size_eq (h : s.WorkersStuck) (hinv : s.PoolInvariant ws m)
    (hparked : s.Parked) (hcovered : s.Covered) (hwaiting : s.waiting.Nonempty) :
    s.queue.size = 0 := by
  have hwoken : s.woken = ∅ := by
    by_contra hne
    obtain ⟨t, ht⟩ := Finset.nonempty_iff_ne_empty.mpr hne
    obtain ⟨i, rfl, hidle⟩ := hparked t (.inr ht)
    rcases h.worker hinv i with hexit | ⟨-, hwait⟩
    · rw [hidle] at hexit
      cases hexit
    · exact Finset.disjoint_left.mp hcovered.disjoint hwait ht
  have hle := hcovered.size_le hwaiting
  rw [hwoken, Finset.card_empty] at hle
  omega

/-- At an empty queue a value can be put in. -/
theorem exists_enqueues {t : Thread C n} {mon : Monitor (Thread C n) Nat} {vs : List Nat}
    (hq : mon.queue.Represents vs) (hsize : mon.queue.size = 0)
    (ht : t ∉ mon.waiting ∧ t ∉ mon.woken) (p : Nat) : ∃ mon', Enqueues t p mon mon' := by
  obtain ⟨l, hl⟩ := hq
  have hfresh : mon.queue.Fresh 1 := by
    refine ⟨?_, by decide, by decide⟩
    have hnil : l = [] := List.eq_nil_of_length_eq_zero (hl.size_eq.symm.trans hsize)
    have hnone := (hl.allocated 1).not.mpr (by simp [hnil])
    simpa using hnone
  obtain ⟨q, hrun, -⟩ := Queue.enqueue_spec ⟨l, hl⟩ hfresh p
  rcases Finset.eq_empty_or_nonempty mon.waiting with hempty | ⟨w, hw⟩
  · exact ⟨_, .mk ht.1 ht.2 hfresh hrun (.nobody hempty)⟩
  · exact ⟨_, .mk ht.1 ht.2 hfresh hrun (.one hw)⟩

/-- If all workers have exited, there were as many exits as workers. -/
theorem exits_of_exited {worker : Fin n → Worker F A} (h : ∀ i, worker i = .exited) :
    overWorkers Worker.exits worker = n := by
  simp [overWorkers, h, Worker.exits]

/-- As many exited workers as there are workers. -/
theorem exited_of_exits {worker : Fin n → Worker F A} (h : overWorkers Worker.exits worker = n)
    (i : Fin n) : worker i = .exited := by
  by_contra hne
  have hle (j : Fin n) : (worker j).exits ≤ 1 := by
    cases worker j <;> simp [Worker.exits]
  have hlt : (worker i).exits < 1 := by
    cases hi : worker i with
    | exited => exact absurd hi hne
    | _ => exact Nat.one_pos
  have hsum : overWorkers Worker.exits worker < ∑ _ : Fin n, 1 :=
    Finset.sum_lt_sum (fun j _ => hle j) ⟨i, Finset.mem_univ i, hlt⟩
  simp [h] at hsum

/-- **No deadlock.** If no thread can move then `thread_pool_finish` has returned. -/
theorem Stuck.freed (h : s.Stuck) (hreach : Reachable s) (hf : s.finisher ≠ .notCalled) :
    s.finisher = .freed := by
  obtain ⟨ws, m, hinv⟩ := reachable_invariant hreach
  have hpend : s.pending = [] := hinv.settled.resolve_left hf
  have hparked := reachable_parked hreach
  have hcovered := reachable_covered hreach
  have hworkers : s.WorkersStuck := ⟨fun s' hstep _ _ => h s' hstep, by simp [hpend]⟩
  have hnot : ∀ s', Step s s' → s'.finisher = s.finisher :=
    fun s' hstep => (h s' hstep).same.finisher
  -- the queue is empty or all workers have exited
  have hends : s.queue.size = 0 ∨ ∀ i, s.worker i = .exited := by
    rcases Finset.eq_empty_or_nonempty s.waiting with hempty | hwaiting
    · refine .inr fun i => ?_
      rcases hworkers.worker hinv i with hexit | ⟨-, hwait⟩
      · exact hexit
      · simp [hempty] at hwait
    · exact .inl (hworkers.size_eq hinv hparked hcovered hwaiting)
  have hsum := hinv.sentinels
  have hlength := hinv.queue.size_eq
  rw [List.length_append, List.length_replicate] at hlength
  cases hfin : s.finisher with
  | notCalled => exact absurd hfin hf
  | enqueuing i =>
      have hle := hinv.sentinels_le
      rw [hfin] at hsum hle hnot
      simp only [Finisher.sentinels] at hsum hle
      rcases Nat.lt_or_ge i n with hi | hi
      · -- another sentinel can be put in
        have hempty : s.queue.size = 0 := by
          refine hends.resolve_right fun hexited => ?_
          rw [exits_of_exited hexited] at hsum
          omega
        have hoff := hparked.off (t := .finisher) (by simp)
        obtain ⟨mon, henq⟩ := exists_enqueues hinv.queue hempty hoff NULL
        have hsame := hnot _ (.sentinel hfin hi henq)
        simp at hsame
      · obtain rfl : i = n := by omega
        have hsame := hnot _ (.startJoins hfin)
        simp at hsame
  | joining i =>
      have hle := reachable_joins_le hreach i hfin
      rw [hfin] at hsum hnot
      simp only [Finisher.sentinels] at hsum
      rcases Nat.lt_or_ge i n with hi | hi
      · -- the next worker has exited
        have hexited : ∀ i, s.worker i = .exited := by
          rcases hends with hempty | hexited
          · exact exited_of_exits (by omega)
          · exact hexited
        have hsame := hnot _ (.join (i := ⟨i, hi⟩) hfin (hexited _))
        simp at hsame
      · obtain rfl : i = n := by omega
        have hsame := hnot _ (.free hfin)
        simp at hsame
  | freed => rfl

end Stuck

/-! ## All runs -/

section Runs

variable [DecidableEq C]

/-- A pool without a step is stuck. -/
theorem Runs.stuck_of_not (h : ∀ s', ¬ s.Runs s') : s.Stuck := by
  intro s' hstep
  by_contra hnot
  exact h s' ⟨hstep, hnot⟩

/-- `thread_pool_finish` has begun. -/
structure Finishing (s : PoolState C F A n) : Prop where
  reachable : Reachable s
  begun : s.finisher ≠ .notCalled

/-- A pool that finishes goes on finishing, -/
theorem Finishing.step (h : s.Finishing) (hstep : Step s s') : s'.Finishing := by
  refine ⟨h.reachable.step hstep, ?_⟩
  have hf := h.begun
  cases hstep with
  | sentinel _ _ _ => exact nofun
  | startJoins _ => exact nofun
  | join _ _ => exact nofun
  | free _ => exact nofun
  | finish _ _ => exact nofun
  | _ => exact hf

/-- spurious wakeups or not, -/
theorem Finishing.keep (h : s.Finishing) (hmove : s.Runs s' ∨ s.Wakes s') : s'.Finishing := by
  rcases hmove with hruns | hwakes
  · exact h.step hruns.1
  · exact h.step hwakes.step

/-- and each other step makes less of what is left to do. -/
theorem Finishing.weight_lt (h : s.Finishing) (hruns : s.Runs s') : s'.weight < s.weight := by
  obtain ⟨ws, m, hinv⟩ := reachable_invariant h.reachable
  obtain ⟨ws', m', hinv'⟩ := reachable_invariant (h.step hruns.1).reachable
  have hpend := hinv.settled.resolve_left h.begun
  have hpend' := hinv'.settled.resolve_left (h.step hruns.1).begun
  exact hinv.weight_lt (hpend'.trans hpend.symm) hruns

/-- What is left to do when `thread_pool_finish` has begun. -/
theorem weight_le (hf : s.finisher ≠ .notCalled) :
    s.weight ≤ 4 * s.queue.size + 11 * n + 2 := by
  have hworkers : overWorkers Worker.remaining s.worker ≤ 3 * n := by
    have hle (i : Fin n) : (s.worker i).remaining ≤ 3 := by
      cases s.worker i <;> simp [Worker.remaining]
    have hsum := Finset.sum_le_card_nsmul Finset.univ _ 3 fun i _ => hle i
    rw [Finset.card_univ, Fintype.card_fin, smul_eq_mul] at hsum
    rw [mul_comm]
    exact hsum
  have hawake : s.awake.card ≤ n := Monitor.card_awake_le
  have hfinisher : s.finisher.remaining n ≤ 7 * n + 2 := by
    cases hfin : s.finisher with
    | notCalled => exact absurd hfin hf
    | enqueuing i =>
        simp only [Finisher.remaining]
        omega
    | joining i =>
        simp only [Finisher.remaining]
        omega
    | freed => exact Nat.zero_le _
  unfold weight
  omega

/-- **`thread_pool_finish` returns**, in every run, whatever the order of the steps.
The threads make a bounded number of steps, and one more for each wakeup that
happens for no reason.  When none of them can move, it has returned, and all work
has been executed; from every state on the way this can be reached. -/
theorem finish_returns (h : Reachable s) (hf : s.finisher ≠ .notCalled) {a b : Nat}
    (hrun : Counted Runs Wakes s a b s') :
    a ≤ 4 * s.queue.size + 11 * n + 2 + b ∧
    (s'.Stuck → s'.finisher = .freed ∧ (0 < n → Drained s')) ∧
    ∃ k t, Counted Runs Wakes s' k 0 t ∧ t.Stuck := by
  have hs : s.Finishing := ⟨h, hf⟩
  have hs' : s'.Finishing := hrun.invariant hs (fun s s' hs hruns => hs.keep (.inl hruns))
    fun s s' hs hwakes => hs.keep (.inr hwakes)
  refine ⟨?_, fun hstuck => ?_, ?_⟩
  · have hlength := hrun.length_le weight 1 hs (fun s s' hs => hs.keep)
      (fun s s' hs => hs.weight_lt) fun s s' _ hwakes => hwakes.weight_le
    have hweight := weight_le hf
    omega
  · have hfreed := hstuck.freed hs'.reachable hs'.begun
    refine ⟨hfreed, fun hn => ?_⟩
    obtain ⟨ws, m, hinv⟩ := reachable_invariant hs'.reachable
    exact hinv.drained_of_pastJoins hn (.inr hfreed)
  · obtain ⟨k, t, hcounted, -, hfinal⟩ := exists_counted_final weight hs'
      (fun s s' hs hruns => hs.keep (.inl hruns)) fun s s' hs => hs.weight_lt
    exact ⟨k, t, hcounted, Runs.stuck_of_not hfinal⟩

/-- One worker, one piece of work in the queue, and `thread_pool_finish` has begun. -/
def oneQueued : PoolState Unit Bool Nat 1 where
  queue := ⟨Function.update (fun _ => none) 16 (some ⟨32, NULL, NULL⟩), 16, 16, 1⟩
  waiting := ∅
  woken := ∅
  works := Function.update (fun _ => none) 32 (some ⟨true, 5, 0⟩)
  worker := fun _ => .idle
  pending := []
  finisher := .enqueuing 0
  added := [⟨true, 5, 0⟩]
  completed := []
  taken := []

/-- One worker, and one piece of work in the queue. -/
theorem oneQueued_returns :
    ∃ k t, Counted Runs Wakes oneQueued k 0 t ∧ t.finisher = .freed ∧ Drained t := by
  have h0 : Reachable (init : PoolState Unit Bool Nat 1) := .init rfl
  have h1 := h0.step (.create (t := .client ()) (f := true) (a := 5) (p := 32) rfl
    ⟨by simp [init], trivial⟩ rfl (by decide))
  have h2 := h1.step (.publish (show _ = [] ++ (Thread.client (), 32) :: [] from rfl)
    (.mk (by simp [init]) (by simp [init]) (⟨rfl, by decide, by decide⟩ : Queue.Fresh _ 16) rfl
      (.nobody rfl)))
  have hreach : Reachable oneQueued := h2.step (.finish rfl rfl)
  have hbegun : oneQueued.finisher ≠ .notCalled := by simp [oneQueued]
  obtain ⟨k, t, hrun, hstuck⟩ := (finish_returns hreach hbegun .refl).2.2
  obtain ⟨hfreed, hdrained⟩ := (finish_returns hreach hbegun hrun).2.1 hstuck
  exact ⟨k, t, hrun, hfreed, hdrained Nat.one_pos⟩

end Runs

end PoolState

end Threads
