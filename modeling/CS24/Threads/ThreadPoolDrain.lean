import CS24.Threads.ThreadPool

/-!
# The thread pool drains exactly once

Every allocated `work_t` is in exactly one place: in a call that has not
enqueued it yet, in the queue, or with a worker.  In the queue all work comes
before all sentinels, and there are as many sentinels in the queue and exited
workers as `thread_pool_finish` has enqueued.  So when all workers have exited,
no sentinel is left, no work can be left either, and everything that was added
has been executed.
-/

namespace Threads

open System

/-! ## The ledger of work -/

section Ledger

variable {F A : Type*} {works : Nat → Option (Work F A)} {U R : Multiset Nat}
  {added completed : List (Work F A)} {p : Nat} {w : Work F A}

/-- The allocated `work_t`s are those waiting for execution, `U`, and those
executed but not freed, `R`; what was added is what was executed and what the
`work_t`s in `U` hold. -/
structure Ledger (works : Nat → Option (Work F A)) (U R : Multiset Nat)
    (added completed : List (Work F A)) : Prop where
  nodup : (U + R).Nodup
  owned : ∀ p, p ∈ U + R ↔ (works p).isSome = true
  works_null : works NULL = none
  account : (added : Multiset (Work F A)).map some =
    (completed : Multiset (Work F A)).map some + U.map works

/-- The books are empty at first. -/
theorem Ledger.init : Ledger (fun _ => none : Nat → Option (Work F A)) 0 0 [] [] :=
  ⟨by simp, by simp, rfl, by simp⟩

/-- No piece of work is at `NULL`. -/
theorem Ledger.ne_null (h : Ledger works U R added completed) (hp : p ∈ U + R) : p ≠ NULL := by
  rintro rfl
  have := (h.owned NULL).mp hp
  simp [h.works_null] at this

/-- What is stored elsewhere does not matter. -/
theorem map_update_of_not_mem {V : Multiset Nat} {o : Option (Work F A)} (hp : p ∉ V) :
    V.map (Function.update works p o) = V.map works := by
  refine Multiset.map_congr rfl fun q hq => ?_
  have hne : q ≠ p := fun he => hp (he ▸ hq)
  simp [hne]

/-- A new `work_t` is allocated for a new piece of work. -/
theorem Ledger.create (h : Ledger works U R added completed) (hp : works p = none)
    (hp0 : p ≠ NULL) :
    Ledger (Function.update works p (some w)) (p ::ₘ U) R (added ++ [w]) completed := by
  have hnew : p ∉ U + R := fun hm => by simpa [hp] using (h.owned p).mp hm
  have hU : p ∉ U := fun hm => hnew (Multiset.mem_add.mpr (Or.inl hm))
  refine ⟨?_, fun q => ?_, ?_, ?_⟩
  · rw [Multiset.cons_add]
    exact Multiset.nodup_cons.mpr ⟨hnew, h.nodup⟩
  · rw [Multiset.cons_add, Multiset.mem_cons, h.owned q]
    by_cases hq : q = p <;> simp [hq]
  · simp [hp0.symm, h.works_null]
  · have hadd : ((added ++ [w] : List (Work F A)) : Multiset (Work F A)) = w ::ₘ added := by
      rw [← Multiset.coe_add, Multiset.coe_singleton, add_comm, Multiset.singleton_add]
    rw [hadd, Multiset.map_cons, h.account, Multiset.map_cons, map_update_of_not_mem hU,
      Function.update_self, Multiset.add_cons]

/-- A piece of work is executed. -/
theorem Ledger.execute (h : Ledger works (p ::ₘ U) R added completed) (hw : works p = some w) :
    Ledger works U (p ::ₘ R) added (completed ++ [w]) := by
  have hmove : U + p ::ₘ R = p ::ₘ U + R := by rw [Multiset.add_cons, Multiset.cons_add]
  refine ⟨hmove ▸ h.nodup, fun q => hmove ▸ h.owned q, h.works_null, ?_⟩
  have hadd : ((completed ++ [w] : List (Work F A)) : Multiset (Work F A)) = w ::ₘ completed := by
    rw [← Multiset.coe_add, Multiset.coe_singleton, add_comm, Multiset.singleton_add]
  rw [h.account, hadd, Multiset.map_cons, Multiset.map_cons, hw, Multiset.add_cons,
    Multiset.cons_add]

/-- An executed `work_t` is freed. -/
theorem Ledger.release (h : Ledger works U (p ::ₘ R) added completed) :
    Ledger (Function.update works p none) U R added completed := by
  have hmove : U + p ::ₘ R = p ::ₘ (U + R) := Multiset.add_cons _ _ _
  have hnodup := Multiset.nodup_cons.mp (hmove ▸ h.nodup)
  have hU : p ∉ U := fun hm => hnodup.1 (Multiset.mem_add.mpr (Or.inl hm))
  refine ⟨hnodup.2, fun q => ?_, ?_, ?_⟩
  · have howned := h.owned q
    rw [hmove, Multiset.mem_cons] at howned
    by_cases hq : q = p
    · subst hq
      simpa using hnodup.1
    · simpa [hq] using howned
  · by_cases hp : NULL = p
    · simp [hp]
    · simp [hp, h.works_null]
  · rw [h.account, map_update_of_not_mem hU]

/-- When no work is waiting, everything that was added has been executed. -/
theorem Ledger.settled (h : Ledger works 0 R added completed) : completed.Perm added := by
  have := h.account
  rw [Multiset.map_zero, add_zero] at this
  exact (Multiset.coe_eq_coe.mp (Multiset.map_injective (Option.some_injective _) this)).symm

end Ledger

/-! ## What the workers hold -/

namespace Worker

variable {F A : Type*}

/-- The work a worker has taken and not executed yet. -/
def unfinished : Worker F A → Multiset Nat
  | got p => {p}
  | running p _ _ => {p}
  | _ => 0

/-- The work a worker has executed and not freed yet. -/
def finished : Worker F A → Multiset Nat
  | returned p => {p}
  | _ => 0

/-- 1 for an exited worker. -/
def exits : Worker F A → Nat
  | exited => 1
  | _ => 0

end Worker

section Workers

variable {F A T : Type*} {n : Nat}

/-- The sum of what each worker contributes. -/
def overWorkers {M : Type*} [AddCommMonoid M] (φ : Worker F A → M) (worker : Fin n → Worker F A) :
    M := ∑ i, φ (worker i)

/-- One worker's contribution is exchanged for another. -/
theorem overWorkers_update {M : Type*} [AddCommMonoid M] (φ : Worker F A → M)
    (worker : Fin n → Worker F A) (i : Fin n) (x : Worker F A) :
    φ (worker i) + overWorkers φ (Function.update worker i x) = φ x + overWorkers φ worker := by
  unfold overWorkers
  rw [← Finset.add_sum_erase _ _ (Finset.mem_univ i),
    ← Finset.add_sum_erase _ (fun j => φ (worker j)) (Finset.mem_univ i)]
  have hrest : ∑ j ∈ Finset.univ.erase i, φ (Function.update worker i x j) =
      ∑ j ∈ Finset.univ.erase i, φ (worker j) := by
    refine Finset.sum_congr rfl fun j hj => ?_
    simp [Finset.ne_of_mem_erase hj]
  rw [hrest, Function.update_self]
  exact add_left_comm _ _ _

/-- A worker whose contribution does not change. -/
theorem overWorkers_update_same {M : Type*} [AddCancelCommMonoid M] (φ : Worker F A → M)
    {worker : Fin n → Worker F A} {i : Fin n} {x : Worker F A} (h : φ x = φ (worker i)) :
    overWorkers φ (Function.update worker i x) = overWorkers φ worker := by
  have := overWorkers_update φ worker i x
  rwa [h, add_right_inj] at this

/-- What one worker has is among what they have. -/
theorem mem_overWorkers {φ : Worker F A → Multiset Nat} {worker : Fin n → Worker F A} {i : Fin n}
    {p : Nat} (hp : p ∈ φ (worker i)) : p ∈ overWorkers φ worker :=
  Multiset.mem_sum.mpr ⟨i, Finset.mem_univ i, hp⟩

/-- A worker that has exited counts. -/
theorem exits_pos {worker : Fin n → Worker F A} {i : Fin n} (h : worker i = .exited) :
    0 < overWorkers Worker.exits worker :=
  Finset.sum_pos' (fun _ _ => Nat.zero_le _)
    ⟨i, Finset.mem_univ i, by rw [h]; exact Nat.one_pos⟩

/-- The work that was added and not executed: in calls that have not enqueued it,
in the queue, with workers. -/
def unfinished (pending : List (T × Nat)) (ws : List Nat) (worker : Fin n → Worker F A) :
    Multiset Nat :=
  (pending.map Prod.snd : List Nat) + (ws : Multiset Nat) + overWorkers Worker.unfinished worker

/-- The work that was executed and not freed. -/
def finished (worker : Fin n → Worker F A) : Multiset Nat := overWorkers Worker.finished worker

end Workers

/-- The number of sentinels enqueued. -/
def Finisher.sentinels (n : Nat) : Finisher → Nat
  | notCalled => 0
  | enqueuing i => i
  | joining _ => n
  | freed => n

/-- The number of workers joined. -/
def Finisher.joins (n : Nat) : Finisher → Nat
  | joining i => i
  | freed => n
  | _ => 0

namespace PoolState

variable {C F A : Type*} {n : Nat} {s : PoolState C F A n} {ws : List Nat} {m : Nat}

/-- **The pool invariant**, with the work `ws` and `m` sentinels in the queue. -/
structure PoolInvariant (s : PoolState C F A n) (ws : List Nat) (m : Nat) : Prop where
  /-- all work comes before all sentinels -/
  queue : s.queue.Represents (ws ++ List.replicate m NULL)
  /-- a worker that has exited has seen a sentinel, so no work is left -/
  drained : ∀ i, s.worker i = .exited → ws = []
  sentinels : m + overWorkers Worker.exits s.worker = s.finisher.sentinels n
  sentinels_le : s.finisher.sentinels n ≤ n
  settled : s.finisher = .notCalled ∨ s.pending = []
  joins : ∀ i : Fin n, i < s.finisher.joins n → s.worker i = .exited
  ledger : Ledger s.works (unfinished s.pending ws s.worker) (finished s.worker) s.added s.completed
  running : ∀ i p f a, s.worker i = .running p f a →
    ∃ w, s.works p = some w ∧ w.workFunction = f ∧ w.aux = a
  taken : ∀ i, s.taken.count (i, NULL) = (s.worker i).exits
  tickets : s.added.map Work.ticket = List.range s.added.length

/-- The invariant holds at first, -/
theorem PoolInvariant.init : (init : PoolState C F A n).PoolInvariant [] 0 := by
  have hidle {M : Type} [AddCommMonoid M] (φ : Worker F A → M) (h : φ .idle = 0) :
      overWorkers φ (PoolState.init : PoolState C F A n).worker = 0 := by
    simp [overWorkers, PoolState.init, h]
  have hU : unfinished [] [] (PoolState.init : PoolState C F A n).worker (T := Thread C n) = 0 := by
    simp [unfinished, hidle Worker.unfinished rfl]
  have hR : finished (PoolState.init : PoolState C F A n).worker = 0 := hidle Worker.finished rfl
  refine ⟨Queue.init_represents, by simp, by rw [hidle Worker.exits rfl]; rfl, Nat.zero_le _,
    Or.inl rfl, by simp [PoolState.init, Finisher.joins], ?_, by simp [PoolState.init],
    fun i => rfl, rfl⟩
  show Ledger (fun _ => none) (unfinished [] [] _) (finished _) [] []
  rw [hU, hR]
  exact Ledger.init

/-! ## One step -/

variable {i : Fin n} {p : Nat} {w : Work F A}

/-- The `work_t` a worker holds is allocated. -/
theorem PoolInvariant.allocated (h : s.PoolInvariant ws m)
    (hp : p ∈ (s.worker i).unfinished ∨ p ∈ (s.worker i).finished) : ∃ w, s.works p = some w := by
  have hmem : p ∈ unfinished s.pending ws s.worker + finished s.worker :=
    Multiset.mem_add.mpr (hp.imp (fun h => Multiset.mem_add.mpr (Or.inr (mem_overWorkers h)))
      fun h => mem_overWorkers h)
  exact Option.isSome_iff_exists.mp ((h.ledger.owned p).mp hmem)

/-- Before `thread_pool_finish` begins there are no sentinels, and no worker has
exited. -/
theorem PoolInvariant.not_called (h : s.PoolInvariant ws m) (hf : s.finisher = .notCalled) :
    m = 0 ∧ ∀ i, s.worker i ≠ .exited := by
  have hsum := h.sentinels
  rw [hf] at hsum
  simp only [Finisher.sentinels] at hsum
  refine ⟨by omega, fun i hi => ?_⟩
  have := exits_pos hi
  omega

/-- A call of `thread_pool_add_work` allocates its `work_t`. -/
theorem PoolInvariant.create (h : s.PoolInvariant ws m) {t : Thread C n} {f : F} {a : A}
    (hf : s.finisher = .notCalled) (hp : s.works p = none) (hp0 : p ≠ NULL) :
    PoolInvariant { s with
      works := Function.update s.works p (some ⟨f, a, s.added.length⟩)
      pending := (t, p) :: s.pending
      added := s.added ++ [⟨f, a, s.added.length⟩] } ws m := by
  refine ⟨h.queue, h.drained, h.sentinels, h.sentinels_le, Or.inl hf, h.joins, ?_, ?_, h.taken, ?_⟩
  · have hU : unfinished ((t, p) :: s.pending) ws s.worker = p ::ₘ unfinished s.pending ws s.worker := by
      simp only [unfinished, List.map_cons, ← Multiset.cons_coe, Multiset.cons_add]
    have := h.ledger.create (w := ⟨f, a, s.added.length⟩) hp hp0
    rwa [← hU] at this
  · intro j q g b hj
    obtain ⟨w, hw, hwf, hwa⟩ := h.running j q g b hj
    have hne : q ≠ p := fun he => by rw [he, hp] at hw; cases hw
    exact ⟨w, by simpa [hne] using hw, hwf, hwa⟩
  · simp [h.tickets, List.range_succ]

section QueueSteps

variable [DecidableEq C] {mon : Monitor (Thread C n) Nat}

/-- A call of `thread_pool_add_work` puts its `work_t` behind the work in the
queue. -/
theorem PoolInvariant.publish (h : s.PoolInvariant ws m) {t : Thread C n}
    {before after : List (Thread C n × Nat)} (hpend : s.pending = before ++ (t, p) :: after)
    (henq : Enqueues t p s.toMonitor mon) :
    PoolInvariant { s with toMonitor := mon, pending := before ++ after } (ws ++ [p]) m := by
  have hf : s.finisher = .notCalled := h.settled.resolve_right (by simp [hpend])
  obtain ⟨rfl, hexits⟩ := h.not_called hf
  have hU : unfinished (before ++ after) (ws ++ [p]) s.worker = unfinished s.pending ws s.worker := by
    simp only [unfinished, hpend, List.map_append, List.map_cons, ← Multiset.coe_add,
      ← Multiset.cons_coe, ← Multiset.singleton_add, Multiset.coe_nil, add_zero]
    abel
  refine ⟨?_, fun i hi => absurd hi (hexits i), h.sentinels, h.sentinels_le, Or.inl hf, h.joins,
    ?_, h.running, h.taken, h.tickets⟩
  · have := henq.represents h.queue
    simpa using this
  · have := h.ledger
    rwa [← hU] at this

/-- `thread_pool_finish` puts a sentinel behind everything. -/
theorem PoolInvariant.sentinel (h : s.PoolInvariant ws m) {k : Nat}
    (hf : s.finisher = .enqueuing k) (hk : k < n) {t : Thread C n}
    (henq : Enqueues t NULL s.toMonitor mon) :
    PoolInvariant { s with toMonitor := mon, finisher := .enqueuing (k + 1) } ws (m + 1) := by
  have hsum := h.sentinels
  rw [hf] at hsum
  simp only [Finisher.sentinels] at hsum
  refine ⟨?_, h.drained, ?_, hk, Or.inr (h.settled.resolve_left (by simp [hf])), ?_, h.ledger,
    h.running, h.taken, h.tickets⟩
  · have := henq.represents h.queue
    simpa [List.replicate_succ'] using this
  · simp only [Finisher.sentinels]
    omega
  · simp [Finisher.joins]

/-- A worker takes the oldest piece of work, or a sentinel when no work is left. -/
theorem PoolInvariant.take (h : s.PoolInvariant ws m) (hi : s.worker i = .idle)
    (hdeq : Dequeues (.worker i) (some p) s.toMonitor mon) :
    ∃ ws' m', PoolInvariant { s with
      toMonitor := mon
      worker := Function.update s.worker i (afterDequeue p)
      taken := s.taken ++ [(i, p)] } ws' m' := by
  obtain ⟨rest, hvs, hq⟩ := hdeq.represents h.queue
  have hjoins : ∀ j : Fin n, j < s.finisher.joins n →
      Function.update s.worker i (afterDequeue p) j = .exited := by
    intro j hj
    have hji : j ≠ i := fun he => by have := h.joins j hj; rw [he, hi] at this; cases this
    simpa [hji] using h.joins j hj
  have hrunning : ∀ j q f a, Function.update s.worker i (afterDequeue p) j = .running q f a →
      s.worker j = .running q f a := by
    intro j q f a hj
    by_cases hji : j = i
    · subst hji
      rw [Function.update_self, afterDequeue] at hj
      split at hj <;> cases hj
    · simpa [hji] using hj
  cases ws with
  | nil =>
      -- only sentinels are left
      obtain ⟨m, rfl⟩ : ∃ k, m = k + 1 := by
        cases m with
        | zero => simp at hvs
        | succ k => exact ⟨k, rfl⟩
      simp only [List.nil_append, List.replicate_succ, List.cons.injEq] at hvs
      obtain ⟨rfl, rfl⟩ := hvs
      have hafter : (afterDequeue NULL : Worker F A) = .exited := if_pos rfl
      rw [hafter] at hjoins hrunning ⊢
      have hsum := overWorkers_update Worker.exits s.worker i .exited
      refine ⟨[], m, hq, fun _ _ => rfl, ?_, h.sentinels_le, h.settled, hjoins, ?_,
        fun j q f a hj => h.running j q f a (hrunning j q f a hj), fun j => ?_, h.tickets⟩
      · have := h.sentinels
        simp only [hi, Worker.exits] at hsum
        dsimp only
        omega
      · have hU : overWorkers Worker.unfinished (Function.update s.worker i .exited) =
            overWorkers Worker.unfinished s.worker := overWorkers_update_same _ (by rw [hi]; rfl)
        have hR : finished (Function.update s.worker i .exited) = finished s.worker :=
          overWorkers_update_same _ (by rw [hi]; rfl)
        simp only [unfinished, hU, hR]
        exact h.ledger
      · have := h.taken j
        by_cases hji : j = i
        · subst hji
          simp [this, hi, Worker.exits]
        · simp [this, hji, Ne.symm hji]
  | cons q ws =>
      simp only [List.cons_append, List.cons.injEq] at hvs
      obtain ⟨rfl, rfl⟩ := hvs
      have hp0 : q ≠ NULL := by
        refine h.ledger.ne_null (Multiset.mem_add.mpr (Or.inl (Multiset.mem_add.mpr (Or.inl ?_))))
        exact Multiset.mem_add.mpr (Or.inr (by simp))
      have hafter : (afterDequeue q : Worker F A) = .got q := if_neg hp0
      rw [hafter] at hjoins hrunning ⊢
      have hexits : overWorkers Worker.exits (Function.update s.worker i (.got q)) =
          overWorkers Worker.exits s.worker := overWorkers_update_same _ (by rw [hi]; rfl)
      refine ⟨ws, m, hq, fun j hj => ?_, ?_, h.sentinels_le, h.settled, hjoins, ?_,
        fun j q f a hj => h.running j q f a (hrunning j q f a hj), fun j => ?_, h.tickets⟩
      · by_cases hji : j = i
        · simp [hji] at hj
        · have := h.drained j (by simpa [hji] using hj)
          simp at this
      · rw [hexits]
        exact h.sentinels
      · have hR : finished (Function.update s.worker i (.got q)) = finished s.worker :=
          overWorkers_update_same _ (by rw [hi]; rfl)
        have hsum := overWorkers_update Worker.unfinished s.worker i (.got q)
        have hU : unfinished s.pending ws (Function.update s.worker i (.got q)) =
            unfinished s.pending (q :: ws) s.worker := by
          simp only [hi, Worker.unfinished, zero_add] at hsum
          simp only [unfinished, hsum, ← Multiset.cons_coe, ← Multiset.singleton_add]
          abel
        have := h.ledger
        rwa [← hU, ← hR] at this
      · have := h.taken j
        by_cases hji : j = i
        · subst hji
          simp [this, hi, Worker.exits, hp0]
        · simp [this, hji, Ne.symm hji]

end QueueSteps

section WorkSteps

/-- Replacing a worker that is neither exited before nor after keeps the sentinels
in order. -/
theorem PoolInvariant.setWorker (h : s.PoolInvariant ws m) {x : Worker F A}
    (hi : (s.worker i).exits = 0) (hx : x.exits = 0) :
    (∀ j, Function.update s.worker i x j = .exited → ws = []) ∧
      overWorkers Worker.exits (Function.update s.worker i x) =
        overWorkers Worker.exits s.worker ∧
      (∀ j : Fin n, j < s.finisher.joins n → Function.update s.worker i x j = .exited) ∧
      ∀ j, s.taken.count (j, NULL) = (Function.update s.worker i x j).exits := by
  refine ⟨fun j hj => ?_, overWorkers_update_same _ (hx.trans hi.symm), fun j hj => ?_, fun j => ?_⟩
  · by_cases hji : j = i
    · subst hji
      rw [Function.update_self] at hj
      rw [hj] at hx
      cases hx
    · exact h.drained j (by simpa [hji] using hj)
  · have hexit := h.joins j hj
    have hji : j ≠ i := by
      rintro rfl
      rw [hexit] at hi
      cases hi
    simpa [hji] using hexit
  · by_cases hji : j = i
    · subst hji
      rw [h.taken, Function.update_self, hi, hx]
    · rw [h.taken, Function.update_of_ne hji]

/-- A worker calls the work function of its `work_t` with its argument. -/
theorem PoolInvariant.start (h : s.PoolInvariant ws m) (hi : s.worker i = .got p)
    (hw : s.works p = some w) :
    PoolInvariant { s with
      worker := Function.update s.worker i (.running p w.workFunction w.aux) } ws m := by
  obtain ⟨hdrained, hexits, hjoins, htaken⟩ := h.setWorker
    (x := .running p w.workFunction w.aux) (by rw [hi]; rfl) rfl
  refine ⟨h.queue, hdrained, by rw [hexits]; exact h.sentinels, h.sentinels_le, h.settled, hjoins,
    ?_, ?_, htaken, h.tickets⟩
  · have hU : overWorkers Worker.unfinished
        (Function.update s.worker i (.running p w.workFunction w.aux)) =
          overWorkers Worker.unfinished s.worker := overWorkers_update_same _ (by rw [hi]; rfl)
    have hR : finished (Function.update s.worker i (.running p w.workFunction w.aux)) =
        finished s.worker := overWorkers_update_same _ (by rw [hi]; rfl)
    simp only [unfinished, hU, hR]
    exact h.ledger
  · intro j q f a hj
    by_cases hji : j = i
    · subst hji
      simp only [Function.update_self, Worker.running.injEq] at hj
      obtain ⟨rfl, rfl, rfl⟩ := hj
      exact ⟨w, hw, rfl, rfl⟩
    · exact h.running j q f a (by simpa [hji] using hj)

/-- A work function returns: its work has been executed. -/
theorem PoolInvariant.finishWork (h : s.PoolInvariant ws m) {f : F} {a : A}
    (hi : s.worker i = .running p f a) (hw : s.works p = some w) :
    PoolInvariant { s with
      worker := Function.update s.worker i (.returned p)
      completed := s.completed ++ [⟨f, a, w.ticket⟩] } ws m := by
  obtain ⟨hdrained, hexits, hjoins, htaken⟩ := h.setWorker (x := .returned p) (by rw [hi]; rfl) rfl
  refine ⟨h.queue, hdrained, by rw [hexits]; exact h.sentinels, h.sentinels_le, h.settled, hjoins,
    ?_, ?_, htaken, h.tickets⟩
  · have hU : unfinished s.pending ws s.worker =
        p ::ₘ unfinished s.pending ws (Function.update s.worker i (.returned p)) := by
      have hsum := overWorkers_update Worker.unfinished s.worker i (.returned p)
      simp only [hi, Worker.unfinished, zero_add] at hsum
      simp only [unfinished, ← hsum, ← Multiset.singleton_add]
      abel
    have hR : finished (Function.update s.worker i (.returned p)) = p ::ₘ finished s.worker := by
      have hsum := overWorkers_update Worker.finished s.worker i (.returned p)
      simp only [hi, Worker.finished, zero_add] at hsum
      simp only [finished, hsum, Multiset.singleton_add]
    -- it was called with the function and the argument of the `work_t`
    have hwork : (⟨f, a, w.ticket⟩ : Work F A) = w := by
      obtain ⟨w', hw', rfl, rfl⟩ := h.running i p f a hi
      rw [hw] at hw'
      rw [Option.some.inj hw']
    have := h.ledger
    rw [hU] at this
    dsimp only
    rw [hR, hwork]
    exact this.execute hw
  · intro j q g b hj
    by_cases hji : j = i
    · simp [hji] at hj
    · exact h.running j q g b (by simpa [hji] using hj)

/-- A worker frees the `work_t` it has executed. -/
theorem PoolInvariant.release (h : s.PoolInvariant ws m) (hi : s.worker i = .returned p) :
    PoolInvariant { s with
      works := Function.update s.works p none
      worker := Function.update s.worker i .idle } ws m := by
  obtain ⟨hdrained, hexits, hjoins, htaken⟩ := h.setWorker (x := .idle) (by rw [hi]; rfl) rfl
  have hR : finished s.worker = p ::ₘ finished (Function.update s.worker i .idle) := by
    have hsum := overWorkers_update Worker.finished s.worker i .idle
    simp only [hi, Worker.finished, zero_add] at hsum
    simp only [finished, ← hsum, Multiset.singleton_add]
  refine ⟨h.queue, hdrained, by rw [hexits]; exact h.sentinels, h.sentinels_le, h.settled, hjoins,
    ?_, ?_, htaken, h.tickets⟩
  · have hU : overWorkers Worker.unfinished (Function.update s.worker i .idle) =
        overWorkers Worker.unfinished s.worker := overWorkers_update_same _ (by rw [hi]; rfl)
    have := h.ledger
    rw [hR] at this
    simp only [unfinished, hU]
    exact this.release
  · intro j q g b hj
    have hji : j ≠ i := by
      rintro rfl
      simp at hj
    replace hj : s.worker j = .running q g b := by simpa [hji] using hj
    obtain ⟨v, hv, hvf, hva⟩ := h.running j q g b hj
    -- what runs is not what is freed
    have hne : q ≠ p := by
      rintro rfl
      have hnodup := h.ledger.nodup
      rw [hR, Multiset.add_cons] at hnodup
      refine (Multiset.nodup_cons.mp hnodup).1 (Multiset.mem_add.mpr (Or.inl ?_))
      refine Multiset.mem_add.mpr (Or.inr (mem_overWorkers (i := j) ?_))
      rw [hj]
      exact Multiset.mem_singleton_self q
    exact ⟨v, by simpa [hne] using hv, hvf, hva⟩

end WorkSteps

/-- **One step** keeps the invariant. -/
theorem PoolInvariant.step [DecidableEq C] {s' : PoolState C F A n} (h : s.PoolInvariant ws m)
    (hstep : Step s s') : ∃ ws' m', s'.PoolInvariant ws' m' := by
  cases hstep with
  | create hf _ hp hp0 => exact ⟨_, _, h.create hf hp hp0⟩
  | publish hpend henq => exact ⟨_, _, h.publish hpend henq⟩
  | wait _ hdeq =>
      refine ⟨ws, m, ?_, h.drained, h.sentinels, h.sentinels_le, h.settled, h.joins, h.ledger,
        h.running, h.taken, h.tickets⟩
      rw [hdeq.of_none]
      exact h.queue
  | take hi hdeq => exact h.take hi hdeq
  | spurious _ =>
      exact ⟨ws, m, h.queue, h.drained, h.sentinels, h.sentinels_le, h.settled, h.joins, h.ledger,
        h.running, h.taken, h.tickets⟩
  | start hi hw => exact ⟨_, _, h.start hi hw⟩
  | finishWork hi _ hw => exact ⟨_, _, h.finishWork hi hw⟩
  | release hi _ => exact ⟨_, _, h.release hi⟩
  | finish hf hpend =>
      have hsum := h.sentinels
      rw [hf] at hsum
      exact ⟨ws, m, h.queue, h.drained, hsum, Nat.zero_le _, Or.inr hpend,
        by simp [Finisher.joins], h.ledger, h.running, h.taken, h.tickets⟩
  | sentinel hf hk henq => exact ⟨_, _, h.sentinel hf hk henq⟩
  | startJoins hf =>
      have hsum := h.sentinels
      rw [hf] at hsum
      exact ⟨ws, m, h.queue, h.drained, hsum, le_refl _,
        Or.inr (h.settled.resolve_left (by simp [hf])), by simp [Finisher.joins], h.ledger,
        h.running, h.taken, h.tickets⟩
  | @join i hf hi =>
      have hsum := h.sentinels
      have hjoins := h.joins
      rw [hf] at hsum hjoins
      refine ⟨ws, m, h.queue, h.drained, hsum, le_refl _,
        Or.inr (h.settled.resolve_left (by simp [hf])), fun j hj => ?_, h.ledger, h.running,
        h.taken, h.tickets⟩
      simp only [Finisher.joins] at hj hjoins
      by_cases hji : j = i
      · rw [hji]
        exact hi
      · refine hjoins j ?_
        have : j.val ≠ i.val := fun he => hji (Fin.ext he)
        omega
  | free hf =>
      have hsum := h.sentinels
      have hjoins := h.joins
      rw [hf] at hsum hjoins
      exact ⟨ws, m, h.queue, h.drained, hsum, le_refl _,
        Or.inr (h.settled.resolve_left (by simp [hf])), hjoins, h.ledger, h.running, h.taken,
        h.tickets⟩

/-! ## All runs -/

/-- and in every state. -/
theorem reachable_invariant [DecidableEq C] (h : Reachable s) : ∃ ws m, s.PoolInvariant ws m := by
  refine h.invariant (I := fun s => ∃ ws m, s.PoolInvariant ws m) (fun s hs => ?_) ?_
  · subst hs
    exact ⟨[], 0, .init⟩
  · rintro s s' ⟨ws, m, h⟩ hstep
    exact h.step hstep

/-- No thread follows a dangling pointer: the `work_t` that a worker holds is
allocated, and the critical sections of the queue run. -/
structure NoCrash (s : PoolState C F A n) : Prop where
  works : ∀ i p, p ∈ (s.worker i).unfinished ∨ p ∈ (s.worker i).finished →
    ∃ w, s.works p = some w
  enqueue : ∀ node v, s.queue.Fresh node → ∃ q, s.queue.enqueue node v = some q
  dequeue : s.queue.size ≠ 0 → ∃ v q, s.queue.dequeue = some (v, q)

/-- What holds when `thread_pool_finish` has joined the workers. -/
structure Drained (s : PoolState C F A n) : Prop where
  /-- the work that was executed to completion is the work that was added -/
  executed : s.completed.Perm s.added
  /-- each call of `thread_pool_add_work` counts once -/
  distinct : (s.added.map Work.ticket).Nodup
  exited : ∀ i, s.worker i = .exited
  sentinel : ∀ i, s.taken.count (i, NULL) = 1
  empty : s.queue.Represents []

/-- When all workers have been joined, all work has been executed. -/
theorem PoolInvariant.drained_of_pastJoins (h : s.PoolInvariant ws m) (hn : 0 < n)
    (hpast : s.PastJoins) : Drained s := by
  have hfin : s.finisher.joins n = n ∧ s.finisher.sentinels n = n ∧ s.finisher ≠ .notCalled := by
    rcases hpast with hf | hf <;> simp [hf, Finisher.joins, Finisher.sentinels]
  have hexited : ∀ i, s.worker i = .exited := fun i => h.joins i (by rw [hfin.1]; exact i.isLt)
  have hsum : overWorkers Worker.exits s.worker = n := by
    simp [overWorkers, hexited, Worker.exits]
  have hm : m = 0 := by
    have := h.sentinels
    omega
  have hws : ws = [] := h.drained ⟨0, hn⟩ (hexited _)
  have hU : unfinished s.pending ws s.worker = 0 := by
    have hpend := h.settled.resolve_left hfin.2.2
    simp [unfinished, hpend, hws, overWorkers, hexited, Worker.unfinished]
  have hledger := h.ledger
  rw [hU] at hledger
  refine ⟨hledger.settled, ?_, hexited, fun i => ?_, ?_⟩
  · rw [h.tickets]
    exact List.nodup_range
  · rw [h.taken, hexited]
    rfl
  · have := h.queue
    simpa [hws, hm] using this

/-- **The thread pool drains exactly once**: whenever `thread_pool_finish` has got
past its joins, and no thread crashes on the way there. -/
theorem reachable_drained [DecidableEq C] (hn : 0 < n) (h : Reachable s) :
    NoCrash s ∧ (s.PastJoins → Drained s) := by
  obtain ⟨ws, m, hinv⟩ := reachable_invariant h
  refine ⟨⟨fun i p hp => hinv.allocated hp, fun node v hf => ?_, fun hne => ?_⟩,
    hinv.drained_of_pastJoins hn⟩
  · obtain ⟨q, hrun, -⟩ := Queue.enqueue_spec hinv.queue hf v
    exact ⟨q, hrun⟩
  · have hsize := hinv.queue.size_eq
    have hq := hinv.queue
    cases hvs : ws ++ List.replicate m NULL with
    | nil =>
        rw [hvs] at hsize
        exact absurd hsize hne
    | cons v vs =>
        rw [hvs] at hq
        obtain ⟨q, hrun, -⟩ := Queue.dequeue_spec hq
        exact ⟨v, q, hrun⟩

/-- A pool of one worker, one piece of work, and `thread_pool_finish`. -/
theorem one_worker_drained :
    ∃ s : PoolState Unit Bool Nat 1, s.PastJoins ∧ s.added.length = 1 ∧ Drained s := by
  have h0 : Reachable (init : PoolState Unit Bool Nat 1) := .init rfl
  have h1 := h0.step (.create (t := .client ()) (f := true) (a := 5) (p := 32) rfl
    ⟨by simp [init], trivial⟩ rfl (by decide))
  have h2 := h1.step (.publish (show _ = [] ++ (Thread.client (), 32) :: [] from rfl)
    (.mk (by simp [init]) (by simp [init]) (⟨rfl, by decide, by decide⟩ : Queue.Fresh _ 16) rfl
      (.nobody rfl)))
  have h3 := h2.step (.take (i := 0) rfl (.take (by simp [init]) (by decide) rfl))
  have h4 := h3.step (.start (i := 0) rfl rfl)
  have h5 := h4.step (.finishWork (i := 0) rfl (by simp) rfl)
  have h6 := h5.step (.release (i := 0) rfl rfl)
  have h7 := h6.step (.finish rfl rfl)
  have h8 := h7.step (.sentinel rfl (by decide) (.mk (by simp [init]) (by simp [init])
    (⟨rfl, by decide, by decide⟩ : Queue.Fresh _ 16) rfl (.nobody rfl)))
  have h9 := h8.step (.startJoins rfl)
  have h10 := h9.step (.take (i := 0) rfl (.take (by simp [init]) (by decide) rfl))
  have h11 := h10.step (.join (i := 0) rfl rfl)
  exact ⟨_, Or.inl rfl, rfl, (reachable_drained (by decide) h11).2 (Or.inl rfl)⟩

end PoolState

end Threads
