import CS24.Lib.Simulation
import CS24.Threads.PasswordCracker
import CS24.Threads.ThreadPoolFinish

/-!
# The password cracker on the thread pool

`main` of `password_cracker.c` reads the hashes, hands every word of the dictionary to
a pool of 16 workers that run `is_password`, and waits in `thread_pool_finish`.  The
workers print what they find as they find it.

Whatever the order of the steps, the program comes to its end, and what it has printed
then is what a loop over the dictionary prints, up to the order of the lines.  The
invariant is an account of the lines: those printed so far belong to the words whose
search is over, in workers that have returned from `is_password` or are about to.
-/

namespace PasswordCracker

open System Threads

/-! ## The program -/

/-- `HASH_START` -/
def HASH_START : CString := [36, 54, 36]

/-- `NUM_THREADS` -/
abbrev NUM_THREADS : Nat := 16

/-- The loop that reads the hashes, over the lines that `getline` returns; `none` is a
failed assertion. -/
def readHashes : List (List UInt8) → Option (List (List UInt8))
  | [] => some []
  | line :: lines =>
    if line.head? = some 10 then some []
    else
      let lineLength := (line.takeWhile (· ≠ 0)).length
      if (lineLength = HASH_LENGTH ∨
            lineLength = HASH_LENGTH + 1 ∧ (line.drop HASH_LENGTH).head? = some 10) ∧
          line.take HASH_START.length = HASH_START then do
        let hashes ← readHashes lines
        some (line.take HASH_LENGTH :: hashes)
      else none

/-- The functions that the pool is given to run. -/
inductive WorkFunction
  | isPassword

/-- The pool of the program; its one client is the main thread. -/
abbrev Pool := PoolState Unit WorkFunction Word NUM_THREADS

/-- The program behind the reading of the hashes.  `searched` are the workers that have
searched and printed, and not returned from `is_password` yet; `output` are the lines
printed so far. -/
structure Cracker where
  pool : Pool
  searched : Fin NUM_THREADS → Bool
  output : List CString

namespace Cracker

/-- After `thread_pool_init`. -/
def init : Cracker := ⟨PoolState.init, fun _ => false, []⟩

section Source

variable (crypt_r : CString → CString → List UInt8) (hashes : List (List UInt8))
  (dictionary : List Word)

/-- One step of one thread.  A search, with the line that it prints, is one step, and
returning from it another. -/
inductive Step : Cracker → Cracker → Prop
  /-- `main` adds the next word -/
  | addWork {s : Cracker} {word : Word} {p : Nat} :
      s.pool.finisher = .notCalled → dictionary[s.pool.added.length]? = some word →
      s.pool.MayAdd (.client ()) → s.pool.works p = none → p ≠ NULL →
      Step s { s with pool := { s.pool with
        works := Function.update s.pool.works p (some ⟨.isPassword, word, s.pool.added.length⟩)
        pending := (.client (), p) :: s.pool.pending
        added := s.pool.added ++ [⟨.isPassword, word, s.pool.added.length⟩] } }
  | search {s : Cracker} {i : Fin NUM_THREADS} {p : Nat} {f : WorkFunction} {word : Word}
      {memory : Nat → Nat → Nat → UInt8} :
      s.pool.worker i = .running p f word → s.searched i = false →
      Step s { s with
        searched := Function.update s.searched i true
        output := s.output ++ (isPassword crypt_r hashes memory word.chars).printed.toList }
  | finishWork {s : Cracker} {i : Fin NUM_THREADS} {p : Nat} {f : WorkFunction} {word : Word}
      {w : Work WorkFunction Word} :
      s.pool.worker i = .running p f word → s.searched i = true →
      (∀ e ∈ s.pool.pending, e.1 ≠ .worker i) → s.pool.works p = some w →
      Step s { s with
        pool := { s.pool with
          worker := Function.update s.pool.worker i (.returned p)
          completed := s.pool.completed ++ [⟨f, word, w.ticket⟩] }
        searched := Function.update s.searched i false }
  /-- `main` has added all words -/
  | finish {s : Cracker} :
      s.pool.finisher = .notCalled → dictionary.length ≤ s.pool.added.length →
      s.pool.pending = [] →
      Step s { s with pool := { s.pool with finisher := .enqueuing 0 } }
  /-- a step inside the pool -/
  | inside {s : Cracker} {pool : Pool} :
      PoolState.Step s.pool pool → pool.added = s.pool.added →
      pool.completed = s.pool.completed →
      (s.pool.finisher = .notCalled → pool.finisher = .notCalled) →
      Step s { s with pool := pool }

/-- What `is_password` prints for a word. -/
def linesOf (word : Word) : List CString :=
  (isPassword crypt_r hashes (fun _ _ _ => 0) word.chars).printed.toList

/-- What a loop over the dictionary prints. -/
def sequential : List CString := dictionary.flatMap (linesOf crypt_r hashes)

/-- The lines of a search that is over, in a worker that has not returned from it. -/
def held : Bool → Worker WorkFunction Word → Multiset CString
  | true, .running _ _ word => linesOf crypt_r hashes word
  | _, _ => 0

@[simp] theorem held_false {x : Worker WorkFunction Word} : held crypt_r hashes false x = 0 := rfl

@[simp] theorem held_running {p : Nat} {f : WorkFunction} {word : Word} :
    held crypt_r hashes true (.running p f word) = linesOf crypt_r hashes word := rfl

end Source

section Account

variable {crypt_r : CString → CString → List UInt8} {hashes : List (List UInt8)}
  {dictionary : List Word} {s s' : Cracker}

/-- What stands in fresh memory does not matter. -/
theorem linesOf_eq (memory : Nat → Nat → Nat → UInt8) (word : Word) :
    (isPassword crypt_r hashes memory word.chars).printed.toList = linesOf crypt_r hashes word := by
  rw [linesOf, isPassword_eq, isPassword_eq]

/-- The program makes the steps of its pool. -/
theorem Step.pool (h : Step crypt_r hashes dictionary s s') :
    s'.pool = s.pool ∨ PoolState.Step s.pool s'.pool := by
  cases h with
  | addWork hf _ hmay hp hp0 => exact .inr (.create hf hmay hp hp0)
  | search _ _ => exact .inl rfl
  | finishWork hi _ hpend hw => exact .inr (.finishWork hi hpend hw)
  | finish hf _ hpend => exact .inr (.finish hf hpend)
  | inside hstep _ _ _ => exact .inr hstep

/-- A work function goes on running while another thread makes a step. -/
theorem running_of_step {pool pool' : Pool} {i : Fin NUM_THREADS} {p : Nat} {f : WorkFunction}
    {word : Word} (hstep : PoolState.Step pool pool') (hcompleted : pool'.completed = pool.completed)
    (hi : pool.worker i = .running p f word) : pool'.worker i = .running p f word := by
  have hother : ∀ {j x}, pool.worker j ≠ pool.worker i →
      Function.update pool.worker j x i = pool.worker i := by
    intro j x hne
    have hij : i ≠ j := by
      rintro rfl
      exact hne rfl
    rw [Function.update_of_ne hij]
  cases hstep with
  | take hj _ => exact (hother (by rw [hj, hi]; exact nofun)).trans hi
  | start hj _ => exact (hother (by rw [hj, hi]; exact nofun)).trans hi
  | finishWork _ _ _ => simp at hcompleted
  | release hj _ => exact (hother (by rw [hj, hi]; exact nofun)).trans hi
  | _ => exact hi

/-- Calls of `thread_pool_add_work` only end. -/
theorem pending_of_step {pool pool' : Pool} (hstep : PoolState.Step pool pool')
    (hadded : pool'.added = pool.added) : ∀ e ∈ pool'.pending, e ∈ pool.pending := by
  cases hstep with
  | create _ _ _ _ => simp at hadded
  | publish hpend _ =>
      intro e he
      rw [hpend, List.mem_append, List.mem_cons]
      exact (List.mem_append.mp he).imp_right .inr
  | _ => exact fun e he => he

/-- One worker's lines are exchanged for others. -/
theorem sum_held (crypt_r : CString → CString → List UInt8) (hashes : List (List UInt8))
    (searched searched' : Fin NUM_THREADS → Bool)
    (worker worker' : Fin NUM_THREADS → Worker WorkFunction Word) (i : Fin NUM_THREADS)
    (h : ∀ j, j ≠ i → searched' j = searched j ∧ worker' j = worker j) :
    held crypt_r hashes (searched i) (worker i) + ∑ j, held crypt_r hashes (searched' j) (worker' j) =
      held crypt_r hashes (searched' i) (worker' i) +
        ∑ j, held crypt_r hashes (searched j) (worker j) := by
  rw [← Finset.add_sum_erase _ (fun j => held crypt_r hashes (searched' j) (worker' j))
      (Finset.mem_univ i),
    ← Finset.add_sum_erase _ (fun j => held crypt_r hashes (searched j) (worker j))
      (Finset.mem_univ i)]
  have hrest : ∑ j ∈ Finset.univ.erase i, held crypt_r hashes (searched' j) (worker' j) =
      ∑ j ∈ Finset.univ.erase i, held crypt_r hashes (searched j) (worker j) := by
    refine Finset.sum_congr rfl fun j hj => ?_
    obtain ⟨hsearched, hworker⟩ := h j (Finset.ne_of_mem_erase hj)
    rw [hsearched, hworker]
  rw [hrest]
  exact add_left_comm _ _ _

/-- **The account of the lines.** -/
structure Accounted (crypt_r : CString → CString → List UInt8) (hashes : List (List UInt8))
    (dictionary : List Word) (s : Cracker) : Prop where
  reachable : PoolState.Reachable s.pool
  words : s.pool.added.map Work.aux = dictionary.take s.pool.added.length
  all : s.pool.finisher ≠ .notCalled → dictionary.length ≤ s.pool.added.length
  pending : ∀ e ∈ s.pool.pending, e.1 = .client ()
  searching : ∀ i, s.searched i = true → ∃ p f word, s.pool.worker i = .running p f word
  printed : (s.output : Multiset CString) =
    (s.pool.completed : Multiset (Work WorkFunction Word)).bind
      (fun w => (linesOf crypt_r hashes w.aux : Multiset CString)) +
    ∑ i, held crypt_r hashes (s.searched i) (s.pool.worker i)

/-- At first nothing is printed and nothing is added. -/
theorem Accounted.init : Accounted crypt_r hashes dictionary init := by
  refine ⟨.init rfl, by simp [Cracker.init, PoolState.init], fun h => absurd rfl h,
    by simp [Cracker.init, PoolState.init], by simp [Cracker.init], ?_⟩
  simp [Cracker.init, PoolState.init, held]

/-- The step of another thread, or of the main thread in the pool, prints nothing. -/
theorem Accounted.inside {pool : Pool} (h : Accounted crypt_r hashes dictionary s)
    (hstep : PoolState.Step s.pool pool) (hcompleted : pool.completed = s.pool.completed)
    (hwords : pool.added.map Work.aux = dictionary.take pool.added.length)
    (hall : pool.finisher ≠ .notCalled → dictionary.length ≤ pool.added.length)
    (hpend : ∀ e ∈ pool.pending, e.1 = .client ()) :
    Accounted crypt_r hashes dictionary { s with pool := pool } := by
  have hrunning : ∀ i, s.searched i = true → ∃ p f word,
      s.pool.worker i = .running p f word ∧ pool.worker i = .running p f word := by
    intro i hi
    obtain ⟨p, f, word, hworker⟩ := h.searching i hi
    exact ⟨p, f, word, hworker, running_of_step hstep hcompleted hworker⟩
  refine ⟨h.reachable.step hstep, hwords, hall, hpend, fun i hi => ?_, ?_⟩
  · obtain ⟨p, f, word, -, hworker⟩ := hrunning i hi
    exact ⟨p, f, word, hworker⟩
  · have hheld : ∀ i, held crypt_r hashes (s.searched i) (pool.worker i) =
        held crypt_r hashes (s.searched i) (s.pool.worker i) := by
      intro i
      cases hi : s.searched i with
      | false => rfl
      | true =>
          obtain ⟨p, f, word, hworker, hworker'⟩ := hrunning i hi
          rw [hworker, hworker']
    change (s.output : Multiset CString) =
      (pool.completed : Multiset (Work WorkFunction Word)).bind _ +
      ∑ i, held crypt_r hashes (s.searched i) (pool.worker i)
    rw [h.printed, hcompleted, Finset.sum_congr rfl fun i _ => hheld i]

/-- **Each step keeps the account**: what is printed, and what the workers and the queue hold. -/
theorem Accounted.step (h : Accounted crypt_r hashes dictionary s)
    (hstep : Step crypt_r hashes dictionary s s') : Accounted crypt_r hashes dictionary s' := by
  have hpool := hstep.pool
  cases hstep with
  | @addWork word p hf hword hmay hp hp0 =>
      refine h.inside (.create hf hmay hp hp0) rfl ?_ (fun hf' => absurd hf hf') ?_
      · rw [List.map_append, h.words, List.length_append, List.length_singleton,
          List.take_add_one, hword]
        rfl
      · intro e he
        rcases List.mem_cons.mp he with rfl | he
        · rfl
        · exact h.pending e he
  | @search i p f word memory hi hsearched =>
      refine ⟨h.reachable, h.words, h.all, h.pending, fun j hj => ?_, ?_⟩
      · by_cases hji : j = i
        · exact ⟨p, f, word, hji ▸ hi⟩
        · exact h.searching j (by simpa [hji] using hj)
      · -- the line is printed for the worker
        have hsum := sum_held crypt_r hashes s.searched (Function.update s.searched i true)
          s.pool.worker s.pool.worker i fun j hj => ⟨Function.update_of_ne hj _ _, rfl⟩
        rw [hsearched, hi, Function.update_self, held_false, held_running, zero_add] at hsum
        change ((s.output ++ _ : List CString) : Multiset CString) = _ +
          ∑ j, held crypt_r hashes (Function.update s.searched i true j) (s.pool.worker j)
        rw [← Multiset.coe_add, h.printed, linesOf_eq, hsum, add_assoc,
          add_comm (linesOf crypt_r hashes word : Multiset CString)]
  | @finishWork i p f word w hi hsearched _ hw =>
      refine ⟨h.reachable.step (hpool.resolve_left ?_), h.words, h.all, h.pending,
        fun j hj => ?_, ?_⟩
      · intro heq
        have hcompleted := congrArg (fun pool : Pool => pool.completed.length) heq
        simp at hcompleted
      · by_cases hji : j = i
        · simp [hji] at hj
        · obtain ⟨p, f, word, hworker⟩ := h.searching j (by simpa [hji] using hj)
          exact ⟨p, f, word, by simpa [hji] using hworker⟩
      · -- the work is completed, and its line is not held any more
        have hsum := sum_held crypt_r hashes s.searched (Function.update s.searched i false)
          s.pool.worker (Function.update s.pool.worker i (.returned p)) i fun j hj =>
            ⟨Function.update_of_ne hj _ _, Function.update_of_ne hj _ _⟩
        rw [hsearched, hi, Function.update_self, held_false, held_running, zero_add] at hsum
        change (s.output : Multiset CString) =
          ((s.pool.completed ++ [⟨f, word, w.ticket⟩] : List (Work WorkFunction Word)) :
            Multiset (Work WorkFunction Word)).bind _ +
          ∑ j, held crypt_r hashes (Function.update s.searched i false j)
            (Function.update s.pool.worker i (.returned p) j)
        rw [← Multiset.coe_add, Multiset.add_bind, Multiset.coe_singleton, Multiset.singleton_bind,
          add_assoc, hsum, h.printed]
  | finish hf hall hpend =>
      exact h.inside (.finish hf hpend) rfl h.words (fun _ => hall) h.pending
  | inside hstep hadded hcompleted hf =>
      refine h.inside hstep hcompleted (by rw [hadded]; exact h.words) ?_ ?_
      · intro hf'
        rw [hadded]
        exact h.all fun hnot => hf' (hf hnot)
      · exact fun e he => h.pending e (pending_of_step hstep hadded e he)

/-- At the end all lines have been printed. -/
theorem Accounted.output_perm (h : Accounted crypt_r hashes dictionary s)
    (hfreed : s.pool.finisher = .freed) : s.output.Perm (sequential crypt_r hashes dictionary) := by
  obtain ⟨ws, m, hinv⟩ := PoolState.reachable_invariant h.reachable
  have hdrained := hinv.drained_of_pastJoins (by decide) (.inr hfreed)
  have hheld : ∀ i, held crypt_r hashes (s.searched i) (s.pool.worker i) = 0 := by
    intro i
    rw [hdrained.exited i]
    cases s.searched i <;> rfl
  have hwords : s.pool.added.map Work.aux = dictionary := by
    rw [h.words, List.take_of_length_le]
    exact h.all (by rw [hfreed]; exact nofun)
  have hcompleted : (s.pool.completed : Multiset (Work WorkFunction Word)) = s.pool.added :=
    Multiset.coe_eq_coe.mpr hdrained.executed
  have hprinted := h.printed
  rw [Finset.sum_congr rfl fun i _ => hheld i, Finset.sum_const_zero, add_zero, hcompleted,
    Multiset.coe_bind, Multiset.coe_eq_coe] at hprinted
  rw [sequential, ← hwords, List.flatMap_map]
  exact hprinted

/-- So it holds in every state. -/
theorem reachable_accounted (h : Reach (fun s => s = Cracker.init) (Step crypt_r hashes dictionary) s) :
    Accounted crypt_r hashes dictionary s :=
  h.invariant (fun _ hs => hs ▸ .init) fun _ _ h hstep => h.step hstep

/-- What has been printed stays printed. -/
theorem Step.output_grows (h : Step crypt_r hashes dictionary s s') : s.output <+: s'.output := by
  cases h with
  | search _ _ => exact List.prefix_append _ _
  | _ => exact List.prefix_rfl

end Account

/-! ## The end of the program -/

section Ends

/-- A wakeup for no reason. -/
def Wakes (s s' : Cracker) : Prop := ∃ pool, s.pool.Wakes pool ∧ s' = { s with pool := pool }

/-- The workers that have not searched since they last returned from `is_password`. -/
def unsearched (s : Cracker) : Finset (Fin NUM_THREADS) :=
  Finset.univ.filter fun i => s.searched i = false

/-- What is left to do. -/
def weight (dictionary : List Word) (s : Cracker) : Nat :=
  2 * s.pool.weight + s.unsearched.card + 14 * (dictionary.length - s.pool.added.length) +
    12 * s.pool.pending.length

variable {crypt_r : CString → CString → List UInt8} {hashes : List (List UInt8)}
  {dictionary : List Word} {s s' : Cracker}

/-- A spurious wakeup costs two steps at most. -/
theorem Wakes.weight_le (h : s.Wakes s') :
    s'.weight dictionary ≤ s.weight dictionary + 2 := by
  obtain ⟨pool, hwakes, rfl⟩ := h
  have hle := hwakes.weight_le
  have hsame := hwakes.same
  simp only [weight, unsearched, hsame.added, hsame.pending]
  omega

/-- A pool step that changes the workers or the finisher is not a wakeup. -/
theorem pool_weight_lt {pool pool' : Pool} (h : PoolState.Reachable pool)
    (hstep : PoolState.Step pool pool') (hwakes : ¬ pool.Wakes pool')
    (hpend : pool'.pending = pool.pending) : pool'.weight < pool.weight := by
  obtain ⟨ws, m, hinv⟩ := PoolState.reachable_invariant h
  exact hinv.weight_lt hpend ⟨hstep, hwakes⟩

/-- **Every step lowers the weight.** -/
theorem Accounted.weight_lt (h : Accounted crypt_r hashes dictionary s)
    (hstep : Step crypt_r hashes dictionary s s') (hwakes : ¬ s.Wakes s') :
    s'.weight dictionary < s.weight dictionary := by
  cases hstep with
  | @addWork word p hf hword hmay hp hp0 =>
      obtain ⟨hlt, -⟩ := List.getElem?_eq_some_iff.mp hword
      have hsame : PoolState.weight { s.pool with
          works := Function.update s.pool.works p (some ⟨.isPassword, word, s.pool.added.length⟩)
          pending := (.client (), p) :: s.pool.pending
          added := s.pool.added ++ [⟨.isPassword, word, s.pool.added.length⟩] } =
          s.pool.weight := rfl
      simp only [weight, unsearched, hsame, List.length_append, List.length_cons, List.length_nil]
      omega
  | @search i p f word memory hi hsearched =>
      have herase : (Finset.univ.filter fun j => Function.update s.searched i true j = false) =
          s.unsearched.erase i := by
        ext j
        by_cases hji : j = i <;> simp [unsearched, hji]
      have hmem : i ∈ s.unsearched := by simpa [unsearched] using hsearched
      have hcard := Finset.card_erase_lt_of_mem hmem
      rw [← herase] at hcard
      simp only [weight, unsearched] at hcard ⊢
      omega
  | @finishWork i p f word w hi hsearched hpend hw =>
      have hlt := pool_weight_lt h.reachable (.finishWork hi hpend hw) ?_ rfl
      · have hsub : (Finset.univ.filter fun j => Function.update s.searched i false j = false) ⊆
            insert i s.unsearched := by
          intro j hj
          by_cases hji : j = i
          · simp [hji]
          · simpa [unsearched, hji] using hj
        have hcard := (Finset.card_le_card hsub).trans (Finset.card_insert_le _ _)
        simp only [weight, unsearched] at hcard ⊢
        omega
      · intro hpool
        have hsame := congrFun hpool.same.worker i
        simp [hi] at hsame
  | finish hf hall hpend =>
      have hlt := pool_weight_lt h.reachable (.finish hf hpend) ?_ rfl
      · simp only [weight, unsearched]
        omega
      · intro hpool
        have hsame := hpool.same.finisher
        simp [hf] at hsame
  | inside hstep hadded _ _ =>
      obtain ⟨ws, m, hinv⟩ := PoolState.reachable_invariant h.reachable
      rcases hinv.weight_publish hstep hadded with hpend | ⟨hpend, hle⟩
      · have hlt := pool_weight_lt h.reachable hstep (fun hpool => hwakes ⟨_, hpool, rfl⟩) hpend
        simp only [weight, unsearched, hadded, hpend]
        omega
      · simp only [weight, unsearched, hadded]
        omega

/-- No step can be made but by a wakeup for no reason. -/
def Stuck (crypt_r : CString → CString → List UInt8) (hashes : List (List UInt8))
    (dictionary : List Word) (s : Cracker) : Prop :=
  ∀ s', Step crypt_r hashes dictionary s s' → s.Wakes s'

/-- Where the cracker is stuck its pool can only wake up for nothing. -/
theorem Stuck.pool_wakes (h : Stuck crypt_r hashes dictionary s) {searched : Fin NUM_THREADS → Bool}
    {output : List CString} {pool : Pool}
    (hstep : Step crypt_r hashes dictionary s ⟨pool, searched, output⟩) : s.pool.Wakes pool := by
  obtain ⟨pool', hwakes, heq⟩ := h _ hstep
  cases heq
  exact hwakes

/-- Then the pool can make no step either, but by calls from outside. -/
theorem Stuck.inside (h : Stuck crypt_r hashes dictionary s) {pool : Pool}
    (hstep : PoolState.Step s.pool pool) (hadded : pool.added = s.pool.added)
    (hf : s.pool.finisher = .notCalled → pool.finisher = .notCalled) : s.pool.Wakes pool := by
  by_cases hcompleted : pool.completed = s.pool.completed
  · exact h.pool_wakes (.inside hstep hadded hcompleted hf)
  · cases hstep with
    | @finishWork i p f word w hi hpend hw =>
        cases hsearched : s.searched i with
        | true => exact h.pool_wakes (.finishWork hi hsearched hpend hw)
        | false =>
            have hsearch := @Step.search crypt_r hashes dictionary s i p f word (fun _ _ _ => 0) hi
              hsearched
            exact absurd (h.pool_wakes hsearch).same.waiting (ssubset_irrefl _)
    | _ => exact absurd rfl hcompleted

/-- Work is added only together with a piece that is pending. -/
theorem added_of_step {pool pool' : Pool} (hstep : PoolState.Step pool pool')
    (hpend : pool'.pending = pool.pending) : pool'.added = pool.added := by
  cases hstep with
  | create _ _ _ _ => exact absurd hpend (List.cons_ne_self _ _)
  | _ => rfl

/-- There is room for one more `work_t`. -/
theorem exists_free {pool : Pool} (h : PoolState.Reachable pool) :
    ∃ p, pool.works p = none ∧ p ≠ NULL := by
  obtain ⟨ws, m, hinv⟩ := PoolState.reachable_invariant h
  obtain ⟨p, hp⟩ := Infinite.exists_notMem_finset
    (insert NULL (unfinished pool.pending ws pool.worker + finished pool.worker).toFinset)
  rw [Finset.mem_insert, not_or, Multiset.mem_toFinset, hinv.ledger.owned] at hp
  exact ⟨p, by simpa using hp.2, hp.1⟩

/-- The main thread can always go on until it calls `thread_pool_finish`. -/
theorem Stuck.called (h : Stuck crypt_r hashes dictionary s)
    (hacc : Accounted crypt_r hashes dictionary s) : s.pool.finisher ≠ .notCalled := by
  intro hf
  obtain ⟨ws, m, hinv⟩ := PoolState.reachable_invariant hacc.reachable
  have hparked := PoolState.reachable_parked hacc.reachable
  have hworkers : s.pool.WorkersStuck := by
    refine ⟨fun pool hstep hfin hpend => ?_, fun i e he => ?_⟩
    · exact h.inside hstep (added_of_step hstep hpend) fun _ => hfin.trans hf
    · rw [hacc.pending e he]
      exact nofun
  -- all workers wait, so the queue is empty
  have hwait : Thread.worker 0 ∈ s.pool.waiting := by
    rcases hworkers.worker hinv 0 with hexit | ⟨-, hwait⟩
    · exact absurd hexit ((hinv.not_called hf).2 0)
    · exact hwait
  have hempty := hworkers.size_eq hinv hparked (PoolState.reachable_covered hacc.reachable)
    ⟨_, hwait⟩
  cases hpend : s.pool.pending with
  | cons e rest =>
      obtain ⟨t, p⟩ := e
      obtain rfl : t = .client () := hacc.pending (t, p) (by simp [hpend])
      have hoff := hparked.off (t := .client ()) fun i => nofun
      obtain ⟨mon, henq⟩ := PoolState.exists_enqueues hinv.queue hempty hoff p
      have hwakes := h.inside (.publish (show s.pool.pending = [] ++ _ from hpend) henq) rfl
        fun hf => hf
      have hsame := congrArg List.length hwakes.same.pending
      simp [hpend] at hsame
  | nil =>
      by_cases hmore : s.pool.added.length < dictionary.length
      · obtain ⟨p, hp, hp0⟩ := exists_free hacc.reachable
        have hmay : s.pool.MayAdd (.client ()) := ⟨by simp [hpend], trivial⟩
        have hwakes := h.pool_wakes (.addWork hf (List.getElem?_eq_getElem hmore) hmay hp hp0)
        have hsame := congrArg List.length hwakes.same.pending
        simp at hsame
      · have hwakes := h.pool_wakes (.finish hf (Nat.le_of_not_lt hmore) hpend)
        have hsame := hwakes.same.finisher
        simp [hf] at hsame

/-- **No deadlock.** If no thread can move then `main` has come to its end. -/
theorem Stuck.freed (h : Stuck crypt_r hashes dictionary s)
    (hacc : Accounted crypt_r hashes dictionary s) : s.pool.finisher = .freed := by
  have hcalled := h.called hacc
  refine PoolState.Stuck.freed (fun pool hstep => ?_) hacc.reachable hcalled
  refine h.inside hstep ?_ fun hf => absurd hf hcalled
  cases hstep with
  | create hf _ _ _ => exact absurd hf hcalled
  | _ => rfl

/-- A step of a thread. -/
def Runs (crypt_r : CString → CString → List UInt8) (hashes : List (List UInt8))
    (dictionary : List Word) (s s' : Cracker) : Prop :=
  Step crypt_r hashes dictionary s s' ∧ ¬ s.Wakes s'

/-- Spurious wakeups keep the account, -/
theorem Accounted.wakes (h : Accounted crypt_r hashes dictionary s) (hwakes : s.Wakes s') :
    Accounted crypt_r hashes dictionary s' := by
  obtain ⟨pool, hpool, rfl⟩ := hwakes
  obtain ⟨t, ht, rfl⟩ := hpool
  exact h.step (.inside (.spurious ht) rfl rfl fun hf => hf)

/-- and print nothing. -/
theorem Wakes.output_eq (h : s.Wakes s') : s'.output = s.output := by
  obtain ⟨pool, -, rfl⟩ := h
  rfl

/-- A run only adds to the output. -/
theorem output_grows {a b : Nat} (h : Counted (Runs crypt_r hashes dictionary) Wakes s a b s') :
    s.output <+: s'.output := by
  refine h.invariant (I := fun t => s.output <+: t.output) List.prefix_rfl ?_ ?_
  · exact fun t u ht hruns => ht.trans hruns.1.output_grows
  · intro t u ht hwakes
    rw [hwakes.output_eq]
    exact ht

/-- A run that has come to its end can be reached. -/
theorem Accounted.exists_end (h : Accounted crypt_r hashes dictionary s) :
    ∃ k t, Counted (Runs crypt_r hashes dictionary) Wakes s k 0 t ∧
      Accounted crypt_r hashes dictionary t ∧ Stuck crypt_r hashes dictionary t := by
  have hfinal : ∃ k t, Counted (Runs crypt_r hashes dictionary) Wakes s k 0 t ∧
      Accounted crypt_r hashes dictionary t ∧ ∀ u, ¬ Runs crypt_r hashes dictionary t u :=
    exists_counted_final (weight dictionary) h (fun s s' hs hruns => hs.step hruns.1)
      fun s s' hs hruns => hs.weight_lt hruns.1 hruns.2
  obtain ⟨k, t, hrun, ht, hfinal⟩ := hfinal
  refine ⟨k, t, hrun, ht, fun u hstep => ?_⟩
  by_contra hwakes
  exact hfinal u ⟨hstep, hwakes⟩

end Ends

/-- What `hashes_match` takes for granted of a hash. -/
structure WellFormed (hash : List UInt8) : Prop where
  length : hash.length = HASH_LENGTH
  no_zero : 0 ∉ hash
  start : hash.take HASH_START.length = HASH_START

/-- The first characters of a line that is long enough in front of its first zero. -/
theorem wellFormed_take {line : List UInt8} (hlength : HASH_LENGTH ≤ (line.takeWhile (· ≠ 0)).length)
    (hstart : line.take HASH_START.length = HASH_START) : WellFormed (line.take HASH_LENGTH) := by
  have hfirst : line.take HASH_LENGTH = (line.takeWhile (· ≠ 0)).take HASH_LENGTH := by
    conv_lhs => rw [← List.takeWhile_append_dropWhile (p := (· ≠ 0)) (l := line)]
    rw [List.take_append_of_le_length hlength]
  refine ⟨?_, ?_, ?_⟩
  · rw [hfirst, List.length_take_of_le hlength]
  · intro hmem
    rw [hfirst] at hmem
    simpa using List.mem_takeWhile_imp (List.mem_of_mem_take hmem)
  · rw [List.take_take]
    exact hstart

/-- The lines that are accepted are hashes. -/
theorem readHashes_wellFormed {lines hashes : List (List UInt8)} (h : readHashes lines = some hashes) :
    ∀ hash ∈ hashes, WellFormed hash := by
  induction lines generalizing hashes with
  | nil =>
      cases h
      exact fun _ hmem => absurd hmem List.not_mem_nil
  | cons line lines ih =>
      rw [readHashes] at h
      split at h
      · cases h
        exact fun _ hmem => absurd hmem List.not_mem_nil
      · dsimp only at h
        split at h
        · rename_i hline
          obtain ⟨hlength, hstart⟩ := hline
          obtain ⟨rest, hrest, heq⟩ := Option.bind_eq_some_iff.mp h
          cases heq
          intro hash hmem
          rcases List.mem_cons.mp hmem with rfl | hmem
          · exact wellFormed_take (by omega) hstart
          · exact ih hrest hash hmem
        · cases h

section Program

variable {crypt_r : CString → CString → List UInt8} {lines hashes : List (List UInt8)}
  {dictionary : List Word} {s : Cracker} {a b : Nat}

/-- **The password cracker**, in every run, whatever the order of the steps.  It makes
a bounded number of steps, and up to two more for each wakeup that happens for no
reason; when no thread can move, `main` has come to its end, and what has been printed
is what a loop over the dictionary prints, in some order.  Until then, nothing else is
printed. -/
theorem main_prints (hread : readHashes lines = some hashes)
    (hrun : Counted (Runs crypt_r hashes dictionary) Wakes init a b s) :
    (∀ hash ∈ hashes, WellFormed hash) ∧
    a ≤ 14 * dictionary.length + 278 + 2 * b ∧
    s.output.Subperm (sequential crypt_r hashes dictionary) ∧
    (Stuck crypt_r hashes dictionary s →
      s.pool.finisher = .freed ∧ s.output.Perm (sequential crypt_r hashes dictionary)) ∧
    ∃ k t, Counted (Runs crypt_r hashes dictionary) Wakes s k 0 t ∧
      Stuck crypt_r hashes dictionary t := by
  have hacc : Accounted crypt_r hashes dictionary s :=
    hrun.invariant .init (fun s s' hs hruns => hs.step hruns.1) fun s s' hs hwakes => hs.wakes hwakes
  refine ⟨readHashes_wellFormed hread, ?_, ?_, fun hstuck => ?_, ?_⟩
  · have hlength := hrun.length_le (I := Accounted crypt_r hashes dictionary) (weight dictionary) 2 .init
      (fun s s' hs hmove => hmove.elim (fun hruns => hs.step hruns.1) hs.wakes)
      (fun s s' hs hruns => hs.weight_lt hruns.1 hruns.2) fun s s' _ hwakes => hwakes.weight_le
    have hinit : weight dictionary init = 14 * dictionary.length + 278 := by
      have hpool : PoolState.weight (PoolState.init : Pool) = 131 := rfl
      have hunsearched : (unsearched init).card = 16 := rfl
      rw [weight, show init.pool = PoolState.init from rfl, hpool, hunsearched]
      change 2 * 131 + 16 + 14 * (dictionary.length - 0) + 12 * 0 = _
      omega
    omega
  · obtain ⟨k, t, hrest, ht, hstuck⟩ := hacc.exists_end
    exact (output_grows hrest).sublist.subperm.trans (ht.output_perm (hstuck.freed ht)).subperm
  · have hfreed := hstuck.freed hacc
    exact ⟨hfreed, hacc.output_perm hfreed⟩
  · obtain ⟨k, t, hrest, -, hstuck⟩ := hacc.exists_end
    exact ⟨k, t, hrest, hstuck⟩

/-- The hash of `0a`, found from the word `a`. -/
theorem oneWord_prints :
    ∃ k t, Counted (Runs plainCrypt [plainCrypt [48, 97] dotSalt] [⟨[97], by decide⟩]) Wakes
      init k 0 t ∧ t.pool.finisher = .freed ∧ t.output = [[48, 97]] := by
  have hread : readHashes [plainCrypt [48, 97] dotSalt ++ [10]] =
      some [plainCrypt [48, 97] dotSalt] := by decide
  obtain ⟨-, -, -, -, k, t, hrun, hstuck⟩ := main_prints hread .refl
  obtain ⟨-, -, -, hend, -⟩ := main_prints hread hrun
  obtain ⟨hfreed, hperm⟩ := hend hstuck
  exact ⟨k, t, hrun, hfreed, List.perm_singleton.mp hperm⟩

end Program

end Cracker

end PasswordCracker
