import CS24.Basic.AsmText
import CS24.Basic.CallingConvention
import CS24.Basic.Folding
import CS24.Basic.Rendering

/-!
# Compiled programs as they are run

`main` of `compiler.c` turns a source file into an assembly file.  The file is linked
with `call_check.s` and `print_int.s`: `_start` fills 32 KB of stack and the registers
that a function has to preserve with canaries, calls `basic_main`, and exits with 0 if it
finds them again.  `print_int` prints one line and then overwrites every register that it
need not preserve.
-/

namespace Basic

open X86 Machine
open Basic.Parser (parse decimal byte bytes Renders product product_renders)

/-! ## The compiler -/

/-- What `main` writes to its output for a program file, and its exit status.  There is
none where `fold` divides by zero or the counter of the labels overflows. -/
def compilerMain (text : List UInt8) : Option (List UInt8 × Nat) :=
  match parse text with
  | none => some (asm header, 2)
  | some ast => do
    let code ← compile ast
    some (asm code, 0)

/-! ## The runtime -/

/-- `print_int`, behind its call of `printf`, which may have left anything below the
stack pointer. -/
def printInt (below : State → Int → Value) : External := fun s =>
  (fun
    | .rax => .word 0x6A2CFE91073BD845
    | .rdi => .word 0x03BAD7C14F2E6589
    | .rsi => .word 0x5D41EA960C72F8B3
    | .rdx => .word 0xEC364B2D5A7F9810
    | .rcx => .word 0xFC85AD49320BE167
    | .r8 => .word 0x529A48CDB7163E0F
    | .r9 => .word 0x92E1587A4BDCF630
    | .r10 => .word 0x47DC36501F89AEB2
    | .r11 => .word 0xAF4B29785C61ED30
    | r => s.regs r, below s)

/-- What `printf` writes for the numbers that are printed. -/
def stdout (output : List Word) : List UInt8 :=
  output.flatMap fun w => decimal w ++ [byte '\n']

/-- The canary of the stack. -/
def stackCanary : Word := 0x1BF532C94A760E8D

/-- The number of the canaries on the stack. -/
@[irreducible] def canaryCount : Nat := 0x1000

/-- The canaries of the registers. -/
def registerCanaries : List (Reg × Word) :=
  [(.rbx, 0xB42607DE9FA358C1), (.rbp, 0x412087E6FAB9C53D), (.r12, 0x514D387C6AE02B9F),
    (.r13, 0xE5BF4238C1DA9760), (.r14, 0xCB9FD8524A630E71), (.r15, 0xD0B5F947CEA23618)]

/-- `rep stosq` of a word -/
def repStosq (w : Word) : Nat → Int → State → State
  | 0, _, s => s
  | rcx + 1, rdi, s => repStosq w rcx (rdi + 8) (s.write rdi (.word w))

/-- `repe scasq` for a word: whether the last comparison was of equal words -/
def repeScasq (w : Word) : Nat → Int → State → Bool
  | 0, _, _ => true
  | rcx + 1, rdi, s => if s.mem rdi = .word w then repeScasq w rcx (rdi + 8) s else false

/-- `_start`, up to the first instruction of `basic_main`; `returnAddress` is what `call`
pushes. -/
def startCall (returnAddress : Value) (rsp : Int) (s : State) : State :=
  let rsp := rsp - 8 * canaryCount
  let s := repStosq stackCanary canaryCount rsp s
  let s := (((s.set .rdi (.addr (rsp + 8 * canaryCount))).set .rax (.word stackCanary)).set .rcx
    (.word 0))
  let s := registerCanaries.foldl (fun s c => s.set c.1 (.word c.2)) s
  { (s.write (rsp - 8) returnAddress).set .rsp (.addr (rsp - 8)) with pc := 0 }

/-- How the process ends. -/
inductive Outcome
  /-- `exit` with a status, and what is on standard output then -/
  | exited (status : Nat) (output : List UInt8)
  /-- by the signal of a division error -/
  | killed
  /-- control went somewhere else -/
  | lost

/-- `_start` behind the call: the checks, and `exit`. -/
def check (t : State) : Outcome :=
  match t.regs .rsp with
  | .addr rsp =>
    if registerCanaries.all (fun c => t.regs c.1 = .word c.2) ∧
        repeScasq stackCanary canaryCount rsp t then .exited 0 (stdout t.output)
    else .exited 1 (stdout t.output)
  | _ => .lost

/-- The process within so many instructions of `basic_main`; `none` while it runs. -/
def process (code : Code) (E : External) (returnAddress : Value) (rsp : Int) (s : State)
    (fuel : Nat) : Option Outcome :=
  match exec (step code E) fuel (startCall returnAddress rsp s) with
  | .ok _ => none
  | .error (.returned t) =>
    -- `ret` has popped what was below the stack pointer
    match t.regs .rsp with
    | .addr a => if t.mem (a - 8) = returnAddress then some (check t) else some .lost
    | _ => some .lost
  | .error (.divideError _) => some .killed
  | .error (.stuck _) => some .lost

/-! ## The canaries -/

section Canaries

variable {s : State} {w : Word} {n : Nat} {rdi b : Int}

/-- Filling memory prints nothing. -/
@[simp] theorem repStosq_output : (repStosq w n rdi s).output = s.output := by
  induction n generalizing rdi s with
  | zero => rfl
  | succ n ih => exact ih

/-- Words below those that are filled stay. -/
theorem repStosq_below (h : b + 8 ≤ rdi) : (repStosq w n rdi s).mem b = s.mem b := by
  induction n generalizing rdi s with
  | zero => rfl
  | succ n ih =>
      rw [repStosq, ih (by omega)]
      exact State.write_mem_apart (by rw [le_abs]; omega)

/-- The quadwords that have been written. -/
theorem repStosq_mem {k : Nat} (hk : k < n) : (repStosq w n rdi s).mem (rdi + 8 * k) = .word w := by
  induction n generalizing rdi s k with
  | zero => omega
  | succ n ih =>
      rw [repStosq]
      cases k with
      | zero =>
          rw [repStosq_below (by simp)]
          simp
      | succ k =>
          have hat : rdi + 8 * ((k + 1 : Nat) : Int) = rdi + 8 + 8 * k := by
            push_cast
            ring
          rw [hat]
          exact ih (Nat.lt_of_succ_lt_succ hk)

/-- The scan finds all words equal if they are. -/
theorem repeScasq_eq_true (h : ∀ k < n, s.mem (rdi + 8 * (k : Nat)) = .word w) :
    repeScasq w n rdi s = true := by
  induction n generalizing rdi with
  | zero => rfl
  | succ n ih =>
      have hfirst : s.mem rdi = .word w := by simpa using h 0 (Nat.succ_pos n)
      rw [repeScasq, if_pos hfirst]
      refine ih fun k hk => ?_
      have hat : rdi + 8 + 8 * k = rdi + 8 * ((k + 1 : Nat) : Int) := by
        push_cast
        ring
      rw [hat]
      exact h (k + 1) (Nat.succ_lt_succ hk)

end Canaries

/-! ## The process -/

section Process

variable {stmt : Stmt} {code : Code} {E : External} {returnAddress : Value} {vars : VarName → Word}
  {rsp : Int} {s t : State}

/-- A process at `_start`: nothing has been printed, and the slots of the variables, which
are below the canaries, hold some words. -/
structure Loaded (vars : VarName → Word) (rsp : Int) (s : State) : Prop where
  output : s.output = []
  vars : ∀ x, s.mem (rsp - 8 * canaryCount - 16 + offset x.char) = .word (vars x)

/-- The address of the return address. -/
def callSite (rsp : Int) : Int := rsp - 8 * canaryCount - 8

/-- What `basic_main` finds. -/
structure Called (returnAddress : Value) (rsp : Int) (s : State) : Prop where
  pc : s.pc = 0
  stackPointer : s.regs .rsp = .addr (callSite rsp)
  registers : ∀ c ∈ registerCanaries, s.regs c.1 = .word c.2
  stack : ∀ k < canaryCount, s.mem (callSite rsp + 8 + 8 * (k : Nat)) = .word stackCanary
  returnAddress : s.mem (callSite rsp) = returnAddress

/-- Away from the return address memory is as the canaries were written. -/
theorem startCall_mem {b : Int} (h : 8 ≤ |b - callSite rsp|) :
    (startCall returnAddress rsp s).mem b =
      (repStosq stackCanary canaryCount (rsp - 8 * canaryCount) s).mem b :=
  State.write_mem_apart h

/-- What was set up for the call is there. -/
theorem startCall_called : Called returnAddress rsp (startCall returnAddress rsp s) := by
  refine ⟨rfl, rfl, fun c hc => ?_, fun k hk => ?_, State.write_mem_self⟩
  · simp only [registerCanaries, List.mem_cons, List.not_mem_nil, or_false] at hc
    rcases hc with rfl | rfl | rfl | rfl | rfl | rfl <;> rfl
  · have hsite : callSite rsp + 8 = rsp - 8 * canaryCount := by
      rw [callSite, sub_add_cancel]
    rw [startCall_mem (by rw [le_abs]; omega), hsite]
    exact repStosq_mem hk

/-- A process that is loaded enters the program as the calling convention says. -/
theorem Loaded.entry (h : Loaded vars rsp s) :
    Entry vars (callSite rsp) (startCall returnAddress rsp s) := by
  refine ⟨rfl, rfl, fun x => ?_⟩
  have hoffset := x.offset_bounds
  have hslot : callSite rsp - 8 + offset x.char = rsp - 8 * canaryCount - 16 + offset x.char := by
    rw [callSite]
    ring
  rw [startCall_mem (by rw [le_abs]; omega), hslot, repStosq_below (by omega)]
  exact h.vars x

/-- Setting registers prints nothing. -/
theorem foldl_set_output (canaries : List (Reg × Word)) (s : State) :
    (canaries.foldl (fun s c => s.set c.1 (.word c.2)) s).output = s.output := by
  induction canaries generalizing s with
  | nil => rfl
  | cons c canaries ih => exact ih (s.set c.1 (.word c.2))

/-- Nothing is printed in front of the call. -/
theorem Loaded.output_eq (h : Loaded vars rsp s) :
    (startCall returnAddress rsp s).output = [] := by
  unfold startCall
  dsimp only
  rw [State.set_output, State.write_output, foldl_set_output, State.set_output, State.set_output,
    State.set_output, repStosq_output]
  exact h.output

/-- **The checks succeed** where `basic_main` has kept to the calling convention. -/
theorem Called.check_eq (h : Called returnAddress rsp s) (hrsp : t.regs .rsp = .addr (callSite rsp + 8))
    (hregs : ∀ r, r.callerSaved = false → r ≠ .rsp → t.regs r = s.regs r)
    (hmem : ∀ q, callSite rsp ≤ q → t.mem q = s.mem q) :
    check t = .exited 0 (stdout t.output) ∧ t.mem (callSite rsp) = returnAddress := by
  have hregisters : registerCanaries.all (fun c => t.regs c.1 = .word c.2) = true := by
    refine List.all_eq_true.mpr fun c hc => decide_eq_true ?_
    have hsaved : c.1.callerSaved = false ∧ c.1 ≠ .rsp := by
      revert c
      decide
    rw [hregs c.1 hsaved.1 hsaved.2]
    exact h.registers c hc
  have hstack : repeScasq stackCanary canaryCount (callSite rsp + 8) t = true := by
    refine repeScasq_eq_true fun k hk => ?_
    rw [hmem _ (by omega)]
    exact h.stack k hk
  refine ⟨?_, (hmem _ le_rfl).trans h.returnAddress⟩
  rw [check, hrsp]
  exact if_pos ⟨hregisters, hstack⟩

/-- A compiled program that returns leaves to its caller what is the caller's. -/
theorem compile_returns {a : Int} (hcode : compile stmt.toNode = some code) (hpc : s.pc = 0)
    (hrsp : s.regs .rsp = .addr a) (hstops : Stops (step code E) s (.returned t)) :
    t.regs .rsp = .addr (a + 8) ∧
      (∀ r, r.callerSaved = false → r ≠ .rsp → t.regs r = s.regs r) ∧
      ∀ q, a ≤ q → t.mem q = s.mem q := by
  obtain ⟨body, ids, hbody, rfl⟩ := compile_eq hcode
  have hbalanced := compileAst_balanced hbody
  have hentry : InRun body s a s := ⟨.entered hpc hrsp rfl, fun _ _ _ _ => rfl, fun _ _ => rfl⟩
  obtain ⟨n, hn⟩ := hstops
  obtain ⟨m, u, hu, hlast⟩ := exec_error_last hn
  have hrun : InRun body s a u := exec_preserves (fun _ _ => InRun.step hbalanced) hentry hu
  exact hrun.returns hbalanced hlast

/-- A return of `basic_main` is an exit with 0. -/
theorem process_returned {fuel : Nat} (hcode : compile stmt.toNode = some code)
    (h : exec (step code E) fuel (startCall returnAddress rsp s) = .error (.returned t)) :
    process code E returnAddress rsp s fuel = some (.exited 0 (stdout t.output)) := by
  have hcalled : Called returnAddress rsp (startCall returnAddress rsp s) := startCall_called
  obtain ⟨hrsp, hregs, hmem⟩ := compile_returns hcode hcalled.pc hcalled.stackPointer ⟨fuel, h⟩
  obtain ⟨hcheck, haddress⟩ := hcalled.check_eq hrsp hregs hmem
  simp only [process, h, hrsp, add_sub_cancel_right, haddress, if_true, hcheck]

/-- The process does what the interpreter does. -/
structure RunsAs (stmt : Stmt) (vars : VarName → Word) (outcome : Nat → Option Outcome) : Prop where
  /-- it exits with 0 and has printed the numbers, one on a line -/
  exits : ∀ output, (∃ fuel, outcome fuel = some (.exited 0 output)) ↔
    ∃ fuel store, stmt.run fuel ⟨vars, []⟩ = .done store ∧ output = stdout store.output
  /-- it is killed by a division -/
  killed : (∃ fuel, outcome fuel = some .killed) ↔
    ∃ fuel store, stmt.run fuel ⟨vars, []⟩ = .trap store
  /-- it runs for ever -/
  endless : (∀ fuel, outcome fuel = none) ↔
    ∀ fuel, ∃ output, stmt.run fuel ⟨vars, []⟩ = .timeout output
  /-- no check ever fails -/
  checked : ∀ fuel, outcome fuel ≠ some .lost ∧ ∀ output, outcome fuel ≠ some (.exited 1 output)

/-- The process goes on just as long as the machine does. -/
theorem process_none_iff {fuel : Nat} : process code E returnAddress rsp s fuel = none ↔
    ∃ t, exec (step code E) fuel (startCall returnAddress rsp s) = .ok t := by
  unfold process
  cases exec (step code E) fuel (startCall returnAddress rsp s) with
  | ok t => simp
  | error stop =>
      cases stop with
      | returned t =>
          dsimp only
          split
          · split <;> simp
          · simp
      | divideError t | stuck t => simp

/-- The outcome of a stop is that of a verdict of the interpreter. -/
theorem process_of_verdict {fuel : Nat} {stop : Stop} {r : Result}
    (hcode : compile stmt.toNode = some code)
    (h : exec (step code E) fuel (startCall returnAddress rsp s) = .error stop)
    (hends : Ends (callSite rsp - 8) r stop) :
    (∃ store, r = .done store ∧
      process code E returnAddress rsp s fuel = some (.exited 0 (stdout store.output))) ∨
    ∃ store, r = .trap store ∧ process code E returnAddress rsp s fuel = some .killed := by
  cases r with
  | done store =>
      cases stop with
      | returned t =>
          refine .inl ⟨store, rfl, ?_⟩
          rw [process_returned hcode h, Shows.output hends]
      | divideError t | stuck t => exact False.elim hends
  | trap store =>
      cases stop with
      | divideError t => exact .inr ⟨store, rfl, by simp only [process, h]⟩
      | returned t | stuck t => exact False.elim hends
  | timeout output => cases stop <;> exact False.elim hends

/-- A result with a verdict is that verdict. -/
theorem verdict_inl {r r' : Result} (h : r.verdict = .inl r') : r = r' := by
  cases r <;> cases h <;> rfl

/-- `basic_main` follows the interpreter. -/
theorem Loaded.followedBy (hs : Loaded vars rsp s) (hcode : compile stmt.toNode = some code) :
    FollowedBy (step code E) (startCall returnAddress rsp s) (Ends (callSite rsp - 8))
      (fun output t => t.output = output) fun fuel => (stmt.run fuel ⟨vars, []⟩).verdict := by
  have hentry : Entry vars (callSite rsp) (startCall returnAddress rsp s) := hs.entry
  have hfollows := compile_followedBy (E := E) hcode hentry
  rwa [hs.output_eq] at hfollows

/-- Each outcome of the process is one that the interpreter comes to. -/
theorem verdict_of_process {fuel : Nat} {outcome : Outcome} (hcode : compile stmt.toNode = some code)
    (hs : Loaded vars rsp s) (h : process code E returnAddress rsp s fuel = some outcome) :
    (∃ run store, stmt.run run ⟨vars, []⟩ = .done store ∧
      outcome = .exited 0 (stdout store.output)) ∨
    ∃ run store, stmt.run run ⟨vars, []⟩ = .trap store ∧ outcome = .killed := by
  cases hexec : exec (step code E) fuel (startCall returnAddress rsp s) with
  | ok t =>
      rw [process_none_iff.mpr ⟨t, hexec⟩] at h
      cases h
  | error stop =>
      obtain ⟨run, r, hverdict, hends⟩ := (hs.followedBy hcode).verdict_of_stops ⟨fuel, hexec⟩
      have hrun := verdict_inl hverdict
      rcases process_of_verdict hcode hexec hends with ⟨store, rfl, hprocess⟩ | ⟨store, rfl, hprocess⟩
      · exact .inl ⟨run, store, hrun, Option.some.inj (h.symm.trans hprocess)⟩
      · exact .inr ⟨run, store, hrun, Option.some.inj (h.symm.trans hprocess)⟩

/-- **The process follows the interpreter.** -/
theorem process_runsAs (hcode : compile stmt.toNode = some code) (hs : Loaded vars rsp s) :
    RunsAs stmt vars (process code E returnAddress rsp s) := by
  have hfollows : FollowedBy (step code E) (startCall returnAddress rsp s) (Ends (callSite rsp - 8))
      (fun output t => t.output = output) fun fuel => (stmt.run fuel ⟨vars, []⟩).verdict :=
    hs.followedBy hcode
  refine ⟨fun output => ⟨?_, ?_⟩, ⟨?_, ?_⟩, ?_, fun fuel => ⟨?_, fun output => ?_⟩⟩
  · rintro ⟨fuel, hsome⟩
    rcases verdict_of_process hcode hs hsome with ⟨run, store, hrun, heq⟩ | ⟨run, store, -, heq⟩
    · cases heq
      exact ⟨run, store, hrun, rfl⟩
    · cases heq
  · rintro ⟨run, store, hrun, rfl⟩
    obtain ⟨stop, ⟨fuel, hexec⟩, hends⟩ := hfollows.stops_of_verdict (congrArg Result.verdict hrun)
    rcases process_of_verdict hcode hexec hends with ⟨store', heq, hprocess⟩ | ⟨store', heq, -⟩
    · cases heq
      exact ⟨fuel, hprocess⟩
    · cases heq
  · rintro ⟨fuel, hsome⟩
    rcases verdict_of_process hcode hs hsome with ⟨run, store, -, heq⟩ | ⟨run, store, hrun, -⟩
    · cases heq
    · exact ⟨run, store, hrun⟩
  · rintro ⟨run, store, hrun⟩
    obtain ⟨stop, ⟨fuel, hexec⟩, hends⟩ := hfollows.stops_of_verdict (congrArg Result.verdict hrun)
    rcases process_of_verdict hcode hexec hends with ⟨store', heq, -⟩ | ⟨store', -, hprocess⟩
    · cases heq
    · exact ⟨fuel, hprocess⟩
  · rw [forall_congr' fun fuel => process_none_iff, ← hfollows.diverges_iff]
    refine forall_congr' fun fuel => exists_congr fun output => ?_
    cases stmt.run fuel ⟨vars, []⟩ <;> simp [Result.verdict]
  · intro hlost
    rcases verdict_of_process hcode hs hlost with ⟨_, _, -, heq⟩ | ⟨_, _, -, heq⟩ <;> cases heq
  · intro hone
    rcases verdict_of_process hcode hs hone with ⟨_, _, -, heq⟩ | ⟨_, _, -, heq⟩ <;> cases heq

/-- **From the source file to the process.** However a program is written, as long as its
constants can be folded and its labels counted, the compiler succeeds, and what any
assembler makes of the file, linked with the runtime, runs as the program does, whatever
the variables are at first and whatever `printf` leaves behind. -/
theorem executable_runs {text : List UInt8} (hnormal : stmt.Normal) (hrenders : Renders stmt text)
    (hfoldable : stmt.toNode.Foldable) (hfits : (stmt.toNode.ids ⟨0, 0⟩).Fits)
    (hs : Loaded vars rsp s) (returnAddress : Value) (below : X86.State → Int → Value) :
    ∃ file, compilerMain text = some (file, 0) ∧ (∃ code, asm code = file) ∧
      ∀ code, asm code = file →
        RunsAs stmt vars (process code (printInt below) returnAddress rsp s) := by
  have hparse : parse text = some stmt.toNode := (hrenders.programAt hnormal).parses
  obtain ⟨code, hcode⟩ := (compile_isSome_iff (Parser.parse_shaped hparse)).mpr ⟨hfoldable, hfits⟩
  refine ⟨asm code, ?_, ⟨code, rfl⟩, fun code' hasm => ?_⟩
  · rw [compilerMain, hparse]
    simp only [hcode, Option.bind_eq_bind, Option.bind_some]
  · rw [asm_injective hasm]
    exact process_runsAs hcode hs

/-- A process with a 5 in every quadword of its memory. -/
def fives : X86.State := ⟨fun _ => .undef, none, fun _ => .word 5, 0, []⟩

/-- `PRINT (A + 1) * B`, with a 5 in both variables. -/
theorem product_runs :
    ∃ file, compilerMain (bytes "#x\nPRINT ( A + 1 ) * B ".toList) = some (file, 0) ∧
      ∀ code, asm code = file → ∃ fuel,
        process code (printInt fun s => s.mem) .undef 65536 fives fuel =
          some (.exited 0 (stdout [30])) := by
  have hs : Loaded (fun _ => 5) 65536 fives := ⟨rfl, fun _ => rfl⟩
  have hnormal : product.Normal := trivial
  have hfoldable : product.toNode.Foldable :=
    ⟨⟨trivial, trivial, fun h => absurd h (by decide)⟩, trivial, fun h => absurd h (by decide)⟩
  have hfits : (product.toNode.ids ⟨0, 0⟩).Fits := ⟨by decide, by decide⟩
  obtain ⟨file, hfile, -, hruns⟩ := executable_runs hnormal product_renders hfoldable hfits hs
    .undef fun s => s.mem
  refine ⟨file, hfile, fun code hasm => ?_⟩
  exact ((hruns code hasm).exits _).mpr ⟨0, ⟨fun _ => 5, [30]⟩, rfl, rfl⟩

end Process

end Basic
