import CS24.Lib.Machine

/-!
# A subset of x86-64

Registers and memory hold 64-bit words or stack addresses.  A stack address is an
integer, so the stack never runs out; everything else is exact.  Memory is read
and written in units of eight bytes: a write at an address makes the units that
it overlaps unreadable as words.  An instruction on a value of the wrong kind is
stuck, as is a conditional jump when the flags are not known.

An external call prints the word in `rdi` and may leave anything in the
caller-saved registers and below the stack pointer; what it leaves there is a
parameter of the machine.
-/

namespace X86

abbrev Word := BitVec 64

inductive Reg
  | rax | rcx | rdx | rbx | rsp | rbp | rsi | rdi
  | r8 | r9 | r10 | r11 | r12 | r13 | r14 | r15
  deriving DecidableEq, Repr

/-- The registers that a called function need not preserve. -/
def Reg.callerSaved : Reg → Bool
  | rax | rcx | rdx | rsi | rdi | r8 | r9 | r10 | r11 => true
  | _ => false

/-- The contents of a register or of eight bytes of memory. -/
inductive Value
  | word (w : Word)
  | addr (a : Int)
  | undef
  deriving DecidableEq, Repr

/-- The conditions of the conditional jumps. -/
inductive Cond
  | e | ne | l | ge | g | le
  deriving DecidableEq, Repr

/-- The flags that the conditions read. -/
structure Flags where
  zf : Bool
  sf : Bool
  of : Bool
  deriving DecidableEq, Repr

/-- The flags of the subtraction `a - b`. -/
def Flags.sub (a b : Word) : Flags where
  zf := a - b = 0
  sf := (a - b).msb
  of := (a - b).toInt ≠ a.toInt - b.toInt

def Cond.holds (f : Flags) : Cond → Bool
  | e => f.zf
  | ne => !f.zf
  | l => f.sf != f.of
  | ge => f.sf == f.of
  | g => !f.zf && f.sf == f.of
  | le => f.zf || f.sf != f.of

/-- Instructions in the order of operands of the AT&T syntax, source first, with
labels from `L`. -/
inductive Instr (L : Type*)
  /-- `movq $imm, %dst` -/
  | movImm (imm : Word) (dst : Reg)
  /-- `movq %src, %dst` -/
  | mov (src dst : Reg)
  /-- `movq offset(%base), %dst` -/
  | load (offset : Int) (base dst : Reg)
  /-- `movq %src, offset(%base)` -/
  | store (src : Reg) (offset : Int) (base : Reg)
  | push (src : Reg)
  | pop (dst : Reg)
  /-- `addq $imm, %dst` of a stack address -/
  | addImm (imm : Int) (dst : Reg)
  /-- `subq $imm, %dst` of a stack address -/
  | subImm (imm : Int) (dst : Reg)
  | add (src dst : Reg)
  | sub (src dst : Reg)
  | imul (src dst : Reg)
  | shl (count : Nat) (dst : Reg)
  | cqto
  | idiv (src : Reg)
  | cmp (src dst : Reg)
  | jcc (cond : Cond) (target : L)
  | jmp (target : L)
  | label (l : L)
  /-- the external call -/
  | call
  | ret
  deriving DecidableEq, Repr

/-- A state of the machine; `flags` is `none` where it is not tracked. -/
structure State where
  regs : Reg → Value
  flags : Option Flags
  mem : Int → Value
  pc : Nat
  output : List Word

/-- The end of a run. -/
inductive Stop
  /-- control went back to the caller -/
  | returned (s : State)
  /-- `#DE` -/
  | divideError (s : State)
  | stuck (s : State)

/-- The state at the end. -/
def Stop.state : Stop → State
  | returned s | divideError s | stuck s => s

/-- What an external call leaves in registers and memory. -/
abbrev External := State → (Reg → Value) × (Int → Value)

namespace State

variable (s : State)

/-- A register with a word in it. -/
def word (r : Reg) : Except Stop Word :=
  match s.regs r with
  | .word w => .ok w
  | _ => .error (.stuck s)

/-- A register with an address in it. -/
def addr (r : Reg) : Except Stop Int :=
  match s.regs r with
  | .addr a => .ok a
  | _ => .error (.stuck s)

def set (r : Reg) (v : Value) : State :=
  { s with regs := fun r' => if r' = r then v else s.regs r' }

/-- A write of eight bytes. -/
def write (a : Int) (v : Value) : State :=
  { s with mem := fun b => if b = a then v else if |b - a| < 8 then .undef else s.mem b }

/-- An instruction that changes the flags. -/
def arith (r : Reg) (w : Word) : State := { s.set r (.word w) with flags := none }

def next : State := { s with pc := s.pc + 1 }

end State

variable {L : Type*} [DecidableEq L]

/-- The position of a label. -/
def resolve (prog : List (Instr L)) (l : L) : Option Nat :=
  prog.findIdx? fun i => match i with
    | .label l' => l' = l
    | _ => false

/-- A jump. -/
def jump (prog : List (Instr L)) (l : L) (s : State) : Except Stop State :=
  match resolve prog l with
  | some pc => .ok { s with pc }
  | none => .error (.stuck s)

/-- The quotient and the remainder of `rdx:rax` by a word, where there are any: `cqto`
in front makes `rdx:rax` the sign-extended `rax`. -/
def divide (a d b : Word) : Option (Word × Word) :=
  let n := (d ++ a).toInt
  let q := n.tdiv b.toInt
  if b = 0 ∨ q < -2 ^ 63 ∨ 2 ^ 63 ≤ q then none
  else some (BitVec.ofInt 64 q, BitVec.ofInt 64 (n.tmod b.toInt))

/-- One instruction. -/
def Instr.run (prog : List (Instr L)) (E : External) (s : State) : Instr L → Except Stop State
  | movImm imm dst => .ok (s.set dst (.word imm)).next
  | mov src dst => .ok (s.set dst (s.regs src)).next
  | load offset base dst => do
    let a ← s.addr base
    .ok (s.set dst (s.mem (a + offset))).next
  | store src offset base => do
    let a ← s.addr base
    .ok (s.write (a + offset) (s.regs src)).next
  | push src => do
    let a ← s.addr .rsp
    .ok ((s.write (a - 8) (s.regs src)).set .rsp (.addr (a - 8))).next
  | pop dst => do
    let a ← s.addr .rsp
    .ok ((s.set .rsp (.addr (a + 8))).set dst (s.mem a)).next
  | addImm imm dst => do
    let a ← s.addr dst
    .ok { s.set dst (.addr (a + imm)) with flags := none, pc := s.pc + 1 }
  | subImm imm dst => do
    let a ← s.addr dst
    .ok { s.set dst (.addr (a - imm)) with flags := none, pc := s.pc + 1 }
  | add src dst => do
    let b ← s.word src
    let a ← s.word dst
    .ok (s.arith dst (a + b)).next
  | sub src dst => do
    let b ← s.word src
    let a ← s.word dst
    .ok (s.arith dst (a - b)).next
  | imul src dst => do
    let b ← s.word src
    let a ← s.word dst
    .ok (s.arith dst (a * b)).next
  | shl count dst => do
    let a ← s.word dst
    .ok (s.arith dst (a <<< (count % 64))).next
  | cqto => do
    let a ← s.word .rax
    .ok (s.set .rdx (.word (if a.msb then -1 else 0))).next
  | idiv src => do
    let b ← s.word src
    let a ← s.word .rax
    let d ← s.word .rdx
    match divide a d b with
    | some (q, r) => .ok ((s.arith .rax q).set .rdx (.word r)).next
    | none => .error (.divideError s)
  | cmp src dst => do
    let b ← s.word src
    let a ← s.word dst
    .ok { s with flags := some (Flags.sub a b), pc := s.pc + 1 }
  | jcc cond target =>
    match s.flags with
    | some f => if cond.holds f then jump prog target s else .ok s.next
    | none => .error (.stuck s)
  | jmp target => jump prog target s
  | label _ => .ok s.next
  | call => do
    let w ← s.word .rdi
    let a ← s.addr .rsp
    let (regs, mem) := E s
    .ok { regs := fun r => if r.callerSaved then regs r else s.regs r
          flags := none
          mem := fun b => if b < a then mem b else s.mem b
          pc := s.pc + 1
          output := s.output ++ [w] }
  | ret => do
    let a ← s.addr .rsp
    .error (.returned (s.set .rsp (.addr (a + 8))))

/-- One step of a program. -/
def step (prog : List (Instr L)) (E : External) (s : State) : Except Stop State :=
  match prog[s.pc]? with
  | some i => i.run prog E s
  | none => .error (.stuck s)

end X86
