import CS24.JVM.DepthTyped

/-!
# The integer instructions

The instruction set defines the integer instructions on numbers: a sum, difference,
product or quotient is the number that the mathematical result leaves modulo 2^32,
and only the low five bits of a shift distance count.  `execute` uses the C operators
instead.  These give the same number wherever they are defined, and they are not
defined everywhere.

The text of C also leaves `a << b` undefined for a negative `a` and for a result that
is too large; compilers shift the bits anyway.  Whether the compiler does is a
parameter.
-/

namespace JVM

open System

/-- The distance of a shift. -/
def distance (b : Word) : Nat := b.toNat % 32

/-- What the instruction set says an operation pushes for the operands `a` and `b`. -/
def BinaryOp.specified (a b : Word) : BinaryOp → Word
  | iadd => BitVec.ofInt 32 (a.toInt + b.toInt)
  | isub => BitVec.ofInt 32 (a.toInt - b.toInt)
  | imul => BitVec.ofInt 32 (a.toInt * b.toInt)
  | idiv => BitVec.ofInt 32 (a.toInt.tdiv b.toInt)
  | irem => BitVec.ofInt 32 (a.toInt.tmod b.toInt)
  | ishl => BitVec.ofInt 32 (a.toInt * 2 ^ distance b)
  | ishr => BitVec.ofInt 32 (a.toInt / 2 ^ distance b)
  | iushr => BitVec.ofNat 32 (a.toNat / 2 ^ distance b)
  | iand => a &&& b
  | ior => a ||| b
  | ixor => a ^^^ b

namespace BinaryOp

/-- A quotient or a remainder. -/
def divides (op : BinaryOp) : Prop := op = idiv ∨ op = irem

/-- A shift. -/
def shifts (op : BinaryOp) : Prop := op = ishl ∨ op = ishr ∨ op = iushr

variable {op : BinaryOp} {a b : Word}

/-- The division instructions: `INT_MIN / -1` is the one quotient that C does not have. -/
theorem apply_divides (hop : op.divides) (hb : b ≠ 0) :
    op.apply a b = .ok (op.specified a b) ↔ ¬ (a = BitVec.intMin 32 ∧ b = -1) := by
  have hdiv : a.sdiv b = BitVec.ofInt 32 (a.toInt.tdiv b.toInt) := by
    rw [← BitVec.toInt_inj, BitVec.toInt_sdiv, BitVec.toInt_ofInt]
  have hrem : a.srem b = BitVec.ofInt 32 (a.toInt.tmod b.toInt) := by
    rw [← BitVec.toInt_srem, BitVec.ofInt_toInt]
  rcases hop with rfl | rfl
  · simp only [apply, specified, hb, false_or, hdiv]
    split <;> simp_all
  · simp only [apply, specified, hb, false_or, hrem]
    split <;> simp_all

/-- The shift instructions: C has the distances from 0 to 31. -/
theorem apply_shifts (hop : op.shifts) :
    op.apply a b = .ok (op.specified a b) ↔ b.toNat < 32 := by
  have hleft : BitVec.ofInt 32 (a.toInt * 2 ^ b.toNat) = a <<< b.toNat := by
    have hpow : BitVec.ofInt 32 (2 ^ b.toNat) = BitVec.twoPow 32 b.toNat := by
      rw [← BitVec.toNat_inj, BitVec.toNat_twoPow]
      exact_mod_cast congrArg BitVec.toNat (BitVec.ofInt_natCast 32 (2 ^ b.toNat))
    rw [BitVec.ofInt_mul, BitVec.ofInt_toInt, hpow, BitVec.shiftLeft_eq_mul_twoPow]
  have hright : BitVec.ofInt 32 (a.toInt / 2 ^ b.toNat) = a.sshiftRight b.toNat := by
    rw [BitVec.sshiftRight_eq, Int.shiftRight_eq_div_pow]
    norm_cast
  have hlogical : BitVec.ofNat 32 (a.toNat / 2 ^ b.toNat) = a >>> b.toNat := by
    rw [← Nat.shiftRight_eq_div_pow, ← BitVec.toNat_ushiftRight, BitVec.ofNat_toNat,
      BitVec.setWidth_eq]
  have hsome : ∀ v w : Word, (b.toNat < 32 → v = w) →
      ((if b.toNat < 32 then Except.ok v else Except.error Fault.undefinedOperation) = .ok w ↔
        b.toNat < 32) := by
    intro v w hvw
    split <;> simp_all
  rcases hop with rfl | rfl | rfl
  · exact hsome _ _ fun hb => by rw [specified, distance, Nat.mod_eq_of_lt hb, hleft]
  · exact hsome _ _ fun hb => by rw [specified, distance, Nat.mod_eq_of_lt hb, hright]
  · exact hsome _ _ fun hb => by rw [specified, distance, Nat.mod_eq_of_lt hb, hlogical]

/-- The other operations have a result for all operands. -/
theorem apply_total (hdivides : ¬ op.divides) (hshifts : ¬ op.shifts) :
    op.apply a b = .ok (op.specified a b) := by
  cases op with
  | idiv | irem => simp [divides] at hdivides
  | ishl | ishr | iushr => simp [shifts] at hshifts
  | iadd => rw [apply, specified, BitVec.ofInt_add, BitVec.ofInt_toInt, BitVec.ofInt_toInt]
  | isub =>
      rw [apply, specified, Int.sub_eq_add_neg, BitVec.ofInt_add, BitVec.ofInt_neg,
        BitVec.ofInt_toInt, BitVec.ofInt_toInt, BitVec.sub_eq_add_neg]
  | imul => rw [apply, specified, BitVec.ofInt_mul, BitVec.ofInt_toInt, BitVec.ofInt_toInt]
  | iand | ior | ixor => rfl

/-- Where the C operators agree with the instruction set. -/
theorem apply_eq_specified (hb : op.divides → b ≠ 0) :
    op.apply a b = .ok (op.specified a b) ↔
      (op.divides → ¬ (a = BitVec.intMin 32 ∧ b = -1)) ∧ (op.shifts → b.toNat < 32) := by
  by_cases hdivides : op.divides
  · have hshifts : ¬ op.shifts := by
      rcases hdivides with rfl | rfl <;> simp [shifts]
    rw [apply_divides hdivides (hb hdivides)]
    simp [hdivides, hshifts]
  · by_cases hshifts : op.shifts
    · rw [apply_shifts hshifts]
      simp [hdivides, hshifts]
    · simp [apply_total hdivides hshifts, hdivides, hshifts]

/-- `a << b` has no negative operand and its result is an `int`. -/
def FitsLeft (a b : Word) : Prop := 0 ≤ a.toInt ∧ a.toInt * 2 ^ b.toNat < 2 ^ 31

/-- C defines the operation on `a` and `b`; `wraps` is what the compiler promises
about `<<`. -/
def DefinedInC (wraps : Prop) (a b : Word) (op : BinaryOp) : Prop :=
  (∃ v, op.apply a b = .ok v) ∧ (op = ishl → wraps ∨ FitsLeft a b)

end BinaryOp

/-! ## The instructions in a run -/

section Step

variable {c : ClassFile} {fresh : (n : Nat) → Vector Word n} {s : State} {i : Instruction}
  {v : Word}

/-- The step replaces the operands of the innermost activation by `v`, on top of `rest`,
and goes on behind the instruction. -/
def Pushes (c : ClassFile) (fresh : (n : Nat) → Vector Word n) (s : State) (v : Word)
    (rest : List Word) : Prop :=
  step c fresh s = .ok (.running
    { s with frame := { s.frame with stack := v :: rest, pc := Frame.target s.frame.pc 1 } })

/-- The turn of the loop on an instruction that works on the innermost activation. -/
theorem step_frame (hi : s.frame.method.code.code[s.frame.pc]?.bind decode = some i)
    {x : Except Fault Frame} (hx : execute c fresh s.frame s.heap s.output i =
      x.map fun f => .continue f s.heap s.output) :
    step c fresh s = x.map fun f => .running { s with frame := f } := by
  obtain ⟨b, hb, hdecode⟩ := Option.bind_eq_some_iff.mp hi
  obtain ⟨hpc, -⟩ := List.getElem?_eq_some_iff.mp hb
  have hbyte : s.frame.byte 0 = .ok b := by rw [Frame.byte, Nat.add_zero, hb]
  simp only [step, hpc, if_true, hbyte, bind, Except.bind, hdecode, hx]
  cases x <;> rfl

/-- The instruction on two operands: the one on top is the right one. -/
theorem step_binary {op : BinaryOp} {a b : Word} {rest : List Word}
    (hi : s.frame.method.code.code[s.frame.pc]?.bind decode = some (.binary op))
    (hfits : s.frame.stack.length ≤ s.frame.method.code.maxStack)
    (hstack : s.frame.stack = b :: a :: rest) :
    Pushes c fresh s v rest ↔ op.apply a b = .ok v := by
  have hroom : rest.length < s.frame.method.code.maxStack := by
    rw [hstack, List.length_cons, List.length_cons] at hfits
    omega
  have hexecute : execute c fresh s.frame s.heap s.output (.binary op) =
      ((op.apply a b).map fun v =>
        { s.frame with stack := v :: rest, pc := Frame.target s.frame.pc 1 }).map
        fun f => .continue f s.heap s.output := by
    simp only [execute, Frame.pop, hstack, bind, Except.bind]
    cases op.apply a b with
    | error e => rfl
    | ok v => simp only [Frame.push, if_pos hroom, Except.map, Frame.jump]
  rw [Pushes, step_frame hi hexecute]
  cases op.apply a b with
  | error e => simp [Except.map]
  | ok w => simp [Except.map]

/-- The instruction on one operand. -/
theorem step_ineg {a : Word} {rest : List Word}
    (hi : s.frame.method.code.code[s.frame.pc]?.bind decode = some .ineg)
    (hfits : s.frame.stack.length ≤ s.frame.method.code.maxStack)
    (hstack : s.frame.stack = a :: rest) :
    Pushes c fresh s (BitVec.ofInt 32 (-a.toInt)) rest := by
  have hroom : rest.length < s.frame.method.code.maxStack := by
    rw [hstack, List.length_cons] at hfits
    omega
  refine step_frame (x := .ok _) hi ?_
  simp only [execute, Frame.pop, hstack, bind, Except.bind, Frame.push, if_pos hroom, Except.map,
    Frame.jump, BitVec.ofInt_neg, BitVec.ofInt_toInt]

/-- The instruction on a local and a constant in the code. -/
theorem step_iinc {k b : UInt8}
    (hi : s.frame.method.code.code[s.frame.pc]?.bind decode = some .iinc)
    (hk : s.frame.method.code.code[s.frame.pc + 1]? = some k)
    (hb : s.frame.method.code.code[s.frame.pc + 2]? = some b)
    (hlocal : k.toNat < s.frame.method.code.maxLocals) :
    step c fresh s = .ok (.running { s with frame := { s.frame with
      locals := s.frame.locals.set k.toNat
        (BitVec.ofInt 32 (s.frame.locals[k.toNat].toInt + b.toBitVec.toInt)),
      pc := Frame.target s.frame.pc 3 } }) := by
  have hload : s.frame.load k.toNat = .ok s.frame.locals[k.toNat] := by
    rw [Frame.load, Vector.getElem?_eq_getElem hlocal]
  have hsum : BitVec.ofInt 32 (s.frame.locals[k.toNat].toInt + b.toBitVec.toInt) =
      s.frame.locals[k.toNat] + b.toBitVec.signExtend 32 := by
    rw [BitVec.ofInt_add, BitVec.ofInt_toInt]
    rfl
  refine step_frame (x := .ok _) hi ?_
  have hk : s.frame.byte 1 = .ok k := by rw [Frame.byte, hk]
  have hb : s.frame.byte 2 = .ok b := by rw [Frame.byte, hb]
  simp only [execute, hk, hb, hload, bind, Except.bind, Frame.store, dif_pos hlocal, hsum,
    Except.map, Frame.jump]

/-- **The integer instructions.** The step on an operation with its two operands on the
stack has a C operation that is defined, and pushes what the instruction set says on
the rest of the stack, if and only if it is not `INT_MIN / -1` or `INT_MIN % -1`, a shift
distance is between 0 and 31, and, without a compiler that shifts all bits, a left shift
has no negative operand and a result that fits.  `ineg` and `iinc` always do what the
instruction set says. -/
theorem integer_instructions (wraps : Prop)
    (hi : s.frame.method.code.code[s.frame.pc]?.bind decode = some i)
    (hfits : s.frame.stack.length ≤ s.frame.method.code.maxStack) :
    (∀ op a b rest, i = .binary op → s.frame.stack = b :: a :: rest → (op.divides → b ≠ 0) →
      (op.DefinedInC wraps a b ∧ Pushes c fresh s (op.specified a b) rest ↔
        (op.divides → ¬ (a = BitVec.intMin 32 ∧ b = -1)) ∧ (op.shifts → b.toNat < 32) ∧
          (op = .ishl → wraps ∨ BinaryOp.FitsLeft a b))) ∧
    (∀ a rest, i = .ineg → s.frame.stack = a :: rest →
      Pushes c fresh s (BitVec.ofInt 32 (-a.toInt)) rest) ∧
    ∀ k b, i = .iinc → s.frame.method.code.code[s.frame.pc + 1]? = some k →
      s.frame.method.code.code[s.frame.pc + 2]? = some b →
      ∀ _ : k.toNat < s.frame.method.code.maxLocals,
      step c fresh s = .ok (.running { s with frame := { s.frame with
        locals := s.frame.locals.set k.toNat
          (BitVec.ofInt 32 (s.frame.locals[k.toNat].toInt + b.toBitVec.toInt)),
        pc := Frame.target s.frame.pc 3 } }) := by
  refine ⟨?_, ?_, ?_⟩
  · rintro op a b rest rfl hstack hb
    rw [step_binary hi hfits hstack, BinaryOp.DefinedInC]
    constructor
    · rintro ⟨⟨-, hwraps⟩, hpush⟩
      obtain ⟨hdivides, hshifts⟩ := (BinaryOp.apply_eq_specified hb).mp hpush
      exact ⟨hdivides, hshifts, hwraps⟩
    · rintro ⟨hdivides, hshifts, hwraps⟩
      have hpush := (BinaryOp.apply_eq_specified hb).mpr ⟨hdivides, hshifts⟩
      exact ⟨⟨⟨_, hpush⟩, hwraps⟩, hpush⟩
  · rintro a rest rfl hstack
    exact step_ineg hi hfits hstack
  · rintro k b rfl hk hb hlocal
    exact step_iinc hi hk hb hlocal

end Step

/-- `iconst_1; bipush d; ishl; iconst_m1; idiv; ireturn` -/
def shiftAndDivide (d : UInt8) : Method :=
  ⟨[109], [40, 41, 73], ⟨2, 0, [0x04, 0x10, d, 0x78, 0x02, 0x6c, 0xac]⟩⟩

/-- A quotient of numbers with different signs. -/
theorem integer_instructions_idiv : BinaryOp.idiv.DefinedInC False (-7) 2 ∧
    Pushes ⟨[], []⟩ (fun n => Vector.replicate n 0)
      ⟨⟨⟨[], [], ⟨2, 0, [0x6c]⟩⟩, #v[], [2, -7], 0⟩, [], [], []⟩
      (BinaryOp.idiv.specified (-7) 2) [] := by
  refine Iff.mpr ((integer_instructions (i := .binary .idiv) False ?_ ?_).1 .idiv (-7) 2 [] rfl
    ?_ ?_) ⟨?_, ?_, ?_⟩
  · rfl
  · decide
  · rfl
  · intro _
    decide
  · intro _
    decide
  · rintro (h | h | h) <;> cases h
  · intro h
    cases h

/-- `INT_MIN / -1` and a shift by 32, both after instructions of the same method. -/
theorem shiftAndDivide_undefined :
    (∃ s, Reachable ⟨[], [shiftAndDivide 31]⟩ s ∧ s.frame.stack = [-1, BitVec.intMin 32] ∧
      s.frame.method.code.code[s.frame.pc]?.bind decode = some (.binary .idiv) ∧
      BinaryOp.idiv.specified (BitVec.intMin 32) (-1) = BitVec.intMin 32 ∧
      ∀ fresh, step ⟨[], [shiftAndDivide 31]⟩ fresh s = .error .undefinedOperation) ∧
    ∃ s, Reachable ⟨[], [shiftAndDivide 32]⟩ s ∧ s.frame.stack = [32, 1] ∧
      s.frame.method.code.code[s.frame.pc]?.bind decode = some (.binary .ishl) ∧
      BinaryOp.ishl.specified 1 32 = 1 ∧
      ∀ fresh, step ⟨[], [shiftAndDivide 32]⟩ fresh s = .error .undefinedOperation := by
  have hstart : ∀ d, Reachable ⟨[], [shiftAndDivide d]⟩
      ⟨⟨shiftAndDivide d, #v[], [], 0⟩, [], [], []⟩ :=
    fun d => .init ⟨List.mem_singleton.mpr rfl, rfl, rfl, rfl⟩
  have hshift : ∀ d, Reachable ⟨[], [shiftAndDivide d]⟩
      ⟨⟨shiftAndDivide d, #v[], [d.toBitVec.signExtend 32, 1], 3⟩, [], [], []⟩ := by
    intro d
    have hone : Reachable ⟨[], [shiftAndDivide d]⟩
        ⟨⟨shiftAndDivide d, #v[], [1], 1⟩, [], [], []⟩ :=
      (hstart d).step ⟨fun n => Vector.replicate n 0, rfl⟩
    exact hone.step ⟨fun n => Vector.replicate n 0, rfl⟩
  refine ⟨⟨⟨⟨shiftAndDivide 31, #v[], [-1, BitVec.intMin 32], 5⟩, [], [], []⟩, ?_, rfl, rfl,
    by decide, ?_⟩, ⟨⟨shiftAndDivide 32, #v[], [32, 1], 3⟩, [], [], []⟩, hshift 32, rfl, rfl,
    by decide, ?_⟩
  · have hmin : Reachable ⟨[], [shiftAndDivide 31]⟩
        ⟨⟨shiftAndDivide 31, #v[], [BitVec.intMin 32], 4⟩, [], [], []⟩ :=
      (hshift 31).step ⟨fun n => Vector.replicate n 0, rfl⟩
    exact hmin.step ⟨fun n => Vector.replicate n 0, rfl⟩
  · intro fresh
    rfl
  · intro fresh
    rfl

end JVM
