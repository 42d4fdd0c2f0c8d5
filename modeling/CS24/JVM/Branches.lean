import CS24.JVM.Execute

/-!
# Where a branch goes

A branch instruction has its displacement in the two bytes behind the opcode, the
high byte first, as a signed 16-bit number.  `execute` reads both bytes as
`int8_t`, so a low byte of 128 or more is extended over the high byte before the
two are put together.  What comes out is the encoded displacement exactly when
the low byte is smaller or the high byte is all ones anyway.
-/

namespace JVM

/-- The displacement that the two bytes encode: a signed 16-bit number, the high
byte first. -/
def encodedDisplacement (b1 b2 : UInt8) : Int := (b1.toBitVec ++ b2.toBitVec).toInt

/-- Whether a branch instruction jumps on an operand stack; `none` for the other
instructions and for a stack without the operands. -/
def Instruction.jumps : Instruction → List Word → Option Bool
  | .ifCond cond, a :: _ => some (cond.holds a 0)
  | .ifIcmp cond, b :: a :: _ => some (cond.holds a b)
  | .goto, _ => some true
  | _, _ => none

/-! ## The two bytes -/

section Bytes

variable {x y : BitVec 8} {b1 b2 : UInt8} {pc : Nat} {d e : Int}

/-- The extension of a low byte with its top bit set hides the high byte. -/
theorem extend_of_msb (hy : y.msb = true) :
    x.signExtend 32 <<< 8 ||| y.signExtend 32 = y.signExtend 32 := by
  apply BitVec.eq_of_getElem_eq
  intro i hi
  by_cases hlow : i < 8
  · simp [hlow]
  · simp [BitVec.getElem_signExtend, hlow, hy]

/-- Without that bit the two bytes end up next to each other. -/
theorem extend_of_not_msb (hy : y.msb = false) :
    x.signExtend 32 <<< 8 ||| y.signExtend 32 = (x ++ y).signExtend 32 := by
  apply BitVec.eq_of_getElem_eq
  intro i hi
  simp only [BitVec.getElem_or, BitVec.getElem_shiftLeft, BitVec.getElem_signExtend,
    BitVec.getElem_append, BitVec.msb_append, hy]
  grind

theorem toNat_pair : (x ++ y).toNat = x.toNat * 256 + y.toNat := by
  rw [BitVec.toNat_append, ← Nat.shiftLeft_add_eq_or_of_lt y.isLt, Nat.shiftLeft_eq]

/-- A low byte that stands for a negative number is the encoded displacement only
under a high byte of all ones. -/
theorem toInt_low_eq_pair (hy : y.msb = true) : y.toInt = (x ++ y).toInt ↔ x.toNat = 255 := by
  have hlow := (BitVec.msb_eq_true_iff_two_mul_ge).mp hy
  have hx := x.isLt
  have hpair := toNat_pair (x := x) (y := y)
  rw [BitVec.toInt_eq_toNat_cond, BitVec.toInt_eq_toNat_cond, hpair]
  grind

/-- **The displacement.** `(b1 << 8) | b2` is the encoded displacement if and only if
the low byte is below 128 or the high byte is 255. -/
theorem displacement_eq_encoded :
    displacement b1 b2 = encodedDisplacement b1 b2 ↔ b2 < 128 ∨ b1 = 255 := by
  have hb2 : b2 < 128 ↔ b2.toBitVec.msb = false := by
    rw [BitVec.msb_eq_false_iff_two_mul_lt, UInt8.lt_iff_toNat_lt]
    change b2.toNat < 128 ↔ 2 * b2.toNat < 256
    omega
  have hb1 : b1 = 255 ↔ b1.toBitVec.toNat = 255 := by
    rw [← UInt8.toNat_inj]
    rfl
  unfold displacement encodedDisplacement
  cases hmsb : b2.toBitVec.msb with
  | false =>
      rw [extend_of_not_msb hmsb, BitVec.toInt_signExtend_of_le (by decide)]
      simp [hb2, hmsb]
  | true =>
      rw [extend_of_msb hmsb, BitVec.toInt_signExtend_of_le (by decide), toInt_low_eq_pair hmsb,
        hb2, hmsb, hb1]
      simp

/-- Two displacements of fewer than 2^32 bytes lead to one place only if they are
equal. -/
theorem target_inj (hd : -2 ^ 31 ≤ d ∧ d < 2 ^ 31) (he : -2 ^ 31 ≤ e ∧ e < 2 ^ 31) :
    Frame.target pc d = Frame.target pc e ↔ d = e := by
  unfold Frame.target
  omega

theorem displacement_bounds : -2 ^ 31 ≤ displacement b1 b2 ∧ displacement b1 b2 < 2 ^ 31 :=
  ⟨BitVec.le_toInt _, BitVec.toInt_lt⟩

theorem encodedDisplacement_bounds :
    -2 ^ 31 ≤ encodedDisplacement b1 b2 ∧ encodedDisplacement b1 b2 < 2 ^ 31 := by
  have hlo : -2 ^ 15 ≤ encodedDisplacement b1 b2 := BitVec.le_toInt _
  have hhi : encodedDisplacement b1 b2 < 2 ^ 15 := BitVec.toInt_lt
  omega

end Bytes

/-! ## A branch in a run -/

section Step

variable {c : ClassFile} {fresh : (n : Nat) → Vector Word n} {s : State} {f : Frame}
  {heap : Heap} {output : List Word} {b b1 b2 : UInt8} {i : Instruction} {taken : Bool}

/-- The bytes of the code around `pc`. -/
theorem Frame.byte_eq {k : Nat} (h : f.method.code.code[f.pc + k]? = some b) :
    f.byte k = .ok b := by
  rw [Frame.byte, h]

/-- What a branch instruction does besides moving `pc` is to pop its operands. -/
theorem execute_branch (h1 : f.byte 1 = .ok b1) (h2 : f.byte 2 = .ok b2)
    (htaken : i.jumps f.stack = some taken) :
    ∃ stack, execute c fresh f heap output i =
      .ok (.continue (branch { f with stack := stack } taken b1 b2) heap output) := by
  obtain ⟨method, locals, stack, pc⟩ := f
  cases i with
  | ifCond cond =>
      obtain - | ⟨a, rest⟩ := stack
      · cases htaken
      · refine ⟨rest, ?_⟩
        rw [← Option.some.inj htaken]
        simp only [execute, h1, h2]
        rfl
  | ifIcmp cond =>
      obtain - | ⟨b, - | ⟨a, rest⟩⟩ := stack
      · cases htaken
      · cases htaken
      · refine ⟨rest, ?_⟩
        rw [← Option.some.inj htaken]
        simp only [execute, h1, h2]
        rfl
  | goto =>
      refine ⟨stack, ?_⟩
      rw [← Option.some.inj htaken]
      simp only [execute, h1, h2]
      rfl
  | _ => cases htaken

/-- The turn of the loop on a branch instruction. -/
theorem step_branch (hop : s.frame.method.code.code[s.frame.pc]? = some b)
    (hi : decode b = some i) (h1 : s.frame.method.code.code[s.frame.pc + 1]? = some b1)
    (h2 : s.frame.method.code.code[s.frame.pc + 2]? = some b2)
    (htaken : i.jumps s.frame.stack = some taken) :
    ∃ stack, step c fresh s = .ok (.running
      ⟨branch { s.frame with stack := stack } taken b1 b2, s.callers, s.heap, s.output⟩) := by
  obtain ⟨hpc, -⟩ := List.getElem?_eq_some_iff.mp hop
  have hbyte : s.frame.byte 0 = .ok b := Frame.byte_eq hop
  obtain ⟨stack, heff⟩ : ∃ stack, execute c fresh s.frame s.heap s.output i = _ :=
    execute_branch (Frame.byte_eq h1) (Frame.byte_eq h2) htaken
  refine ⟨stack, ?_⟩
  simp only [step, hpc, if_true, hbyte, bind, Except.bind, hi, heff]

/-- Where a branch at `pc` leads by the definition of the instruction set: to `pc`
plus the encoded displacement if it is taken, and to the next instruction if not. -/
def specifiedPc (pc : Nat) (taken : Bool) (b1 b2 : UInt8) : Nat :=
  Frame.target pc (if taken then encodedDisplacement b1 b2 else 3)

theorem branch_pc {stack : List Word} : (branch { f with stack := stack } taken b1 b2).pc =
    Frame.target f.pc (if taken then displacement b1 b2 else 3) := by
  cases taken <;> rfl

/-- **Branches.** A branch instruction, with its operands on the stack, leads to the
place that the instruction set says if and only if it is not taken, its low byte is
below 128, or its high byte is 255. -/
theorem branch_reaches_specified (hop : s.frame.method.code.code[s.frame.pc]? = some b)
    (hi : decode b = some i) (h1 : s.frame.method.code.code[s.frame.pc + 1]? = some b1)
    (h2 : s.frame.method.code.code[s.frame.pc + 2]? = some b2)
    (htaken : i.jumps s.frame.stack = some taken) :
    (∃ t, step c fresh s = .ok (.running t) ∧ t.frame.pc = specifiedPc s.frame.pc taken b1 b2) ↔
      (taken = true → b2 < 128 ∨ b1 = 255) := by
  obtain ⟨stack, hstep⟩ : ∃ stack, step c fresh s = _ := step_branch hop hi h1 h2 htaken
  have hpc : (∃ t, step c fresh s = .ok (.running t) ∧
      t.frame.pc = specifiedPc s.frame.pc taken b1 b2) ↔
      Frame.target s.frame.pc (if taken then displacement b1 b2 else 3) =
        specifiedPc s.frame.pc taken b1 b2 := by
    simp only [hstep, Except.ok.injEq, Outcome.running.injEq, exists_eq_left', branch_pc]
  rw [hpc]
  cases taken with
  | false => simp [specifiedPc]
  | true =>
      simp only [specifiedPc, if_true, forall_const]
      rw [target_inj displacement_bounds encodedDisplacement_bounds, displacement_eq_encoded]

end Step

/-- `goto` over 128 bytes: `nop`s in between and `return` at the end. -/
def gotoForward : Method :=
  ⟨[109], [40, 41, 86], ⟨0, 0, [0xa7, 0x00, 0x80] ++ List.replicate 125 0x00 ++ [0xb1]⟩⟩

/-- The jump over 128 bytes goes 128 bytes back instead, in front of the code. -/
theorem gotoForward_goes_back :
    specifiedPc 0 true 0x00 0x80 = 128 ∧ ∀ fresh, ∃ t, step ⟨[], [gotoForward]⟩ fresh
      ⟨⟨gotoForward, #v[], [], 0⟩, [], [], []⟩ = .ok (.running t) ∧ t.frame.pc = 2 ^ 64 - 128 := by
  refine ⟨by decide, ?_⟩
  intro fresh
  obtain ⟨stack, hstep⟩ : ∃ stack, step ⟨[], [gotoForward]⟩ fresh
      ⟨⟨gotoForward, #v[], [], 0⟩, [], [], []⟩ = .ok (.running
        ⟨branch ⟨gotoForward, #v[], stack, 0⟩ true 0x00 0x80, [], [], []⟩) :=
    step_branch rfl rfl rfl rfl rfl
  refine ⟨_, hstep, ?_⟩
  change Frame.target 0 (displacement 0x00 0x80) = 2 ^ 64 - 128
  decide

/-- A jump over 5 bytes arrives. -/
theorem gotoShort_reaches :
    (∃ t, step ⟨[], []⟩ (fun n => Vector.replicate n 0)
      ⟨⟨⟨[109], [40, 41, 86], ⟨0, 0, [0xa7, 0x00, 0x05]⟩⟩, #v[], [], 0⟩, [], [], []⟩ =
        .ok (.running t) ∧ t.frame.pc = specifiedPc 0 true 0x00 0x05) ↔
      (true = true → (0x05 : UInt8) < 128 ∨ (0x00 : UInt8) = 255) :=
  branch_reaches_specified rfl rfl rfl rfl rfl

end JVM
