import CS24.Basic.CompileLabels
import CS24.Basic.Semantics

/-!
# Compiled expressions

The code of an expression leaves its value in `rdi`, or a division in it traps where
the expression has no value.  The operand on the right is computed first and waits
on the stack; folded constants and shifts for powers of two give the same words.
-/

namespace Basic

open Machine X86

/-! ## Folding and shifting -/

/-- What is folded is the value in every store. -/
theorem fold_sound (e : Expr) {v : Word} (h : fold e.toNode = some ⟨true, v⟩)
    (vars : VarName → Word) : e.eval vars = some v := by
  induction e generalizing v with
  | num value =>
      cases h
      rfl
  | var x => cases h
  | binary op left right ihl ihr =>
      obtain ⟨⟨lc, l⟩, hl, h⟩ := bind_eq_some h
      obtain ⟨⟨rc, r⟩, hr, h⟩ := bind_eq_some h
      cases lc <;> cases rc <;> simp only [Bool.false_eq_true, and_false, false_and, if_false,
        and_self, if_true, Option.some.injEq, Return.mk.injEq] at h
      rw [Expr.eval, ihl hl, ihr hr]
      cases op with
      | add => simpa [ArithOp.char, ArithOp.apply] using h
      | sub => simpa [ArithOp.char, ArithOp.apply] using h
      | mul => simpa [ArithOp.char, ArithOp.apply] using h
      | div =>
          obtain ⟨q, hq, h⟩ := bind_eq_some h
          cases h
          exact hq

/-- The second bit that is set ends the loop with 0. -/
theorem powerLoop_one (num power i : Nat) :
    powerLoop num 1 power i = if num = 0 then power else 0 := by
  induction num using Nat.strong_induction_on generalizing i with
  | _ num ih =>
      unfold powerLoop
      split
      · rfl
      · by_cases hodd : num % 2 = 1
        · simp [hodd]
        · have hlt : num / 2 < num := by omega
          simp only [hodd, if_false, ih (num / 2) hlt]
          rw [if_neg (by omega), if_neg (by omega)]

/-- The loop finds the exponent of a power of two. -/
theorem powerLoop_zero {num i : Nat} (h : powerLoop num 0 0 i ≠ 0) :
    num * 2 ^ i = 2 ^ powerLoop num 0 0 i := by
  induction num using Nat.strong_induction_on generalizing i with
  | _ num ih =>
      unfold powerLoop at h ⊢
      split at h
      · exact absurd rfl h
      · rename_i hnum
        rw [if_neg hnum]
        by_cases hodd : num % 2 = 1
        · simp only [hodd, if_true, Nat.zero_add, gt_iff_lt, lt_irrefl, if_false,
            powerLoop_one] at h ⊢
          have hone : num / 2 = 0 := by
            by_contra hne
            exact h (if_neg hne)
          have hnum : num = 1 := by omega
          rw [if_pos hone, hnum, one_mul]
        · simp only [hodd, if_false] at h ⊢
          have hlt : num / 2 < num := by omega
          rw [if_neg (by omega)] at h ⊢
          rw [← ih (num / 2) hlt h, pow_succ]
          have heven : num = num / 2 * 2 := by omega
          conv_lhs => rw [heven]
          ring

/-- A shift by the exponent is the product with the power of two. -/
theorem shl_isPowerOfTwo {num : Word} (h : isPowerOfTwo num ≠ 0) (a : Word) :
    a <<< (isPowerOfTwo num % 64) = a * num := by
  have hpos : 0 < num.toInt := by
    by_contra hneg
    simp [isPowerOfTwo, hneg] at h
  rw [isPowerOfTwo, if_pos hpos] at h ⊢
  have hpow := powerLoop_zero h
  rw [pow_zero, mul_one] at hpow
  have hlt : powerLoop num.toNat 0 0 0 < 64 := by
    have := num.isLt
    rw [hpow] at this
    exact (Nat.pow_lt_pow_iff_right (by omega)).mp this
  rw [Nat.mod_eq_of_lt hlt]
  apply BitVec.eq_of_toNat_eq
  rw [BitVec.toNat_shiftLeft, Nat.shiftLeft_eq, BitVec.toNat_mul, ← hpow]

/-- The slot of a variable, counted in words. -/
theorem offset_char (x : VarName) : offset x.char = -8 * ((x : Int) + 1) := by
  revert x
  decide

/-! ## Code that computes a value -/

section Code

variable {prog : Code} {E : External} {vars : VarName → Word} {a b : Int} {s t : State}

/-- The stack frame: `rbp` is `b`, `rsp` is `a`, and the variables are between them. -/
structure Frame (b a : Int) (vars : VarName → Word) (s : State) : Prop where
  rbp : s.regs .rbp = .addr b
  rsp : s.regs .rsp = .addr a
  below : a ≤ b - 26 * 8
  vars : ∀ x, s.mem (b + offset x.char) = .word (vars x)

/-- The slots of the 26 variables are those below the frame pointer. -/
theorem VarName.offset_bounds (x : VarName) : -26 * 8 ≤ offset x.char ∧ offset x.char ≤ -8 := by
  have := x.isLt
  rw [offset_char]
  omega

/-- What writes below the frame only keeps it. -/
theorem Frame.keeps (h : Frame b a vars s) (hk : s.Keeps a t) : Frame b a vars t where
  rbp := (hk.saved .rbp rfl).trans h.rbp
  rsp := (hk.saved .rsp rfl).trans h.rsp
  below := h.below
  vars x := by
    have hbelow := h.below
    have hoffset := x.offset_bounds
    rw [hk.stack _ (by omega)]
    exact h.vars x

/-- From `s` on, the value ends up in `rdi` at `pc`, or a division traps. -/
def Evaluates (prog : Code) (E : External) (a : Int) (s : State) (pc : Nat) :
    Option Word → Prop
  | some v => ∃ t, Runs (step prog E) 0 s t ∧ t.pc = pc ∧ t.regs .rdi = .word v ∧ s.Keeps a t
  | none => ∃ t, Stops (step prog E) s (.divideError t) ∧ s.KeepsStack a t

/-- What runs into an evaluation is one. -/
theorem Evaluates.after {pc : Nat} {r : Option Word} (hruns : Runs (step prog E) 0 s t)
    (hk : s.Keeps a t) (h : Evaluates prog E a t pc r) : Evaluates prog E a s pc r := by
  cases r with
  | none =>
      obtain ⟨u, hstops, hu⟩ := h
      exact ⟨u, hruns.stops hstops, hk.toKeepsStack.trans hu⟩
  | some v =>
      obtain ⟨u, hruns', hpc, hrdi, hu⟩ := h
      exact ⟨u, hruns.trans hruns', hpc, hrdi, hk.trans hu⟩

/-- The code computes a value in every frame with these variables. -/
def Computes (prog : Code) (E : External) (vars : VarName → Word) (code : Code)
    (r : Option Word) : Prop :=
  ∀ s a b, Frame b a vars s → CodeAt prog s.pc code →
    Evaluates prog E a s (s.pc + code.length) r

/-- One instruction that writes `rdi`. -/
theorem evaluates_single {i : Instr Label} {w : Word} (h : CodeAt prog s.pc [i])
    (hrun : i.run prog E s = .ok t) (hpc : t.pc = s.pc + 1) (hrdi : t.regs .rdi = .word w)
    (hk : s.Keeps a t) : Evaluates prog E a s (s.pc + 1) (some w) :=
  ⟨t, (h.runs hrun).mono (Nat.zero_le 1), hpc, hrdi, hk⟩

/-- The four instructions of a division. -/
theorem division_evaluates {x y : Word}
    (h : CodeAt prog s.pc [.mov .rdi .rax, .cqto, .idiv .r10, .mov .rax .rdi])
    (hx : s.regs .rdi = .word x) (hy : s.regs .r10 = .word y) :
    Evaluates prog E a s (s.pc + 4) (ArithOp.div.apply x y) := by
  let s1 := (s.set .rax (.word x)).next
  let s2 := (s1.set .rdx (.word (if x.msb then -1 else 0))).next
  have hk2 : s.Keeps a s2 := (State.keeps_set rfl).next.trans (State.keeps_set rfl).next
  have h1 : Runs (step prog E) 1 s s1 := h.runs (by rw [Instr.run, hx])
  have h2 : Runs (step prog E) 1 s1 s2 := h.tail.runs (s := s1) rfl
  have hr10 : s2.word .r10 = .ok y := State.word_eq hy
  have hrax : s2.word .rax = .ok x := rfl
  have hrdx : s2.word .rdx = .ok (if x.msb then -1 else 0) := rfl
  have hquotient := divide_fst x y
  have happly : ArithOp.div.apply x y = quotient x y := rfl
  rw [happly, ← hquotient]
  cases hdivide : divide x (if x.msb then -1 else 0) y with
  | none =>
      have h3 : step prog E s2 = .error (.divideError s2) :=
        h.tail.tail.step_eq.trans (run_idiv_none hr10 hrax hrdx hdivide)
      exact ⟨s2, (h1.trans h2).stops (Stops.single h3), hk2.toKeepsStack⟩
  | some qr =>
      let s3 := ((s2.arith .rax qr.1).set .rdx (.word qr.2)).next
      let s4 := (s3.set .rdi (.word qr.1)).next
      have h3 : Runs (step prog E) 1 s2 s3 :=
        h.tail.tail.runs (run_idiv hr10 hrax hrdx hdivide)
      have h4 : Runs (step prog E) 1 s3 s4 := h.tail.tail.tail.runs (s := s3) rfl
      have hk4 : s2.Keeps a s4 := ((State.keeps_arith rfl).trans (State.keeps_set rfl)).next.trans
        (State.keeps_set rfl).next
      exact ⟨s4, (((h1.trans h2).trans h3).trans h4).mono (Nat.zero_le _), rfl, rfl, hk2.trans hk4⟩

/-- What follows the operands: the operand on the left is in `rdi`, the one on the
right in `r10`. -/
theorem operation_evaluates {op : ArithOp} {right : Node} {x y : Word}
    (h : CodeAt prog s.pc (operation op.char right)) (hx : s.regs .rdi = .word x)
    (hy : s.regs .r10 = .word y) (hright : ∀ n, right = .num n → n = y) :
    Evaluates prog E a s (s.pc + (operation op.char right).length) (op.apply x y) := by
  have hrdi : s.word .rdi = .ok x := State.word_eq hx
  have hr10 : s.word .r10 = .ok y := State.word_eq hy
  have harith (w : Word) : s.Keeps a (s.arith .rdi w).next := (State.keeps_arith rfl).next
  cases op with
  | add => exact evaluates_single h (by rw [Instr.run, hr10, hrdi]; rfl) rfl rfl (harith _)
  | sub => exact evaluates_single h (by rw [Instr.run, hr10, hrdi]; rfl) rfl rfl (harith _)
  | div => exact division_evaluates h hx hy
  | mul =>
      have hcode : operation ArithOp.mul.char right = [multiplication right] := rfl
      rw [hcode] at h ⊢
      have himul : (Instr.imul .r10 .rdi).run prog E s = .ok (s.arith .rdi (x * y)).next := by
        rw [Instr.run, hr10, hrdi]
        rfl
      suffices hrun : (multiplication right).run prog E s = .ok (s.arith .rdi (x * y)).next from
        evaluates_single h hrun rfl rfl (harith _)
      unfold multiplication
      split
      · rename_i n
        dsimp only
        split
        · rename_i hpower
          have hn := hright n rfl
          rw [Instr.run, hrdi]
          change Except.ok (s.arith .rdi (x <<< (isPowerOfTwo n % 64))).next = _
          rw [shl_isPowerOfTwo hpower, hn]
        · exact himul
      · exact himul

/-- **Operands.** The operand on the right is computed first and waits on the stack
while the one on the left is computed. -/
theorem operands_run {rightCode leftCode : Code} {l r : Option Word}
    (hr : Computes prog E vars rightCode r) (hl : Computes prog E vars leftCode l)
    (hf : Frame b a vars s)
    (h : CodeAt prog s.pc (rightCode ++ [.push .rdi] ++ leftCode ++ [.pop .r10])) :
    (∃ x y t, l = some x ∧ r = some y ∧ Runs (step prog E) 1 s t ∧
        t.pc = s.pc + (rightCode ++ [Instr.push .rdi] ++ leftCode ++ [Instr.pop .r10]).length ∧
        t.regs .rdi = .word x ∧ t.regs .r10 = .word y ∧ s.Keeps a t) ∨
      ((l = none ∨ r = none) ∧
        ∃ t, Stops (step prog E) s (.divideError t) ∧ s.KeepsStack a t) := by
  have hright := hr s a b hf h.left.left.left
  cases r with
  | none => exact .inr ⟨.inr rfl, hright⟩
  | some y =>
      obtain ⟨s1, hruns1, hpc1, hrdi1, hk1⟩ := hright
      have hrsp1 : s1.addr .rsp = .ok a := State.addr_eq (hf.keeps hk1).rsp
      let s2 := ((s1.write (a - 8) (.word y)).set .rsp (.addr (a - 8))).next
      have hpush : CodeAt prog s1.pc [Instr.push Reg.rdi] := hpc1 ▸ h.left.left.right
      have h2 : Runs (step prog E) 1 s1 s2 := hpush.runs (by rw [Instr.run, hrsp1, hrdi1]; rfl)
      have hstack2 (q : Int) (hq : a ≤ q) : s2.mem q = s1.mem q :=
        State.write_mem_apart (by rw [abs_of_nonneg] <;> omega)
      have hf2 : Frame b (a - 8) vars s2 := by
        have hf1 := hf.keeps hk1
        refine ⟨hf1.rbp, rfl, by have := hf1.below; omega, fun x => ?_⟩
        have hbelow := hf.below
        have hoffset := x.offset_bounds
        rw [hstack2 _ (by omega)]
        exact hf1.vars x
      have hpc2 : s2.pc = s.pc + (rightCode ++ [Instr.push Reg.rdi]).length := by
        rw [List.length_append, ← Nat.add_assoc, ← hpc1]
        rfl
      have hleft := hl s2 (a - 8) b hf2 (hpc2 ▸ h.left.right)
      have h12 := hruns1.trans h2
      cases l with
      | none =>
          obtain ⟨t, hstops, hk⟩ := hleft
          refine .inr ⟨.inl rfl, t, h12.stops hstops, ?_, ?_⟩
          · intro q hq
            rw [hk.stack q (by omega), hstack2 q hq, hk1.stack q hq]
          · exact hk.output.trans hk1.output
      | some x =>
          obtain ⟨s3, hruns3, hpc3, hrdi3, hk3⟩ := hleft
          have hrsp3 : s3.addr .rsp = .ok (a - 8) := State.addr_eq (hf2.keeps hk3).rsp
          have hmem3 : s3.mem (a - 8) = .word y := by
            rw [hk3.stack _ (le_refl _)]
            exact State.write_mem_self
          let s4 := ((s3.set .rsp (.addr (a - 8 + 8))).set .r10 (.word y)).next
          have hpop : CodeAt prog s3.pc [Instr.pop Reg.r10] := by
            rw [hpc3, hpc2, Nat.add_assoc, ← List.length_append]
            exact h.right
          have h4 : Runs (step prog E) 1 s3 s4 := by
            apply hpop.runs
            rw [Instr.run, hrsp3]
            change Except.ok ((s3.set _ _).set .r10 (s3.mem (a - 8))).next = _
            rw [hmem3]
          refine .inl ⟨x, y, s4, rfl, rfl, ((h12.trans hruns3).trans h4).mono (by omega), ?_, ?_, rfl, ?_⟩
          · change s3.pc + 1 = _
            simp only [hpc3, hpc2, List.length_append, List.length_singleton]
            omega
          · exact hrdi3
          · refine ⟨⟨fun q hq => ?_, ?_⟩, fun r hr => ?_⟩
            · exact (hk3.stack q (by omega)).trans ((hstack2 q hq).trans (hk1.stack q hq))
            · exact hk3.output.trans hk1.output
            · by_cases hrsp : r = .rsp
              · subst hrsp
                rw [hf.rsp]
                simp [s4]
              · have hr10 : r ≠ .r10 := by
                  rintro rfl
                  cases hr
                have hr2 : s2.regs r = s1.regs r := if_neg hrsp
                have hr4 : s4.regs r = s3.regs r := by simp [s4, hrsp, hr10]
                rw [hr4, hk3.saved r hr, hr2, hk1.saved r hr]

/-- **Expressions.** The code of an expression computes its value. -/
theorem compileAst_computes (e : Expr) {ids ids' : Ids} {code : Code}
    (h : compileAst e.toNode ids = some (code, ids')) :
    Computes prog E vars code (e.eval vars) := by
  induction e generalizing ids ids' code with
  | num value =>
      cases h
      intro s a b hf hcode
      exact evaluates_single hcode rfl rfl rfl (State.keeps_set rfl).next
  | var x =>
      cases h
      intro s a b hf hcode
      have hrbp : s.addr .rbp = .ok b := State.addr_eq hf.rbp
      refine evaluates_single (t := (s.set .rdi (.word (vars x))).next) hcode ?_ rfl rfl
        (State.keeps_set rfl).next
      rw [Instr.run, hrbp, ← hf.vars x]
      rfl
  | binary op left right ihl ihr =>
      rcases compileAst_eq h with ⟨v, hfold, rfl, -⟩ | ⟨v, hfold⟩
      · rw [fold_sound _ hfold vars]
        intro s a b hf hcode
        exact evaluates_single hcode rfl rfl rfl (State.keeps_set rfl).next
      · obtain ⟨rightCode, j, leftCode, hright, hleft, rfl⟩ := compileAst_binaryOp hfold h
        intro s a b hf hcode
        rw [Expr.eval]
        rcases operands_run (ihr hright) (ihl hleft) hf hcode.left with
          ⟨x, y, t, hx, hy, hruns, hpc, hrdi, hr10, hk⟩ | ⟨hnone, hstops⟩
        · rw [hx, hy]
          have hnum (n : Word) (hn : right.toNode = .num n) : n = y := by
            cases right with
            | num value =>
                cases hn
                exact Option.some.inj hy
            | var => cases hn
            | binary => cases hn
          have hop := operation_evaluates (E := E) (a := a) (hpc ▸ hcode.right) hrdi hr10 hnum
          rw [hpc, Nat.add_assoc, ← List.length_append] at hop
          exact hop.after (hruns.mono (Nat.zero_le 1)) hk
        · have heval : (left.eval vars >>= fun a => right.eval vars >>= fun b => op.apply a b) =
              none := by
            rcases hnone with hl | hr
            · rw [hl]
              rfl
            · rw [hr]
              cases left.eval vars <;> rfl
          rw [heval]
          exact hstops

end Code

end Basic
