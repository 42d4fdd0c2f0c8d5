import CS24.Basic.CompileCorrect
import CS24.Lib.Checked

/-!
# Compiled programs keep the calling convention

In the code of a statement pushes and pops are balanced: counted from the start of the
code, as many operands are pending at an instruction as there were pushes more than
pops, and none are at a label, a jump or a call.  So the distance of `rsp` from the
frame depends on the position in the code alone, whatever path led there, and that is
the invariant of every run.
-/

namespace Basic

open Machine X86

/-! ## Balanced code -/

/-- The change of the number of pending operands. -/
def effect : Instr Label → Int
  | .push _ => 1
  | .pop _ => -1
  | _ => 0

def balance (c : Code) : Int := (c.map effect).sum

/-- Where no operand may be pending. -/
def AtLevel : Instr Label → Prop
  | .jcc .. | .jmp _ | .label _ | .call => True
  | _ => False

/-- The instructions of compiled statements: they write registers that need not be
preserved, and memory only at a slot or by pushing. -/
def InBody : Instr Label → Prop
  | .movImm _ dst | .mov _ dst | .load _ _ dst | .pop dst | .add _ dst | .sub _ dst
  | .imul _ dst | .shl _ dst => dst.callerSaved = true
  | .store _ o base => base = .rbp ∧ ∃ x : VarName, o = offset x.char
  | .addImm .. | .subImm .. | .ret => False
  | _ => True

/-- Balances of sequences add up. -/
theorem balance_append (c c' : Code) : balance (c ++ c') = balance c + balance c' := by
  rw [balance, List.map_append, List.sum_append, balance, balance]

/-- Balanced code. -/
structure Balanced (code : Code) : Prop where
  inBody : ∀ i ∈ code, InBody i
  nonneg : ∀ n, 0 ≤ balance (code.take n)
  total : balance code = 0
  level : ∀ n i, code[n]? = some i → AtLevel i → balance (code.take n) = 0

/-- Balanced code without labels, jumps and calls. -/
structure Straight (c : Code) : Prop extends Balanced c where
  noLevel : ∀ i ∈ c, ¬ AtLevel i

section Balance

variable {c c' : Code} {i : Instr Label}

/-- In a sequence the second part starts where the first has nothing pending. -/
theorem Balanced.append (h : Balanced c) (h' : Balanced c') : Balanced (c ++ c') := by
  have htake (n : Nat) : balance ((c ++ c').take n) =
      balance (c.take n) + balance (c'.take (n - c.length)) := by
    rw [List.take_append, balance_append]
  refine ⟨?_, ?_, ?_, ?_⟩
  · intro i hi
    rcases List.mem_append.mp hi with hi | hi
    · exact h.inBody i hi
    · exact h'.inBody i hi
  · intro n
    rw [htake]
    exact add_nonneg (h.nonneg n) (h'.nonneg _)
  · rw [balance_append, h.total, h'.total, add_zero]
  · intro n i hi hlevel
    rw [htake]
    rcases Nat.lt_or_ge n c.length with hn | hn
    · rw [List.getElem?_append_left hn] at hi
      rw [h.level n i hi hlevel, Nat.sub_eq_zero_of_le hn.le]
      rfl
    · rw [List.getElem?_append_right hn] at hi
      rw [h'.level _ i hi hlevel, List.take_of_length_le hn, h.total]
      rfl

/-- The empty code is balanced. -/
theorem balanced_nil : Balanced [] :=
  ⟨by simp, fun n => by rw [List.take_nil]; exact le_refl 0, rfl, by simp⟩

/-- So is one instruction that pushes and pops nothing. -/
theorem balanced_single (hi : InBody i) (heffect : effect i = 0) : Balanced [i] := by
  have hbalance : balance [i] = 0 := by simp [balance, heffect]
  have htake (n : Nat) : balance ([i].take n) = 0 := by
    cases n with
    | zero => rfl
    | succ n => rwa [List.take_of_length_le (by simp)]
  exact ⟨by simpa using hi, fun n => (htake n).ge, hbalance, fun n _ _ _ => htake n⟩

/-- A sequence of straight codes is straight. -/
theorem Straight.append (h : Straight c) (h' : Straight c') : Straight (c ++ c') where
  toBalanced := h.toBalanced.append h'.toBalanced
  noLevel i hi := by
    rcases List.mem_append.mp hi with hi | hi
    · exact h.noLevel i hi
    · exact h'.noLevel i hi

/-- One instruction that is no label, jump or call and pushes and pops nothing. -/
theorem straight_single (hi : InBody i) (heffect : effect i = 0) (hlevel : ¬ AtLevel i) :
    Straight [i] := ⟨balanced_single hi heffect, by simpa using hlevel⟩

/-- An operand is pending while straight code runs. -/
theorem Straight.pushed (h : Straight c) {src dst : Reg} (hdst : dst.callerSaved = true) :
    Straight ([.push src] ++ c ++ [.pop dst]) := by
  have hbalance : balance ([Instr.push src] ++ c ++ [Instr.pop dst]) = 0 := by
    rw [balance_append, balance_append, h.total]
    rfl
  have hlevel : ∀ i ∈ [Instr.push src] ++ c ++ [Instr.pop dst], ¬ AtLevel i := by
    intro i hi
    simp only [List.mem_append, List.mem_singleton] at hi
    rcases hi with (rfl | hi) | rfl
    · exact id
    · exact h.noLevel i hi
    · exact id
  refine ⟨⟨?_, ?_, hbalance, ?_⟩, hlevel⟩
  · intro i hi
    simp only [List.mem_append, List.mem_singleton] at hi
    rcases hi with (rfl | hi) | rfl
    · trivial
    · exact h.inBody i hi
    · exact hdst
  · intro n
    rcases Nat.lt_or_ge n ([Instr.push src] ++ c ++ [Instr.pop dst]).length with hn | hn
    · have hn' : n - ([Instr.push src] ++ c).length = 0 := by
        simp only [List.length_append, List.length_singleton] at hn ⊢
        omega
      rw [List.take_append, hn', List.take_zero, List.append_nil, List.take_append,
        balance_append]
      have hpush : 0 ≤ balance ([Instr.push src].take n) := by
        cases n with
        | zero => exact le_refl 0
        | succ n =>
            rw [List.take_of_length_le (by simp)]
            exact Int.one_nonneg
      exact add_nonneg hpush (h.nonneg _)
    · rw [List.take_of_length_le hn]
      exact hbalance.ge
  · intro n i hi hi'
    exact absurd hi' (hlevel i (List.mem_of_getElem? hi))

end Balance

/-! ## The code of expressions and statements -/

section Codes

variable {ids ids' : Ids} {code : Code}

/-- The code of an operator takes its operands from registers. -/
theorem operation_straight (op : Char) (right : Node) : Straight (operation op right) := by
  unfold operation
  split_ifs
  · exact straight_single rfl rfl id
  · exact straight_single rfl rfl id
  · unfold multiplication
    split
    · dsimp only
      split
      · exact straight_single rfl rfl id
      · exact straight_single rfl rfl id
    · exact straight_single rfl rfl id
  · have h1 : Straight [Instr.mov .rdi .rax] := straight_single rfl rfl id
    have h2 : Straight [Instr.cqto] := straight_single trivial rfl id
    have h3 : Straight [Instr.idiv .r10] := straight_single trivial rfl id
    have h4 : Straight [Instr.mov .rax .rdi] := straight_single rfl rfl id
    exact ((h1.append h2).append h3).append h4
  · exact straight_single trivial rfl id

/-- The code of two operands and their operation. -/
theorem Straight.operands {rightCode leftCode : Code} (hright : Straight rightCode)
    (hleft : Straight leftCode) (op : Char) (right : Node) :
    Straight (rightCode ++ [.push .rdi] ++ leftCode ++ [.pop .r10] ++ operation op right) := by
  have hpushed : Straight ([.push .rdi] ++ leftCode ++ [.pop .r10]) := hleft.pushed rfl
  have h := (hright.append hpushed).append (operation_straight op right)
  simpa only [List.append_assoc] using h

/-- **Expressions** compile to straight code. -/
theorem compileAst_straight (e : Expr) (h : compileAst e.toNode ids = some (code, ids')) :
    Straight code := by
  induction e generalizing ids ids' code with
  | num value =>
      cases h
      exact straight_single rfl rfl id
  | var x =>
      cases h
      exact straight_single rfl rfl id
  | binary op left right ihl ihr =>
      rcases compileAst_eq h with ⟨v, -, rfl, -⟩ | ⟨v, hfold⟩
      · exact straight_single rfl rfl id
      · obtain ⟨rightCode, j, leftCode, hright, hleft, rfl⟩ := compileAst_binaryOp hfold h
        exact (ihr hright).operands (ihl hleft) _ _

/-- Comparisons push as expressions do. -/
theorem condition_straight (c : Cond) (h : compileAst c.toNode ids = some (code, ids')) :
    Straight code := by
  rcases compileAst_eq h with ⟨v, hfold, -⟩ | ⟨v, hfold⟩
  · exact absurd hfold (fold_condition c v)
  · obtain ⟨rightCode, j, leftCode, hright, hleft, rfl⟩ := compileAst_binaryOp hfold h
    exact (compileAst_straight _ hright).operands (compileAst_straight _ hleft) _ _

/-- The jump of an `IF` pushes nothing. -/
theorem ifJump_balanced (op : Char) (id : Nat) : Balanced (ifJump op id) := by
  unfold ifJump
  split_ifs
  · exact balanced_single trivial rfl
  · exact balanced_single trivial rfl
  · exact balanced_single trivial rfl
  · exact balanced_nil

/-- Nor does the jump of a `WHILE`. -/
theorem whileJump_balanced (op : Char) (id : Nat) : Balanced (whileJump op id) := by
  unfold whileJump
  split_ifs
  · exact balanced_single trivial rfl
  · exact balanced_single trivial rfl
  · exact balanced_single trivial rfl
  · exact balanced_nil

/-- A jump and the label behind it. -/
theorem jmp_label_balanced (l l' : Label) : Balanced [.jmp l, .label l'] :=
  have h1 : Balanced [Instr.jmp l] := balanced_single trivial rfl
  have h2 : Balanced [Instr.label l'] := balanced_single trivial rfl
  h1.append h2

mutual

/-- **Statements** compile to balanced code. -/
theorem compileAst_balanced {stmt : Stmt} {ids ids' : Ids} {code : Code}
    (h : compileAst stmt.toNode ids = some (code, ids')) : Balanced code := by
  match stmt, h with
  | .print expr, h =>
      obtain ⟨c, hc, rfl⟩ := compileAst_print h
      exact (compileAst_straight _ hc).toBalanced.append (balanced_single trivial rfl)
  | .let x value, h =>
      obtain ⟨c, hc, rfl⟩ := compileAst_let h
      exact (compileAst_straight _ hc).toBalanced.append (balanced_single ⟨rfl, x, rfl⟩ rfl)
  | .if condition ifBranch elseBranch, h =>
      obtain ⟨conditionCode, j, op, elseCode, k, ifCode, hcondition, hop, -, helse, hif,
        rfl⟩ := compileAst_if h
      have h1 := (condition_straight _ hcondition).toBalanced.append (ifJump_balanced op j.ifId)
      have h2 := (h1.append (compileElse_balanced helse)).append
        (jmp_label_balanced (.endIf j.ifId) (.if j.ifId))
      exact (h2.append (compileAst_balanced hif)).append (jmp_label_balanced _ _)
  | .while condition body, h =>
      obtain ⟨conditionCode, j, op, bodyCode, -, hcondition, hop, hbody, rfl⟩ :=
        compileAst_while h
      have h0 : Balanced [Instr.label (Label.while ids.whileId)] := balanced_single trivial rfl
      have h1 := (h0.append (condition_straight _ hcondition).toBalanced).append
        (whileJump_balanced op ids.whileId)
      exact (h1.append (compileAst_balanced hbody)).append (jmp_label_balanced _ _)
  | .sequence statements, h => exact compileAll_balanced h

/-- The code of an `ELSE` branch is balanced, also if there is none. -/
theorem compileElse_balanced {stmt : Option Stmt} {ids ids' : Ids} {code : Code}
    (h : compileElse (Stmt.toNode? stmt) ids = some (code, ids')) : Balanced code := by
  match stmt, h with
  | none, h =>
      cases h
      exact balanced_nil
  | some stmt, h =>
      have hstmt : compileAst stmt.toNode ids = some (code, ids') := h
      exact compileAst_balanced hstmt

/-- By induction on the statements. -/
theorem compileAll_balanced {stmts : List Stmt} {ids ids' : Ids} {code : Code}
    (h : compileAll (Stmt.toNodes stmts) ids = some (code, ids')) : Balanced code := by
  match stmts, h with
  | [], h =>
      cases h
      exact balanced_nil
  | stmt :: stmts, h =>
      obtain ⟨c, j, rest, hc, hrest, rfl⟩ := compileAll_cons h
      exact (compileAst_balanced hc).append (compileAll_balanced hrest)

end

end Codes

/-! ## Runs -/

section Runs

variable {prog body code : Code} {E : External} {a b r : Int} {s t : State} {i : Instr Label}

/-- A jump leads to the label. -/
theorem jump_label {l : Label} (h : jump prog l s = .ok t) :
    prog[t.pc]? = some (.label l) ∧ t = { s with pc := t.pc } := by
  unfold jump at h
  split at h
  · rename_i pc hpc
    cases h
    obtain ⟨hlt, hl, -⟩ := List.findIdx?_eq_some_iff_getElem.mp hpc
    refine ⟨?_, rfl⟩
    change prog[pc]? = _
    rw [List.getElem?_eq_getElem hlt]
    cases hi : prog[pc] with
    | label l' =>
        rw [hi] at hl
        simp only [decide_eq_true_eq] at hl
        rw [hl]
    | _ =>
        rw [hi] at hl
        cases hl
  · cases h

/-- What an instruction of a body does to the frame at `b`: it keeps `rbp`, the other
preserved registers and the memory from `b` on, moves `rsp` by its effect, and leads to
the next instruction, or from a level to a label. -/
structure Stays (prog : Code) (i : Instr Label) (b r : Int) (s t : State) : Prop where
  rsp : t.regs .rsp = .addr (r - 8 * effect i)
  saved : ∀ r', r'.callerSaved = false → r' ≠ .rsp → t.regs r' = s.regs r'
  above : ∀ q, b ≤ q → t.mem q = s.mem q
  pc : t.pc = s.pc + 1 ∨ (AtLevel i ∧ ∃ l, prog[t.pc]? = some (.label l))

/-- An instruction without an effect leaves `rsp` where it has to be. -/
theorem rsp_stays (heffect : effect i = 0) (h : t.regs .rsp = .addr r) :
    t.regs .rsp = .addr (r - 8 * effect i) := by
  rw [h, heffect, mul_zero, sub_zero]

/-- An instruction that writes a register that need not be preserved. -/
theorem stays_set {dst : Reg} {v : Value} (hdst : dst.callerSaved = true) (heffect : effect i = 0)
    (hrsp : s.regs .rsp = .addr r) : Stays prog i b r s (s.set dst v).next := by
  have hset (r' : Reg) (hr' : r'.callerSaved = false) : (s.set dst v).next.regs r' = s.regs r' :=
    if_neg (by rintro rfl; rw [hdst] at hr'; cases hr')
  exact ⟨rsp_stays heffect ((hset .rsp rfl).trans hrsp), fun r' hr' _ => hset r' hr',
    fun _ _ => rfl, .inl rfl⟩

/-- An instruction that leaves registers and memory alone. -/
theorem Stays.of_eq (heffect : effect i = 0) (hrsp : s.regs .rsp = .addr r)
    (hregs : t.regs = s.regs) (hmem : t.mem = s.mem)
    (hpc : t.pc = s.pc + 1 ∨ (AtLevel i ∧ ∃ l, prog[t.pc]? = some (.label l))) :
    Stays prog i b r s t :=
  ⟨rsp_stays heffect (hregs ▸ hrsp), fun _ _ _ => by rw [hregs],
    fun _ _ => by rw [hmem], hpc⟩

/-- The flags that arithmetic leaves are not part of it. -/
theorem Stays.arith {dst : Reg} {w : Word} (h : Stays prog i b r s (s.set dst (.word w)).next) :
    Stays prog i b r s (s.arith dst w).next := ⟨h.rsp, h.saved, h.above, h.pc⟩

/-- **One instruction** of a statement moves `rsp` by what it pushes or pops, and keeps `rbp`, the
registers that have to be preserved and everything from the frame up. One case for each
instruction. -/
theorem run_stays (hi : InBody i) (hrbp : s.regs .rbp = .addr b) (hrsp : s.regs .rsp = .addr r)
    (hr : r ≤ b) (hrun : i.run prog E s = .ok t) : Stays prog i b r s t := by
  cases i with
  | movImm imm dst | mov src dst =>
      cases hrun
      exact stays_set hi rfl hrsp
  | load o base dst =>
      obtain ⟨p, -, hrun⟩ := Checked.bind_eq_ok hrun
      cases hrun
      exact stays_set hi rfl hrsp
  | store src o base =>
      obtain ⟨rfl, x, rfl⟩ := hi
      rw [Instr.run, State.addr_eq hrbp] at hrun
      cases hrun
      have hoffset := x.offset_bounds
      refine ⟨rsp_stays rfl hrsp, fun _ _ _ => rfl, fun q hq => ?_, .inl rfl⟩
      exact State.write_mem_apart (by rw [le_abs]; omega)
  | push src =>
      rw [Instr.run, State.addr_eq hrsp] at hrun
      cases hrun
      refine ⟨by rw [effect, mul_one]; rfl, fun r' _ hr' => if_neg hr', fun q hq => ?_, .inl rfl⟩
      exact State.write_mem_apart (by rw [le_abs]; omega)
  | pop dst =>
      rw [Instr.run, State.addr_eq hrsp] at hrun
      cases hrun
      have hne (r' : Reg) (hr' : r'.callerSaved = false) : r' ≠ dst := by
        rintro rfl
        rw [show r'.callerSaved = true from hi] at hr'
        cases hr'
      refine ⟨?_, fun r' hr' hr'' => ?_, fun _ _ => rfl, .inl rfl⟩
      · rw [State.next_regs, State.set_regs, if_neg (hne .rsp rfl), State.set_regs, if_pos rfl,
          effect, mul_neg, mul_one, sub_neg_eq_add]
      · rw [State.next_regs, State.set_regs, if_neg (hne r' hr'), State.set_regs, if_neg hr'']
  | add src dst | sub src dst | imul src dst =>
      obtain ⟨v, -, hrun⟩ := Checked.bind_eq_ok hrun
      obtain ⟨w, -, hrun⟩ := Checked.bind_eq_ok hrun
      cases hrun
      exact (stays_set hi rfl hrsp).arith
  | shl count dst =>
      obtain ⟨v, -, hrun⟩ := Checked.bind_eq_ok hrun
      cases hrun
      exact (stays_set hi rfl hrsp).arith
  | cqto =>
      obtain ⟨v, -, hrun⟩ := Checked.bind_eq_ok hrun
      cases hrun
      exact stays_set rfl rfl hrsp
  | idiv src =>
      obtain ⟨v, -, hrun⟩ := Checked.bind_eq_ok hrun
      obtain ⟨w, -, hrun⟩ := Checked.bind_eq_ok hrun
      obtain ⟨d, -, hrun⟩ := Checked.bind_eq_ok hrun
      split at hrun
      · rename_i q rem hdivide
        cases hrun
        have hrax : Stays prog (.idiv src) b r s (s.set .rax (.word q)).next :=
          stays_set rfl rfl hrsp
        have hset (r' : Reg) (hr' : r'.callerSaved = false) :
            ((s.arith .rax q).set .rdx (.word rem)).next.regs r' = (s.set .rax (.word q)).next.regs r' :=
          if_neg (by rintro rfl; cases hr')
        exact ⟨(hset .rsp rfl).trans hrax.rsp,
          fun r' hr' hr'' => (hset r' hr').trans (hrax.saved r' hr' hr''), hrax.above, hrax.pc⟩
      · cases hrun
  | cmp src dst =>
      obtain ⟨v, -, hrun⟩ := Checked.bind_eq_ok hrun
      obtain ⟨w, -, hrun⟩ := Checked.bind_eq_ok hrun
      cases hrun
      exact Stays.of_eq rfl hrsp rfl rfl (.inl rfl)
  | jcc cond l =>
      rw [Instr.run] at hrun
      split at hrun
      · split at hrun
        · obtain ⟨hl, ht⟩ := jump_label hrun
          rw [ht]
          exact Stays.of_eq rfl hrsp rfl rfl (.inr ⟨trivial, l, hl⟩)
        · cases hrun
          exact Stays.of_eq rfl hrsp rfl rfl (.inl rfl)
      · cases hrun
  | jmp l =>
      obtain ⟨hl, ht⟩ := jump_label hrun
      rw [ht]
      exact Stays.of_eq rfl hrsp rfl rfl (.inr ⟨trivial, l, hl⟩)
  | label l =>
      cases hrun
      exact Stays.of_eq rfl hrsp rfl rfl (.inl rfl)
  | call =>
      obtain ⟨w, -, hrun⟩ := Checked.bind_eq_ok hrun
      rw [State.addr_eq hrsp] at hrun
      cases hrun
      have hset (r' : Reg) (hr' : r'.callerSaved = false) :
          (if r'.callerSaved then (E s).1 r' else s.regs r') = s.regs r' := by
        rw [hr']
        rfl
      exact ⟨rsp_stays rfl ((hset .rsp rfl).trans hrsp), fun r' hr' _ => hset r' hr',
        fun q hq => if_neg (by omega), .inl rfl⟩
  | addImm | subImm | ret => exact hi.elim

/-- Where a run is, with what the stack then is: `a` is the entry `rsp`, and the caller's
`rbp` is kept at `a - 8`. -/
inductive At (body : Code) (rbp : Value) (a : Int) (s : State) : Prop
  | entered (pc : s.pc = 0) (rsp : s.regs .rsp = .addr a) (hrbp : s.regs .rbp = rbp)
  | pushed (pc : s.pc = 1) (rsp : s.regs .rsp = .addr (a - 8)) (hmem : s.mem (a - 8) = rbp)
  | framed (pc : s.pc = 2) (rsp : s.regs .rsp = .addr (a - 8)) (hrbp : s.regs .rbp = .addr (a - 8))
      (hmem : s.mem (a - 8) = rbp)
  | inside (n : Nat) (hn : n ≤ body.length) (pc : s.pc = 3 + n)
      (rsp : s.regs .rsp = .addr (a - 8 - 26 * 8 - 8 * balance (body.take n)))
      (hrbp : s.regs .rbp = .addr (a - 8)) (hmem : s.mem (a - 8) = rbp)
  | dropped (pc : s.pc = 3 + body.length + 1) (rsp : s.regs .rsp = .addr (a - 8))
      (hmem : s.mem (a - 8) = rbp)
  | restored (pc : s.pc = 3 + body.length + 2) (rsp : s.regs .rsp = .addr a)
      (hrbp : s.regs .rbp = rbp)

/-- The invariant of a run that was entered in `entry`. -/
structure InRun (body : Code) (entry : State) (a : Int) (s : State) : Prop where
  position : At body (entry.regs .rbp) a s
  saved : ∀ r, r.callerSaved = false → r ≠ .rsp → r ≠ .rbp → s.regs r = entry.regs r
  above : ∀ q, a ≤ q → s.mem q = entry.mem q

/-- Where the instructions of a program are. -/
theorem program_body {n : Nat} (hn : n < body.length) :
    (header ++ body ++ footer)[3 + n]? = body[n]? := by
  rw [List.append_assoc, List.getElem?_append_right (by simp [header]),
    List.getElem?_append_left (by simpa [header] using hn)]
  simp [header]

/-- The instructions behind the body. -/
theorem program_footer (n : Nat) :
    (header ++ body ++ footer)[3 + body.length + n]? = footer[n]? := by
  have hlength : (header ++ body).length = 3 + body.length := by
    rw [List.length_append]
    rfl
  rw [List.getElem?_append_right (by omega), hlength, Nat.add_sub_cancel_left]

/-- A label stands in the body. -/
theorem program_label {n : Nat} {l : Label} (h : (header ++ body ++ footer)[n]? = some (.label l)) :
    ∃ k, n = 3 + k ∧ k < body.length ∧ body[k]? = some (.label l) := by
  rcases Nat.lt_or_ge n 3 with hn | hn
  · interval_cases n <;> cases h
  · obtain ⟨k, rfl⟩ := Nat.exists_eq_add_of_le hn
    rcases Nat.lt_or_ge k body.length with hk | hk
    · rw [program_body hk] at h
      exact ⟨k, rfl, hk, h⟩
    · obtain ⟨j, rfl⟩ := Nat.exists_eq_add_of_le hk
      rw [← Nat.add_assoc, program_footer] at h
      have hfooter := List.mem_of_getElem? h
      simp [footer] at hfooter

/-- The balance up to an instruction and with it. -/
theorem balance_take_succ {n : Nat} (h : body[n]? = some i) :
    balance (body.take (n + 1)) = balance (body.take n) + effect i := by
  rw [List.take_add_one, h, balance_append]
  simp [balance]

/-- **Steps** stay in the run. -/
theorem InRun.step {entry : State} (hbody : Balanced body) (h : InRun body entry a s)
    (hstep : step (header ++ body ++ footer) E s = .ok t) : InRun body entry a t := by
  obtain ⟨position, saved, above⟩ := h
  rw [X86.step] at hstep
  cases position with
  | entered pc rsp hrbp =>
      rw [pc] at hstep
      change (Instr.push .rbp).run _ _ _ = _ at hstep
      rw [Instr.run, State.addr_eq rsp] at hstep
      cases hstep
      refine ⟨.pushed (by rw [State.next_pc, State.set_pc, State.write_pc, pc]) rfl ?_,
        fun r hr hrsp hrbp => (if_neg hrsp).trans (saved r hr hrsp hrbp), fun q hq => ?_⟩
      · exact State.write_mem_self.trans hrbp
      · exact (State.write_mem_apart (by rw [le_abs]; omega)).trans (above q hq)
  | pushed pc rsp hmem =>
      rw [pc] at hstep
      change (Instr.mov .rsp .rbp).run _ _ _ = _ at hstep
      rw [Instr.run, rsp] at hstep
      cases hstep
      exact ⟨.framed (by rw [State.next_pc, State.set_pc, pc]) rsp rfl hmem,
        fun r hr hrsp hrbp => (if_neg hrbp).trans (saved r hr hrsp hrbp), above⟩
  | framed pc rsp hrbp hmem =>
      rw [pc] at hstep
      change (Instr.subImm (26 * 8) .rsp).run _ _ _ = _ at hstep
      rw [Instr.run, State.addr_eq rsp] at hstep
      cases hstep
      refine ⟨.inside 0 (Nat.zero_le _) (by rw [pc]) ?_ hrbp hmem,
        fun r hr hrsp hrbp => (if_neg hrsp).trans (saved r hr hrsp hrbp), above⟩
      change Value.addr (a - 8 - 26 * 8) = .addr (a - 8 - 26 * 8 - 8 * 0)
      rw [mul_zero, sub_zero]
  | inside n hn pc rsp hrbp hmem =>
      rw [pc] at hstep
      rcases Nat.lt_or_ge n body.length with hlt | hge
      · rw [program_body hlt, List.getElem?_eq_getElem hlt] at hstep
        have hi : body[n]? = some body[n] := List.getElem?_eq_getElem hlt
        have hnonneg := hbody.nonneg n
        obtain ⟨hrsp', hsaved', habove', hpc'⟩ := run_stays (hbody.inBody _ (List.getElem_mem hlt))
          hrbp rsp (by omega) hstep
        refine ⟨?_, fun r hr hrsp hrbp => (hsaved' r hr hrsp).trans (saved r hr hrsp hrbp),
          fun q hq => (habove' q (by omega)).trans (above q hq)⟩
        have hrbp' := (hsaved' .rbp rfl (by decide)).trans hrbp
        have hmem' := (habove' (a - 8) (le_refl _)).trans hmem
        rcases hpc' with hpc' | ⟨hlevel, l, hl⟩
        · refine .inside (n + 1) hlt (by rw [hpc', pc, Nat.add_assoc]) ?_ hrbp' hmem'
          rw [hrsp', balance_take_succ hi]
          ring_nf
        · obtain ⟨k, hk, hklt, hlabel⟩ := program_label hl
          refine .inside k hklt.le hk ?_ hrbp' hmem'
          have heffect : effect body[n] = 0 := by
            cases hbn : body[n] <;> rw [hbn] at hlevel <;> first | rfl | exact hlevel.elim
          rw [hrsp', heffect, hbody.level n _ hi hlevel, hbody.level k _ hlabel trivial, mul_zero,
            sub_zero]
      · obtain rfl := Nat.le_antisymm hn hge
        rw [← Nat.add_zero (3 + body.length), program_footer] at hstep
        change (Instr.addImm (26 * 8) .rsp).run _ _ _ = _ at hstep
        rw [Instr.run, State.addr_eq rsp, List.take_length, hbody.total] at hstep
        cases hstep
        refine ⟨.dropped (by rw [pc]) ?_ hmem,
          fun r hr hrsp hrbp => (if_neg hrsp).trans (saved r hr hrsp hrbp), above⟩
        change Value.addr (a - 8 - 26 * 8 - 8 * 0 + 26 * 8) = _
        rw [mul_zero, sub_zero, sub_add_cancel]
  | dropped pc rsp hmem =>
      rw [pc, program_footer] at hstep
      change (Instr.pop .rbp).run _ _ _ = _ at hstep
      rw [Instr.run, State.addr_eq rsp] at hstep
      cases hstep
      refine ⟨.restored (by rw [State.next_pc, State.set_pc, State.set_pc, pc]) ?_ hmem,
        fun r hr hrsp hrbp => (if_neg hrbp).trans ((if_neg hrsp).trans (saved r hr hrsp hrbp)), above⟩
      change Value.addr (a - 8 + 8) = _
      rw [sub_add_cancel]
  | restored pc rsp hrbp =>
      rw [pc, program_footer] at hstep
      change Instr.ret.run _ _ _ = _ at hstep
      rw [Instr.run, State.addr_eq rsp] at hstep
      cases hstep

/-- What the calling convention asks of a state of a run, with the entry `rsp` at `a`:
at a call `rsp` is aligned and at the end of the frame, so no operand is pending; a push
hits no slot of a variable; no write reaches the entry `rsp`. -/
structure Conforms (prog : Code) (a : Int) (s : State) : Prop where
  call : prog[s.pc]? = some .call → s.regs .rsp = .addr (a - 8 - 26 * 8) ∧
    (a - 8 - 26 * 8) % 16 = 0
  push : ∀ src, prog[s.pc]? = some (.push src) → ∃ r, s.regs .rsp = .addr r ∧ r ≤ a ∧
    ∀ x : VarName, 8 ≤ |r - 8 - (a - 8 + offset x.char)|
  store : ∀ src o base, prog[s.pc]? = some (.store src o base) →
    ∃ b, s.regs base = .addr b ∧ b + o + 8 ≤ a

/-- The next instruction of a run is the first `push`, or it is one of the header and the
footer that neither pushes nor stores, or it is in the body. -/
theorem InRun.located {entry : State} (h : InRun body entry a s)
    (hi : (header ++ body ++ footer)[s.pc]? = some i) :
    (i = .push .rbp ∧ s.regs .rsp = .addr a) ∨
      i ∈ [.mov .rsp .rbp, .subImm (26 * 8) .rsp] ++ footer ∨
      ∃ n, body[n]? = some i ∧ s.regs .rbp = .addr (a - 8) ∧
        s.regs .rsp = .addr (a - 8 - 26 * 8 - 8 * balance (body.take n)) := by
  cases h.position with
  | entered pc rsp =>
      rw [pc] at hi
      exact .inl ⟨(Option.some.inj hi).symm, rsp⟩
  | pushed pc | framed pc =>
      rw [pc] at hi
      obtain rfl := Option.some.inj hi
      exact .inr (.inl (by simp))
  | inside n hn pc rsp hrbp =>
      rw [pc] at hi
      rcases Nat.lt_or_ge n body.length with hlt | hge
      · rw [program_body hlt] at hi
        exact .inr (.inr ⟨n, hi, hrbp, rsp⟩)
      · obtain rfl := Nat.le_antisymm hn hge
        rw [← Nat.add_zero (3 + body.length), program_footer] at hi
        exact .inr (.inl (List.mem_append_right _ (List.mem_of_getElem? hi)))
  | dropped pc | restored pc =>
      rw [pc, program_footer] at hi
      exact .inr (.inl (List.mem_append_right _ (List.mem_of_getElem? hi)))

/-- A state in a run conforms. -/
theorem InRun.conforms {entry : State} (hbody : Balanced body) (h : InRun body entry a s)
    (ha : a % 16 = 8) : Conforms (header ++ body ++ footer) a s := by
  refine ⟨fun hi => ?_, fun src hi => ?_, fun src o base hi => ?_⟩
  · rcases h.located hi with ⟨h0, -⟩ | hmem | ⟨n, hn, -, hrsp⟩
    · cases h0
    · simp [footer] at hmem
    · rw [hbody.level n _ hn trivial, mul_zero, sub_zero] at hrsp
      exact ⟨hrsp, by omega⟩
  · rcases h.located hi with ⟨-, hrsp⟩ | hmem | ⟨n, -, -, hrsp⟩
    · refine ⟨a, hrsp, le_refl a, fun x => ?_⟩
      have hoffset := x.offset_bounds
      rw [le_abs]
      omega
    · simp [footer] at hmem
    · have hnonneg := hbody.nonneg n
      refine ⟨_, hrsp, by omega, fun x => ?_⟩
      have hoffset := x.offset_bounds
      rw [le_abs]
      omega
  · rcases h.located hi with ⟨h0, -⟩ | hmem | ⟨n, hn, hrbp, -⟩
    · cases h0
    · simp [footer] at hmem
    · obtain ⟨rfl, x, rfl⟩ := hbody.inBody _ (List.mem_of_getElem? hn)
      have hoffset := x.offset_bounds
      exact ⟨a - 8, hrbp, by omega⟩

/-- No stop but the return to the caller. -/
def NotReturned (stop : Stop) : Prop := ∀ t, stop ≠ .returned t

/-- Reading a word does not return from the program. -/
theorem safe_word (s : State) (r : Reg) :
    Checked.Safe NotReturned (fun _ => True) (s.word r) := by
  rcases s.word_cases r with ⟨w, h⟩ | h <;> rw [h]
  · trivial
  · exact fun _ h => by cases h

/-- Nor does reading an address. -/
theorem safe_addr (s : State) (r : Reg) :
    Checked.Safe NotReturned (fun _ => True) (s.addr r) := by
  rcases s.addr_cases r with ⟨w, h⟩ | h <;> rw [h]
  · trivial
  · exact fun _ h => by cases h

/-- Nor does a jump. -/
theorem safe_jump (l : Label) : Checked.Safe NotReturned (fun _ => True) (jump prog l s) := by
  unfold jump
  split
  · trivial
  · exact fun _ h => by cases h

/-- Only `ret` returns. -/
theorem run_not_returned (hi : i ≠ .ret) :
    Checked.Safe NotReturned (fun _ => True) (i.run prog E s) := by
  cases i with
  | movImm imm dst | mov src dst | label l => trivial
  | load o base dst | store src o base => exact (safe_addr s base).bind fun _ _ => trivial
  | push src | pop dst => exact (safe_addr s .rsp).bind fun _ _ => trivial
  | addImm imm dst | subImm imm dst => exact (safe_addr s dst).bind fun _ _ => trivial
  | add src dst | sub src dst | imul src dst | cmp src dst =>
      exact (safe_word s src).bind fun _ _ => (safe_word s dst).bind fun _ _ => trivial
  | shl count dst => exact (safe_word s dst).bind fun _ _ => trivial
  | cqto => exact (safe_word s .rax).bind fun _ _ => trivial
  | idiv src =>
      refine (safe_word s src).bind fun b _ => (safe_word s .rax).bind fun a _ =>
        (safe_word s .rdx).bind fun d _ => ?_
      split
      · trivial
      · exact fun _ h => by cases h
  | jcc cond l =>
      rw [Instr.run]
      split
      · exact Checked.Safe.ite (fun _ => safe_jump l) (fun _ => trivial)
      · exact fun _ h => by cases h
  | jmp l => exact safe_jump l
  | call => exact (safe_word s .rdi).bind fun _ _ => (safe_addr s .rsp).bind fun _ _ => trivial
  | ret => exact absurd rfl hi

/-- A run that returns has the registers of the caller and its stack as they were. -/
theorem InRun.returns {entry : State} (hbody : Balanced body) (h : InRun body entry a s)
    (hstep : X86.step (header ++ body ++ footer) E s = .error (.returned t)) :
    t.regs .rsp = .addr (a + 8) ∧
      (∀ r, r.callerSaved = false → r ≠ .rsp → t.regs r = entry.regs r) ∧
      ∀ q, a ≤ q → t.mem q = entry.mem q := by
  obtain ⟨i, hi, hrun⟩ : ∃ i, (header ++ body ++ footer)[s.pc]? = some i ∧
      i.run (header ++ body ++ footer) E s = .error (.returned t) := by
    unfold X86.step at hstep
    split at hstep
    · exact ⟨_, ‹_›, hstep⟩
    · cases hstep
  have hret : i = .ret := by
    by_contra hne
    have hsafe : Checked.Safe NotReturned (fun _ => True)
        (i.run (header ++ body ++ footer) E s) := run_not_returned hne
    rw [hrun] at hsafe
    exact hsafe t rfl
  subst hret
  have hbodyRet (n : Nat) : body[n]? ≠ some .ret := fun hn =>
    hbody.inBody _ (List.mem_of_getElem? hn)
  obtain ⟨position, saved, above⟩ := h
  cases position with
  | entered pc | pushed pc | framed pc =>
      rw [pc] at hi
      cases hi
  | inside n hn pc =>
      rw [pc] at hi
      rcases Nat.lt_or_ge n body.length with hlt | hge
      · rw [program_body hlt] at hi
        exact absurd hi (hbodyRet n)
      · obtain rfl := Nat.le_antisymm hn hge
        rw [← Nat.add_zero (3 + body.length), program_footer] at hi
        cases hi
  | dropped pc =>
      rw [pc, program_footer] at hi
      cases hi
  | restored pc rsp hrbp =>
      rw [Instr.run, State.addr_eq rsp] at hrun
      cases hrun
      refine ⟨rfl, fun r hr hrsp => (if_neg hrsp).trans ?_, above⟩
      by_cases hr' : r = .rbp
      · rw [hr', hrbp]
      · exact saved r hr hrsp hr'

end Runs

/-! ## The calling convention -/

section Convention

variable {code : Code} {E : External} {a : Int} {s : State}

/-- **The calling convention.** A compiled program, called with any registers and any
memory and with `rsp` at `a`, 8 modulo 16, conforms in every state of its run; and if it
returns, `rsp` is behind the return address, the other registers that it has to preserve
are as they were, and so is the stack from `a` on.  An external call keeps to the
convention itself: it writes registers that need not be preserved, and memory below
`rsp`. -/
theorem compile_calling_convention {stmt : Stmt} (hcode : compile stmt.toNode = some code)
    (hpc : s.pc = 0) (hrsp : s.regs .rsp = .addr a) (ha : a % 16 = 8) :
    (∀ n t, exec (step code E) n s = .ok t → Conforms code a t) ∧
    ∀ t, Stops (step code E) s (.returned t) → t.regs .rsp = .addr (a + 8) ∧
      (∀ r, r.callerSaved = false → r ≠ .rsp → t.regs r = s.regs r) ∧
      ∀ q, a ≤ q → t.mem q = s.mem q := by
  obtain ⟨body, ids, hbody, rfl⟩ := compile_eq hcode
  have hbalanced := compileAst_balanced hbody
  have hentry : InRun body s a s := ⟨.entered hpc hrsp rfl, fun _ _ _ _ => rfl, fun _ _ => rfl⟩
  have hrun {n : Nat} {t : State} (h : exec (step (header ++ body ++ footer) E) n s = .ok t) :
      InRun body s a t := exec_preserves (fun _ _ => InRun.step hbalanced) hentry h
  refine ⟨fun n t h => (hrun h).conforms hbalanced ha, ?_⟩
  rintro t ⟨n, hn⟩
  obtain ⟨m, u, hu, hlast⟩ := exec_error_last hn
  exact (hrun hu).returns hbalanced hlast

/-- `WHILE x < 10`, with `PRINT (x + 1) * (y + 2)` and `LET x = x + 1` in it. -/
def countingLoop (x y : VarName) : Stmt :=
  .while ⟨.lt, .var x, .num 10⟩ (.sequence
    [.print (.binary .mul (.binary .add (.var x) (.num 1)) (.binary .add (.var y) (.num 2))),
      .let x (.binary .add (.var x) (.num 1))])

/-- Entered with `rsp` at 8. -/
theorem countingLoop_calling_convention : ∃ code, compile (countingLoop 0 1).toNode = some code ∧
    ∀ E, (∀ n t, exec (step code E) n ⟨fun _ => .addr 8, none, fun _ => .word 0, 0, []⟩ = .ok t →
        Conforms code 8 t) ∧
      ∀ t, Stops (step code E) ⟨fun _ => .addr 8, none, fun _ => .word 0, 0, []⟩ (.returned t) →
        t.regs .rsp = .addr 16 ∧ ∀ r, r.callerSaved = false → r ≠ .rsp → t.regs r = .addr 8 := by
  have hcompiles : (compile (countingLoop 0 1).toNode).isSome := by decide
  obtain ⟨code, hcode⟩ := Option.isSome_iff_exists.mp hcompiles
  refine ⟨code, hcode, fun E => ?_⟩
  obtain ⟨hconforms, hreturns⟩ := compile_calling_convention (E := E)
    (s := ⟨fun _ => .addr 8, none, fun _ => .word 0, 0, []⟩) hcode rfl rfl rfl
  refine ⟨hconforms, fun t hstops => ?_⟩
  obtain ⟨hrsp, hregs, -⟩ := hreturns t hstops
  exact ⟨hrsp, hregs⟩

end Convention

end Basic
