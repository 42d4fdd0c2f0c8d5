import CS24.Basic.CompileExpr

/-!
# The compiler is correct

Running the code of a program does what the reference interpreter says: it prints
the same words, ends with the same variables where the interpreter ends, traps where
a division has no value, and runs for ever, printing the same, where no fuel is
enough.  The proof follows the interpreter: what the code of a statement does, for
each result that the interpreter can have, is `Follows`.
-/

namespace Basic

open Machine X86

section Conditions

variable {prog : Code} {E : External} {vars : VarName → Word} {a b : Int} {s : State}

/-- A condition is never folded. -/
theorem fold_condition (c : Cond) (v : Word) : fold c.toNode ≠ some ⟨true, v⟩ := by
  intro h
  obtain ⟨l, -, h⟩ := bind_eq_some h
  obtain ⟨r, -, h⟩ := bind_eq_some h
  split at h
  · cases hop : c.op <;> rw [hop] at h <;> cases h
  · cases h

/-- **Conditions.** The code of a condition leaves the flags of its operands, or a
division in it traps. -/
theorem condition_runs {c : Cond} {ids ids' : Ids} {code : Code}
    (h : compileAst c.toNode ids = some (code, ids')) (hf : Frame b a vars s)
    (hcode : CodeAt prog s.pc code) :
    (∃ x y t, c.eval vars = some (c.op.holds x y) ∧ Runs (step prog E) 1 s t ∧
        t.pc = s.pc + code.length ∧ t.flags = some (Flags.sub x y) ∧ s.Keeps a t) ∨
      (c.eval vars = none ∧ ∃ t, Stops (step prog E) s (.divideError t) ∧ s.KeepsStack a t) := by
  rcases compileAst_eq h with ⟨v, hfold, -⟩ | ⟨v, hfold⟩
  · exact absurd hfold (fold_condition c v)
  · obtain ⟨rightCode, j, leftCode, hright, hleft, rfl⟩ := compileAst_binaryOp hfold h
    have hcmp : operation c.op.char c.right.toNode = [.cmp .r10 .rdi] := by
      cases c.op <;> rfl
    rw [hcmp] at hcode ⊢
    rw [Cond.eval]
    rcases operands_run (compileAst_computes c.right hright) (compileAst_computes c.left hleft) hf
      hcode.left with ⟨x, y, t, hx, hy, hruns, hpc, hrdi, hr10, hk⟩ | ⟨hnone, hstops⟩
    · rw [hx, hy]
      let u : State := { t with flags := some (Flags.sub x y), pc := t.pc + 1 }
      have hcode' : CodeAt prog t.pc [Instr.cmp .r10 .rdi] := hpc ▸ hcode.right
      have hstep : Runs (step prog E) 1 t u := by
        apply hcode'.runs
        rw [Instr.run, State.word_eq hr10, State.word_eq hrdi]
        rfl
      refine .inl ⟨x, y, u, rfl, (hruns.trans hstep).mono (by omega), ?_, rfl, hk.trans ?_⟩
      · change t.pc + 1 = _
        simp only [hpc, List.length_append, List.length_singleton, Nat.add_assoc]
      · exact ⟨⟨fun _ _ => rfl, rfl⟩, fun _ _ => rfl⟩
    · refine .inr ⟨?_, hstops⟩
      rcases hnone with hl | hr
      · rw [hl]
        rfl
      · rw [hr]
        cases c.left.eval vars <;> rfl

/-- The jump of an `IF` is taken if the condition holds. -/
theorem ifJump_eq (op : CompOp) (id : Nat) :
    ∃ cond, ifJump op.char id = [.jcc cond (.if id)] ∧
      ∀ x y, cond.holds (Flags.sub x y) = op.holds x y := by
  cases op with
  | lt => exact ⟨.l, rfl, Cond.holds_l⟩
  | eq => exact ⟨.e, rfl, Cond.holds_e⟩
  | gt => exact ⟨.g, rfl, Cond.holds_g⟩

/-- The jump of a `WHILE` is taken if the condition does not hold. -/
theorem whileJump_eq (op : CompOp) (id : Nat) :
    ∃ cond, whileJump op.char id = [.jcc cond (.endWhile id)] ∧
      ∀ x y, cond.holds (Flags.sub x y) = !op.holds x y := by
  cases op with
  | lt => exact ⟨.ge, rfl, Cond.holds_ge⟩
  | eq => exact ⟨.ne, rfl, Cond.holds_ne⟩
  | gt => exact ⟨.le, rfl, Cond.holds_le⟩

end Conditions

/-! ## Statements -/

section Statements

variable {prog : Code} {E : External} {base s t : State} {b : Int} {store : Store}
  {fuel : Nat} {pc : Nat} {f g : Store → Result} {code code' : Code}

/-- The machine represents a store: the variables are in the frame at `b`, and what
has to be preserved is as it was in `base`. -/
structure Represents (base : State) (b : Int) (store : Store) (s : State) : Prop
    extends Frame b (b - 26 * 8) store.vars s where
  output : s.output = store.output
  saved : ∀ r, r.callerSaved = false → s.regs r = base.regs r
  above : ∀ q, b ≤ q → s.mem q = base.mem q

/-- What leaves the frame alone keeps the variables where they are. -/
theorem Represents.keeps (h : Represents base b store s) (hk : s.Keeps (b - 26 * 8) t) :
    Represents base b store t where
  toFrame := h.toFrame.keeps hk
  output := hk.output.trans h.output
  saved r hr := (hk.saved r hr).trans (h.saved r hr)
  above q hq := (hk.stack q (by omega)).trans (h.above q hq)

/-- The state at the end of a run shows a store. -/
structure Shows (b : Int) (store : Store) (s : State) : Prop where
  vars : ∀ x, s.mem (b + offset x.char) = .word (store.vars x)
  output : s.output = store.output

/-- What a state with the variables in its frame leads to shows their values. -/
theorem Represents.shows (h : Represents base b store s) (hk : s.KeepsStack (b - 26 * 8) t) :
    Shows b store t where
  vars x := by
    have hoffset := x.offset_bounds
    rw [hk.stack _ (by omega)]
    exact h.vars x
  output := hk.output.trans h.output

/-- From `s` on, the machine does what the result says, and reaches `pc` if it is a
store; if the fuel was used up, it has taken as many steps. -/
def Follows (prog : Code) (E : External) (base : State) (b : Int) (fuel : Nat) (s : State)
    (pc : Nat) : Result → Prop
  | .done store => ∃ t, Runs (step prog E) 0 s t ∧ t.pc = pc ∧ Represents base b store t
  | .trap store => ∃ t, Stops (step prog E) s (.divideError t) ∧ Shows b store t
  | .timeout output => ∃ t, Runs (step prog E) fuel s t ∧ t.output = output

/-- What runs into a state that follows does too, and its steps count. -/
theorem Follows.after {r : Result} {n m : Nat} (hruns : Runs (step prog E) n s t)
    (h : Follows prog E base b fuel t pc r) (hm : m ≤ n + fuel) :
    Follows prog E base b m s pc r := by
  cases r with
  | done store =>
      obtain ⟨u, hu, hrest⟩ := h
      exact ⟨u, (hruns.trans hu).mono (Nat.zero_le _), hrest⟩
  | trap store =>
      obtain ⟨u, hu, hrest⟩ := h
      exact ⟨u, hruns.stops hu, hrest⟩
  | timeout output =>
      obtain ⟨u, hu, hrest⟩ := h
      exact ⟨u, (hruns.trans hu).mono hm, hrest⟩

/-- Sequencing: the second part follows from every state that the first ends in. -/
theorem Follows.bind {r : Result} {pc' : Nat} (h : Follows prog E base b fuel s pc r)
    (hg : ∀ store t, t.pc = pc → Represents base b store t →
      Follows prog E base b fuel t pc' (g store)) :
    Follows prog E base b fuel s pc' (r.bind g) := by
  cases r with
  | done store =>
      obtain ⟨t, hruns, hpc, ht⟩ := h
      exact (hg store t hpc ht).after hruns (by omega)
  | trap store => exact h
  | timeout output => exact h

/-- The code does what the function on stores says. -/
def Executes (prog : Code) (E : External) (base : State) (b : Int) (fuel : Nat) (code : Code)
    (f : Store → Result) : Prop :=
  ∀ s store, Represents base b store s → CodeAt prog s.pc code →
    Follows prog E base b fuel s (s.pc + code.length) (f store)

/-- Codes that execute two statements execute them one after the other. -/
theorem Executes.append (hf : Executes prog E base b fuel code f)
    (hg : Executes prog E base b fuel code' g) :
    Executes prog E base b fuel (code ++ code') fun store => (f store).bind g := by
  intro s store hs hcode
  refine (hf s store hs hcode.left).bind fun store' t hpc ht => ?_
  have h := hg t store' ht (hpc ▸ hcode.right)
  rwa [hpc, Nat.add_assoc, ← List.length_append] at h

/-- The empty code does nothing. -/
theorem executes_nil : Executes prog E base b fuel [] .done :=
  fun s _ hs _ => ⟨s, Runs.refl, rfl, hs⟩

/-- `PRINT` -/
theorem executes_print {expr : Expr} {ids ids' : Ids}
    (h : compileAst expr.toNode ids = some (code, ids')) :
    Executes prog E base b fuel (code ++ [.call]) (Stmt.run fuel (.print expr)) := by
  intro s store hs hcode
  have heval := compileAst_computes (E := E) expr h s _ b hs.toFrame hcode.left
  rw [Stmt.run]
  cases hv : expr.eval store.vars with
  | none =>
      rw [hv] at heval
      obtain ⟨t, hstops, hk⟩ := heval
      exact ⟨t, hstops, hs.shows hk⟩
  | some v =>
      rw [hv] at heval
      obtain ⟨t, hruns, hpc, hrdi, hk⟩ := heval
      have ht := hs.keeps hk
      have hcall : CodeAt prog t.pc [Instr.call] := hpc ▸ hcode.right
      let u : State :=
        { regs := fun r => if r.callerSaved then (E t).1 r else t.regs r
          flags := none
          mem := fun q => if q < b - 26 * 8 then (E t).2 q else t.mem q
          pc := t.pc + 1
          output := t.output ++ [v] }
      have hstep : Runs (step prog E) 1 t u := by
        apply hcall.runs
        rw [Instr.run, State.word_eq hrdi, State.addr_eq ht.rsp]
        rfl
      have hstack (q : Int) (hq : b - 26 * 8 ≤ q) : u.mem q = t.mem q := if_neg (by omega)
      have hsaved (r : Reg) (hr : r.callerSaved = false) : u.regs r = t.regs r := by
        simp [u, hr]
      refine ⟨u, (hruns.trans hstep).mono (Nat.zero_le _), ?_, ?_⟩
      · change t.pc + 1 = _
        simp only [hpc, List.length_append, List.length_singleton, Nat.add_assoc]
      · refine ⟨⟨(hsaved .rbp rfl).trans ht.rbp, (hsaved .rsp rfl).trans ht.rsp, ht.below, ?_⟩,
          ?_, ?_, ?_⟩
        · intro x
          have hoffset := x.offset_bounds
          rw [hstack _ (by omega)]
          exact ht.vars x
        · change t.output ++ [v] = store.output ++ [v]
          rw [ht.output]
        · intro r hr
          rw [hsaved r hr, ht.saved r hr]
        · intro q hq
          rw [hstack q (by omega), ht.above q hq]

/-- `LET` -/
theorem executes_let {x : VarName} {value : Expr} {ids ids' : Ids}
    (h : compileAst value.toNode ids = some (code, ids')) :
    Executes prog E base b fuel (code ++ [.store .rdi (offset x.char) .rbp])
      (Stmt.run fuel (.let x value)) := by
  intro s store hs hcode
  have heval := compileAst_computes (E := E) value h s _ b hs.toFrame hcode.left
  rw [Stmt.run]
  cases hv : value.eval store.vars with
  | none =>
      rw [hv] at heval
      obtain ⟨t, hstops, hk⟩ := heval
      exact ⟨t, hstops, hs.shows hk⟩
  | some v =>
      rw [hv] at heval
      obtain ⟨t, hruns, hpc, hrdi, hk⟩ := heval
      have ht := hs.keeps hk
      have hstore : CodeAt prog t.pc [Instr.store .rdi (offset x.char) .rbp] := hpc ▸ hcode.right
      let u := (t.write (b + offset x.char) (.word v)).next
      have hstep : Runs (step prog E) 1 t u := by
        apply hstore.runs
        rw [Instr.run, State.addr_eq ht.rbp, hrdi]
        rfl
      have hoffset := x.offset_bounds
      refine ⟨u, (hruns.trans hstep).mono (Nat.zero_le _), ?_, ?_⟩
      · change t.pc + 1 = _
        simp only [hpc, List.length_append, List.length_singleton, Nat.add_assoc]
      · refine ⟨⟨ht.rbp, ht.rsp, ht.below, ?_⟩, ht.output, ht.saved, ?_⟩
        · intro y
          change u.mem _ = .word (Function.update store.vars x v y)
          by_cases hy : y = x
          · subst hy
            rw [Function.update_self]
            exact State.write_mem_self
          · rw [Function.update_of_ne hy]
            have hne : (y : Nat) ≠ x := fun h => hy (Fin.ext h)
            have hapart : 8 ≤ |b + offset y.char - (b + offset x.char)| := by
              rw [offset_char, offset_char, le_abs]
              omega
            exact (State.write_mem_apart hapart).trans (ht.vars y)
        · intro q hq
          have hapart : 8 ≤ |q - (b + offset x.char)| := by
            rw [le_abs]
            omega
          exact (State.write_mem_apart hapart).trans (ht.above q hq)

/-- `IF`, from its parts. -/
theorem executes_if {c : Cond} {ids j : Ids} {id : Nat} {conditionCode elseCode ifCode : Code}
    (hprog : (labels prog).Nodup)
    (hcondition : compileAst c.toNode ids = some (conditionCode, j))
    (helse : Executes prog E base b fuel elseCode g)
    (hif : Executes prog E base b fuel ifCode f) :
    Executes prog E base b fuel
      (conditionCode ++ ifJump c.op.char id ++ elseCode ++
        [.jmp (.endIf id), .label (.if id)] ++ ifCode ++ [.jmp (.endIf id), .label (.endIf id)])
      (fun store => match c.eval store.vars with
        | none => .trap store
        | some true => f store
        | some false => g store) := by
  intro s store hs hcode
  obtain ⟨cond, hjump, hcond⟩ := ifJump_eq c.op id
  rw [hjump] at hcode ⊢
  have hCondition := hcode.left.left.left.left.left
  have hJump := hcode.left.left.left.left.right
  have hElse := hcode.left.left.left.right
  have hMiddle := hcode.left.left.right
  have hIf := hcode.left.right
  have hEnd := hcode.right
  simp only [List.length_append, List.length_cons, List.length_nil] at hJump hElse hMiddle hIf hEnd ⊢
  -- both branches end with a jump to the last label
  have hleave (store' : Store) (t : State) (ht : Represents base b store' t)
      (hjmp : CodeAt prog t.pc [.jmp (.endIf id), .label (.endIf id)] ∨
        CodeAt prog t.pc [.jmp (.endIf id), .label (.if id)]) :
      Follows prog E base b fuel t (s.pc + (conditionCode.length + (0 + 1) + elseCode.length +
        (0 + 1 + 1) + ifCode.length + (0 + 1 + 1))) (.done store') := by
    obtain ⟨l, hjmp⟩ : ∃ l, CodeAt prog t.pc [.jmp (.endIf id), l] := by
      rcases hjmp with h | h
      · exact ⟨_, h⟩
      · exact ⟨_, h⟩
    have h1 := CodeAt.runs_past (hjmp.runs_jmp (E := E) hprog hEnd.tail) hEnd.tail
    refine ⟨_, h1.mono (Nat.zero_le _), ?_, ht.keeps State.keeps_pc⟩
    change _ + 1 = _
    omega
  rcases condition_runs hcondition hs.toFrame hCondition with
    ⟨x, y, t, heval, hruns, hpc, hflags, hk⟩ | ⟨hnone, t, hstops, hk⟩
  · have ht := hs.keeps hk
    rw [← hpc] at hJump
    rw [heval]
    cases hholds : c.op.holds x y with
    | true =>
        have h1 := CodeAt.runs_past (hJump.runs_jcc (E := E) hprog hflags
          ((hcond x y).trans hholds) hMiddle.tail) hMiddle.tail
        refine Follows.after (hruns.trans h1) ?_ (Nat.le_add_left _ _)
        rw [← Result.bind_done (f store)]
        refine (hif _ store (ht.keeps State.keeps_pc) (hIf.cast ?_)).bind ?_
        · change _ = _ + 1
          omega
        · intro store' u hpc' hu
          refine hleave store' u hu (.inl (hEnd.cast ?_))
          rw [hpc']
          change _ = _ + 1 + _
          omega
    | false =>
        have h1 := hJump.runs_jcc_next (E := E) hflags ((hcond x y).trans hholds)
        refine Follows.after (hruns.trans h1) ?_ (Nat.le_add_left _ _)
        rw [← Result.bind_done (g store)]
        refine (helse t.next store (ht.keeps State.Keeps.refl.next) (hElse.cast ?_)).bind ?_
        · change _ = t.pc + 1
          omega
        · intro store' u hpc' hu
          refine hleave store' u hu (.inr (hMiddle.cast ?_))
          rw [hpc']
          change _ = t.pc + 1 + _
          omega
  · rw [hnone]
    exact ⟨t, hstops, hs.shows hk⟩

/-- `WHILE`, from its parts, by induction on the turns that are left. -/
theorem executes_while {c : Cond} {ids j : Ids} {id : Nat} {conditionCode bodyCode : Code}
    (hprog : (labels prog).Nodup)
    (hcondition : compileAst c.toNode ids = some (conditionCode, j))
    (hbody : Executes prog E base b fuel bodyCode f) :
    Executes prog E base b fuel
      ([.label (.while id)] ++ conditionCode ++ whileJump c.op.char id ++ bodyCode ++
        [.jmp (.while id), .label (.endWhile id)])
      (loop c f fuel) := by
  intro s store hs hcode
  obtain ⟨cond, hjump, hcond⟩ := whileJump_eq c.op id
  rw [hjump] at hcode ⊢
  have hLabel := hcode.left.left.left.left
  have hCondition := hcode.left.left.left.right
  have hJump := hcode.left.left.right
  have hBody := hcode.left.right
  have hEnd := hcode.right
  simp only [List.length_append, List.length_cons, List.length_nil] at hCondition hJump hBody hEnd ⊢
  generalize hpc : s.pc = pc at *
  suffices hturns : ∀ turns ≤ fuel, ∀ s store, s.pc = pc → Represents base b store s →
      Follows prog E base b turns s (pc + (0 + 1 + conditionCode.length + (0 + 1) +
        bodyCode.length + (0 + 1 + 1))) (loop c f turns store) from
    hturns fuel (le_refl _) s store hpc hs
  clear hpc hs s store hcode
  intro turns
  induction turns with
  | zero =>
      intro _ s store _ hs
      exact ⟨s, Runs.refl, hs.output⟩
  | succ turns ih =>
      intro hle s store hpc hs
      subst hpc
      have h0 := hLabel.runs_label (E := E)
      have hs1 : Represents base b store s.next := hs.keeps State.Keeps.refl.next
      rw [loop]
      rcases condition_runs hcondition hs1.toFrame hCondition with
        ⟨x, y, t, heval, hruns, hpc, hflags, hk⟩ | ⟨hnone, t, hstops, hk⟩
      · have ht := hs1.keeps hk
        have hJump' : CodeAt prog t.pc [.jcc cond (.endWhile id)] := by
          rw [hpc, State.next_pc, Nat.add_assoc, ← Nat.zero_add 1]
          exact hJump
        rw [heval]
        cases hholds : c.op.holds x y with
        | false =>
            have h1 := CodeAt.runs_past (hJump'.runs_jcc (E := E) hprog hflags
              (by rw [hcond, hholds]; rfl) hEnd.tail) hEnd.tail
            refine ⟨_, ((h0.trans hruns).trans h1).mono (Nat.zero_le _), ?_, ht.keeps State.keeps_pc⟩
            change _ + 1 = _
            omega
        | true =>
            have h1 := hJump'.runs_jcc_next (E := E) hflags (by rw [hcond, hholds]; rfl)
            have hpc1 : t.next.pc = s.pc + (0 + 1 + conditionCode.length + (0 + 1)) := by
              rw [State.next_pc, hpc, State.next_pc]
              omega
            have hbody' := hbody t.next store (ht.keeps State.Keeps.refl.next)
              (hpc1 ▸ hBody)
            have hbody'' : Follows prog E base b turns t.next _ (f store) :=
              hbody'.after Runs.refl (by omega)
            refine Follows.after (m := turns + 1) ((h0.trans hruns).trans h1) (hbody''.bind ?_)
              (by omega)
            intro store' u hpc' hu
            have hEnd' : CodeAt prog u.pc [.jmp (.while id), .label (.endWhile id)] := by
              rw [hpc', hpc1, Nat.add_assoc]
              exact hEnd
            have hback := hEnd'.runs_jmp (E := E) hprog hLabel
            exact (ih (by omega) { u with pc := s.pc } store' rfl
              (hu.keeps State.keeps_pc)).after hback (Nat.le_add_left _ _)
      · rw [hnone]
        exact ⟨t, h0.stops hstops, hs1.shows hk⟩

mutual

/-- **Statements.** The code of a statement does what the interpreter says. -/
theorem compileAst_executes {stmt : Stmt} {ids ids' : Ids} {code : Code}
    (hprog : (labels prog).Nodup) (h : compileAst stmt.toNode ids = some (code, ids')) :
    Executes prog E base b fuel code (stmt.run fuel) := by
  match stmt, h with
  | .print expr, h =>
      obtain ⟨c, hc, rfl⟩ := compileAst_print h
      exact executes_print hc
  | .let x value, h =>
      obtain ⟨c, hc, rfl⟩ := compileAst_let h
      exact executes_let hc
  | .if condition ifBranch elseBranch, h =>
      obtain ⟨conditionCode, j, op, elseCode, k, ifCode, hcondition, hop, -, helse, hif,
        rfl⟩ := compileAst_if h
      cases hop
      exact executes_if hprog hcondition (compileElse_executes hprog helse)
        (compileAst_executes hprog hif)
  | .while condition body, h =>
      obtain ⟨conditionCode, j, op, bodyCode, -, hcondition, hop, hbody, rfl⟩ :=
        compileAst_while h
      cases hop
      exact executes_while hprog hcondition (compileAst_executes hprog hbody)
  | .sequence statements, h => exact compileAll_executes hprog h

/-- The code of an `ELSE` branch executes it. -/
theorem compileElse_executes {stmt : Option Stmt} {ids ids' : Ids} {code : Code}
    (hprog : (labels prog).Nodup) (h : compileElse (Stmt.toNode? stmt) ids = some (code, ids')) :
    Executes prog E base b fuel code (Stmt.run? fuel stmt) := by
  match stmt, h with
  | none, h =>
      cases h
      exact executes_nil
  | some stmt, h =>
      have hstmt : compileAst stmt.toNode ids = some (code, ids') := h
      exact compileAst_executes hprog hstmt

/-- By induction on the statements. -/
theorem compileAll_executes {stmts : List Stmt} {ids ids' : Ids} {code : Code}
    (hprog : (labels prog).Nodup) (h : compileAll (Stmt.toNodes stmts) ids = some (code, ids')) :
    Executes prog E base b fuel code (Stmt.runAll fuel stmts) := by
  match stmts, h with
  | [], h =>
      cases h
      exact executes_nil
  | stmt :: stmts, h =>
      obtain ⟨c, j, rest, hc, hrest, rfl⟩ := compileAll_cons h
      exact (compileAst_executes hprog hc).append (compileAll_executes hprog hrest)

end

end Statements

/-! ## Programs -/

section Programs

variable {code : Code} {E : External} {vars : VarName → Word} {a : Int} {s : State}

/-- `basic_main` is called with the return address at `a`; below it are the slots of
the variables. -/
structure Entry (vars : VarName → Word) (a : Int) (s : State) : Prop where
  pc : s.pc = 0
  rsp : s.regs .rsp = .addr a
  vars : ∀ x, s.mem (a - 8 + offset x.char) = .word (vars x)

/-- The header makes the frame. -/
theorem header_runs (hs : Entry vars a s) (hcode : CodeAt code 0 header) :
    ∃ base, Runs (step code E) 3 s base ∧ base.pc = header.length ∧
      Represents base (a - 8) ⟨vars, s.output⟩ base := by
  let s1 := ((s.write (a - 8) (s.regs .rbp)).set .rsp (.addr (a - 8))).next
  let s2 := (s1.set .rbp (.addr (a - 8))).next
  let s3 : State := { s2.set .rsp (.addr (a - 8 - 26 * 8)) with flags := none, pc := s2.pc + 1 }
  have h0 : CodeAt code s.pc header := hs.pc ▸ hcode
  have h1 : Runs (step code E) 1 s s1 := h0.runs (by rw [Instr.run, State.addr_eq hs.rsp]; rfl)
  have h2 : Runs (step code E) 1 s1 s2 := h0.tail.runs (s := s1) rfl
  have h3 : Runs (step code E) 1 s2 s3 := h0.tail.tail.runs (s := s2) rfl
  refine ⟨s3, (h1.trans h2).trans h3, ?_, ⟨rfl, rfl, le_refl _, fun x => ?_⟩, rfl,
    fun _ _ => rfl, fun _ _ => rfl⟩
  · change s.pc + 1 + 1 + 1 = 3
    rw [hs.pc]
  · have hoffset := x.offset_bounds
    have hapart : 8 ≤ |a - 8 + offset x.char - (a - 8)| := by
      rw [le_abs]
      omega
    exact (State.write_mem_apart hapart).trans (hs.vars x)

/-- The footer drops the frame and returns. -/
theorem footer_returns {base : State} {store : Store} (hs : Represents base (a - 8) store s)
    (hcode : CodeAt code s.pc footer) :
    ∃ t, Stops (step code E) s (.returned t) ∧ Shows (a - 8) store t := by
  let s1 : State := { s.set .rsp (.addr (a - 8)) with flags := none, pc := s.pc + 1 }
  let s2 := ((s1.set .rsp (.addr (a - 8 + 8))).set .rbp (s.mem (a - 8))).next
  have h1 : Runs (step code E) 1 s s1 := by
    apply hcode.runs
    rw [Instr.run, State.addr_eq hs.rsp]
    change Except.ok _ = _
    rw [sub_add_cancel]
  have h2 : Runs (step code E) 1 s1 s2 := hcode.tail.runs (s := s1) rfl
  have h3 : step code E s2 = .error (.returned (s2.set .rsp (.addr (a - 8 + 8 + 8)))) :=
    (hcode.tail.tail.step_eq (s := s2)).trans rfl
  exact ⟨_, (h1.trans h2).stops (Stops.single h3), hs.vars, hs.output⟩

/-- How a run ends, for each result but `timeout`. -/
def Ends (b : Int) : Result → Stop → Prop
  | .done store, .returned t => Shows b store t
  | .trap store, .divideError t => Shows b store t
  | _, _ => False

/-- A result is a verdict, or the output that was made before the fuel was used up. -/
def Result.verdict : Result → Result ⊕ List Word
  | .timeout output => .inr output
  | r => .inl r

/-- The run of a program from its entry follows the interpreter. -/
theorem compile_followedBy {stmt : Stmt} (hcode : compile stmt.toNode = some code)
    (hs : Entry vars a s) :
    FollowedBy (step code E) s (Ends (a - 8)) (fun output t => t.output = output)
      fun fuel => (stmt.run fuel ⟨vars, s.output⟩).verdict := by
  intro fuel
  have hprog := compile_labels_nodup hcode
  obtain ⟨c, ids, hc, hcode'⟩ := compile_eq hcode
  have hall : CodeAt code 0 (header ++ c ++ footer) := ⟨[], [], by simp [hcode'], rfl⟩
  obtain ⟨base, hruns, hpc, hbase⟩ := header_runs (E := E) hs hall.left.left
  have hbody : CodeAt code base.pc c := by
    rw [hpc, ← Nat.zero_add header.length]
    exact hall.left.right
  have hexecutes : Executes code E base (a - 8) fuel c (stmt.run fuel) :=
    compileAst_executes hprog hc
  have hfollows := hexecutes base _ hbase hbody
  cases hr : stmt.run fuel ⟨vars, s.output⟩ with
  | done store =>
      rw [hr] at hfollows
      obtain ⟨t, ht, hpct, hrep⟩ := hfollows
      have hfooter : CodeAt code t.pc footer := by
        rw [hpct, hpc, ← List.length_append, ← Nat.zero_add (header ++ c).length]
        exact hall.right
      obtain ⟨u, hstops, hshows⟩ := footer_returns (E := E) hrep hfooter
      exact .inl ⟨.done store, .returned u, congrArg Result.verdict hr,
        (hruns.trans ht).stops hstops, hshows⟩
  | trap store =>
      rw [hr] at hfollows
      obtain ⟨t, ht, hshows⟩ := hfollows
      exact .inl ⟨.trap store, .divideError t, congrArg Result.verdict hr, hruns.stops ht, hshows⟩
  | timeout output =>
      rw [hr] at hfollows
      obtain ⟨t, ht, hout⟩ := hfollows
      exact .inr ⟨output, t, congrArg Result.verdict hr, (hruns.trans ht).mono (by omega), hout⟩

/-- A state shows one store. -/
theorem Shows.unique {b : Int} {store store' : Store} {t : State} (h : Shows b store t)
    (h' : Shows b store' t) : store = store' := by
  obtain ⟨vars, output⟩ := store
  obtain ⟨vars', output'⟩ := store'
  have hvars : vars = vars' := by
    funext x
    exact Value.word.inj ((h.vars x).symm.trans (h'.vars x))
  have houtput : output = output' := h.output.symm.trans h'.output
  rw [hvars, houtput]

/-- A verdict is the output of the machine at its stop. -/
theorem Ends.output {b : Int} {r : Result} {stop : Stop} (h : Ends b r stop) :
    stop.state.output = r.output := by
  cases r <;> cases stop <;> first | exact Shows.output h | exact False.elim h

/-- What the machine has printed after `n` steps. -/
def printed (code : Code) (E : External) (n : Nat) (s : State) : List Word :=
  observe (step code E) State.output (fun r => r.state.output) n s

/-- From its entry the code does what the interpreter does: it ends in the same stores, stops
at the same divisions, runs for ever when it does, is never stuck and prints the same. -/
structure Behaves (stmt : Stmt) (code : Code) (E : External) (vars : VarName → Word) (a : Int)
    (s : State) : Prop where
  done : ∀ store, (∃ fuel, stmt.run fuel ⟨vars, s.output⟩ = .done store) ↔
    ∃ t, Stops (step code E) s (.returned t) ∧ Shows (a - 8) store t
  trap : ∀ store, (∃ fuel, stmt.run fuel ⟨vars, s.output⟩ = .trap store) ↔
    ∃ t, Stops (step code E) s (.divideError t) ∧ Shows (a - 8) store t
  diverges : (∀ fuel, ∃ output, stmt.run fuel ⟨vars, s.output⟩ = .timeout output) ↔
    ∀ n, ∃ t, exec (step code E) n s = .ok t
  notStuck : ∀ t, ¬ Stops (step code E) s (.stuck t)
  output : ∀ out, (∃ fuel, out <+: (stmt.run fuel ⟨vars, s.output⟩).output) ↔
    ∃ n, out <+: printed code E n s

/-- **The compiled program behaves as the statement does.** Each end of the interpreter is an end
of the machine, and the other way round as the machine is deterministic; where no fuel is enough,
no number of steps is. -/
theorem compile_behaves {stmt : Stmt} (hcode : compile stmt.toNode = some code)
    (hs : Entry vars a s) : Behaves stmt code E vars a s := by
  have hfollows := compile_followedBy (E := E) hcode hs
  refine ⟨fun store => ⟨?_, ?_⟩, fun store => ⟨?_, ?_⟩, ?_, ?_, fun out => ?_⟩
  · rintro ⟨fuel, hr⟩
    have hv : (stmt.run fuel ⟨vars, s.output⟩).verdict = .inl (.done store) :=
      congrArg Result.verdict hr
    obtain ⟨stop, hstops, hends⟩ := hfollows.stops_of_verdict hv
    cases stop with
    | returned t => exact ⟨t, hstops, hends⟩
    | divideError t | stuck t => exact False.elim hends
  · rintro ⟨t, hstops, hshows⟩
    obtain ⟨fuel, r, hr, hends⟩ := hfollows.verdict_of_stops hstops
    cases hrun : stmt.run fuel ⟨vars, s.output⟩ with
    | done store' =>
        rw [hrun] at hr
        cases hr
        rw [hshows.unique hends]
        exact ⟨fuel, hrun⟩
    | trap store' =>
        rw [hrun] at hr
        cases hr
        exact False.elim hends
    | timeout output =>
        rw [hrun] at hr
        cases hr
  · rintro ⟨fuel, hr⟩
    have hv : (stmt.run fuel ⟨vars, s.output⟩).verdict = .inl (.trap store) :=
      congrArg Result.verdict hr
    obtain ⟨stop, hstops, hends⟩ := hfollows.stops_of_verdict hv
    cases stop with
    | divideError t => exact ⟨t, hstops, hends⟩
    | returned t | stuck t => exact False.elim hends
  · rintro ⟨t, hstops, hshows⟩
    obtain ⟨fuel, r, hr, hends⟩ := hfollows.verdict_of_stops hstops
    cases hrun : stmt.run fuel ⟨vars, s.output⟩ with
    | trap store' =>
        rw [hrun] at hr
        cases hr
        rw [hshows.unique hends]
        exact ⟨fuel, hrun⟩
    | done store' =>
        rw [hrun] at hr
        cases hr
        exact False.elim hends
    | timeout output =>
        rw [hrun] at hr
        cases hr
  · rw [← hfollows.diverges_iff]
    refine forall_congr' fun fuel => exists_congr fun output => ?_
    cases stmt.run fuel ⟨vars, s.output⟩ <;> simp [Result.verdict]
  · intro t hstops
    obtain ⟨fuel, r, -, hends⟩ := hfollows.verdict_of_stops hstops
    cases r <;> exact False.elim hends
  · unfold printed
    rw [← hfollows.shows_iff (fun s t => step_ok_output) (fun s r => step_error_output)
      (A := Result.output) (B := id) (fun r stop h => h.output) (fun _ _ h => h)]
    refine exists_congr fun fuel => ?_
    cases stmt.run fuel ⟨vars, s.output⟩ <;> rfl

/-- **Compiler correctness.** A program from its entry, whatever an external call leaves
in the registers that it need not preserve and below the stack: it returns with a store
if and only if the interpreter ends in that store with some fuel; it stops at a division
if and only if the interpreter does, with the same store; it runs for ever if and only
if no fuel is enough; it is never stuck; and what it prints, finite prefix by finite
prefix, is what the interpreter prints. -/
theorem compile_correct {stmt : Stmt} (hcode : compile stmt.toNode = some code)
    (hs : Entry vars a s) :
    (∀ store, (∃ fuel, stmt.run fuel ⟨vars, s.output⟩ = .done store) ↔
      ∃ t, Stops (step code E) s (.returned t) ∧ Shows (a - 8) store t) ∧
    (∀ store, (∃ fuel, stmt.run fuel ⟨vars, s.output⟩ = .trap store) ↔
      ∃ t, Stops (step code E) s (.divideError t) ∧ Shows (a - 8) store t) ∧
    ((∀ fuel, ∃ output, stmt.run fuel ⟨vars, s.output⟩ = .timeout output) ↔
      ∀ n, ∃ t, exec (step code E) n s = .ok t) ∧
    (∀ t, ¬ Stops (step code E) s (.stuck t)) ∧
    ∀ out, (∃ fuel, out <+: (stmt.run fuel ⟨vars, s.output⟩).output) ↔
      ∃ n, out <+: printed code E n s := by
  have h : Behaves stmt code E vars a s := compile_behaves hcode hs
  exact ⟨h.done, h.trap, h.diverges, h.notStuck, h.output⟩

end Programs

/-- `LET B = 6 / A` and `PRINT B`, with a zero in `A`: the interpreter traps, and so does
the code. -/
theorem compile_correct_division :
    ∃ code, compile (Stmt.sequence [.let 1 (.binary .div (.num 6) (.var 0)),
      .print (.var 1)]).toNode = some code ∧
      ∀ E, ∃ t, Stops (step code E)
        ⟨fun _ => .addr 0, none, fun _ => .word 0, 0, []⟩ (.divideError t) ∧
        Shows (-8) ⟨fun _ => 0, []⟩ t := by
  refine ⟨_, rfl, fun E => ?_⟩
  have hentry : Entry (fun _ => 0) 0 ⟨fun _ => .addr 0, none, fun _ => .word 0, 0, []⟩ :=
    ⟨rfl, rfl, fun _ => rfl⟩
  have hcode : compile (Stmt.sequence [.let 1 (.binary .div (.num 6) (.var 0)),
      .print (.var 1)]).toNode = some _ := rfl
  have hcorrect := compile_correct (E := E) hcode hentry
  exact (hcorrect.2.1 ⟨fun _ => 0, []⟩).mp ⟨0, rfl⟩

end Basic
