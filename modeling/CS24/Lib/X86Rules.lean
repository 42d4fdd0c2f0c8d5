import CS24.Lib.X86

/-!
# Rules for x86-64 programs

What the conditional jumps decide behind a comparison, what a division gives, where
a piece of code stands in a program and where its jumps go, and what straight-line
code leaves unchanged.
-/

namespace X86

open Machine

/-! ## Conditions -/

/-- Two words are equal if their difference is zero. -/
theorem Flags.sub_zf (a b : Word) : (Flags.sub a b).zf = decide (a = b) := by
  have h : a - b = 0 ↔ a = b := by
    constructor
    · intro h
      have := BitVec.sub_add_cancel a b
      rw [h] at this
      simpa using this.symm
    · rintro rfl
      exact BitVec.sub_self a
  simp only [Flags.sub, h]

/-- The sign of the difference, corrected by the overflow, is the sign of the
difference of the signed values. -/
theorem Flags.sub_sf_of (a b : Word) :
    ((Flags.sub a b).sf != (Flags.sub a b).of) = decide (a.toInt < b.toInt) := by
  have ha := a.toInt_lt
  have ha' := a.le_toInt
  have hb := b.toInt_lt
  have hb' := b.le_toInt
  simp only [Flags.sub, BitVec.msb_eq_toInt, BitVec.toInt_sub, Int.bmod_def]
  by_cases h : a.toInt < b.toInt
  · simp [h]
    split <;> omega
  · simp [h]
    split <;> omega

/-- What the conditions say behind `cmp a b`: equal, -/
theorem Cond.holds_e (a b : Word) : Cond.e.holds (Flags.sub a b) = decide (a = b) :=
  Flags.sub_zf a b

/-- not equal, -/
theorem Cond.holds_ne (a b : Word) : Cond.ne.holds (Flags.sub a b) = !decide (a = b) := by
  rw [Cond.holds, Flags.sub_zf]

/-- less, -/
theorem Cond.holds_l (a b : Word) : Cond.l.holds (Flags.sub a b) = decide (a.toInt < b.toInt) :=
  Flags.sub_sf_of a b

/-- not less, -/
theorem Cond.holds_ge (a b : Word) : Cond.ge.holds (Flags.sub a b) = !decide (a.toInt < b.toInt) := by
  rw [← Flags.sub_sf_of, Cond.holds, bne, Bool.not_not]

/-- not greater, -/
theorem Cond.holds_le (a b : Word) : Cond.le.holds (Flags.sub a b) = !decide (b.toInt < a.toInt) := by
  rw [Cond.holds, Flags.sub_zf, Flags.sub_sf_of]
  have h : decide (a = b) = decide (a.toInt = b.toInt) :=
    decide_eq_decide.mpr BitVec.toInt_inj.symm
  rw [h]
  by_cases h1 : a.toInt < b.toInt <;> by_cases h2 : b.toInt < a.toInt <;> simp [h1, h2] <;> omega

/-- and greater, all with signs. -/
theorem Cond.holds_g (a b : Word) : Cond.g.holds (Flags.sub a b) = decide (b.toInt < a.toInt) := by
  have h : Cond.g.holds (Flags.sub a b) = !Cond.le.holds (Flags.sub a b) := by
    simp [Cond.holds, bne]
  rw [h, holds_le, Bool.not_not]

/-! ## Division -/

/-- `cqo` keeps the value. -/
theorem toInt_signExtend_append (a : Word) :
    ((if a.msb then (-1 : Word) else 0) ++ a).toInt = a.toInt := by
  have h := BitVec.signExtend_eq_append_of_le (w := 64) (v := 128) (x := a) (by omega)
  have h' : ((if a.msb then (-1 : Word) else 0) ++ a) = a.signExtend 128 := by
    rw [h]
    cases a.msb <;> rfl
  rw [h', BitVec.toInt_signExtend_of_le (by omega)]

/-- Signed division of a word by a word, where the quotient is a word. -/
def quotient (a b : Word) : Option Word :=
  if b = 0 ∨ (a = BitVec.intMin 64 ∧ b = -1) then none else some (a.sdiv b)

/-- `idiv` behind `cqto` leaves the quotient in `rax`, or there is none. -/
theorem divide_fst (a b : Word) :
    (divide a (if a.msb then -1 else 0) b).map Prod.fst = quotient a b := by
  rw [divide, toInt_signExtend_append, quotient]
  by_cases hb : b = 0
  · simp [hb]
  by_cases h : a = BitVec.intMin 64 ∧ b = -1
  · obtain ⟨rfl, rfl⟩ := h
    decide
  · have hq := BitVec.toInt_sdiv_of_ne_or_ne a b (by tauto)
    have hlt := (a.sdiv b).toInt_lt
    have hle := (a.sdiv b).le_toInt
    rw [if_neg, if_neg (by tauto)]
    · simp only [Option.map_some, ← hq, BitVec.ofInt_toInt]
    · rw [← hq]
      rintro (h0 | h0 | h0)
      · exact hb h0
      · omega
      · omega

/-! ## Code inside a program -/

section Code

variable {L : Type*} {prog c c' : List (Instr L)} {i : Instr L} {pc : Nat} {l : L}

/-- The code `c` stands at `pc`. -/
def CodeAt (prog : List (Instr L)) (pc : Nat) (c : List (Instr L)) : Prop :=
  ∃ front back, prog = front ++ c ++ back ∧ front.length = pc

/-- The first part of the code is there, -/
theorem CodeAt.left (h : CodeAt prog pc (c ++ c')) : CodeAt prog pc c := by
  obtain ⟨front, back, rfl, hpc⟩ := h
  exact ⟨front, c' ++ back, by simp, hpc⟩

/-- and the second part is behind it. -/
theorem CodeAt.right (h : CodeAt prog pc (c ++ c')) : CodeAt prog (pc + c.length) c' := by
  obtain ⟨front, back, rfl, hpc⟩ := h
  exact ⟨front ++ c, back, by simp, by simp [hpc]⟩

/-- The code behind the first instruction. -/
theorem CodeAt.tail (h : CodeAt prog pc (i :: c)) : CodeAt prog (pc + 1) c :=
  CodeAt.right (c := [i]) h

/-- The first instruction of the code. -/
theorem CodeAt.head (h : CodeAt prog pc (i :: c)) : prog[pc]? = some i := by
  obtain ⟨front, back, rfl, rfl⟩ := h
  simp

/-- The same place, written in another way. -/
theorem CodeAt.cast {pc' : Nat} (h : CodeAt prog pc c) (hpc : pc = pc') : CodeAt prog pc' c :=
  hpc ▸ h

/-- The labels that a piece of code defines. -/
def labels (c : List (Instr L)) : List L :=
  c.filterMap fun i => match i with
    | .label l => some l
    | _ => none

/-- The labels of two parts, -/
theorem labels_append : labels (c ++ c') = labels c ++ labels c' := List.filterMap_append

/-- The labels that a piece of code jumps to. -/
def targets (c : List (Instr L)) : List L :=
  c.filterMap fun i => match i with
    | .jmp l => some l
    | .jcc _ l => some l
    | _ => none

/-- their targets -/
theorem targets_append : targets (c ++ c') = targets c ++ targets c' := List.filterMap_append

/-- The code defines the label or jumps to it. -/
def Names (c : List (Instr L)) (l : L) : Prop := l ∈ labels c ∨ l ∈ targets c

/-- and what they name. -/
theorem names_append : Names (c ++ c') l ↔ Names c l ∨ Names c' l := by
  simp only [Names, labels_append, targets_append, List.mem_append]
  tauto

/-- No label is in both pieces of code. -/
def Apart (c c' : List (Instr L)) : Prop := ∀ l, Names c l → ¬Names c' l

/-- A label that is defined once is found where it stands. -/
theorem CodeAt.resolve_eq [DecidableEq L] (hprog : (labels prog).Nodup)
    (h : CodeAt prog pc (.label l :: c)) : resolve prog l = some pc := by
  obtain ⟨front, back, rfl, rfl⟩ := h
  have hfront : ∀ i ∈ front, i ≠ .label l := by
    rintro i hi rfl
    have hmem : l ∈ labels front := List.mem_filterMap.mpr ⟨.label l, hi, rfl⟩
    rw [labels_append, labels_append, List.append_assoc] at hprog
    exact (List.nodup_append.mp hprog).2.2 l hmem l (by simp [labels]) rfl
  rw [resolve, List.append_assoc, List.findIdx?_append, List.findIdx?_eq_none_iff.mpr]
  · simp [List.findIdx?_cons]
  · intro i hi
    cases i with
    | label l' =>
        have hne := hfront _ hi
        simpa using fun h : l' = l => hne (by rw [h])
    | _ => rfl

end Code

/-! ## What is left unchanged -/

/-- `t` has the stack of `s` from `a` on, and nothing was printed. -/
structure State.KeepsStack (a : Int) (s t : State) : Prop where
  stack : ∀ b, a ≤ b → t.mem b = s.mem b
  output : t.output = s.output

/-- `t` also has the preserved registers of `s`. -/
structure State.Keeps (a : Int) (s t : State) : Prop extends s.KeepsStack a t where
  saved : ∀ r, r.callerSaved = false → t.regs r = s.regs r

namespace State

variable {a a' : Int} {s t u : State} {r : Reg} {v : Value} {w : Word}

/-- What two steps keep of the stack is kept, -/
theorem KeepsStack.trans (h : s.KeepsStack a t) (h' : t.KeepsStack a u) : s.KeepsStack a u where
  stack b hb := (h'.stack b hb).trans (h.stack b hb)
  output := h'.output.trans h.output

/-- no step keeps everything, -/
theorem Keeps.refl : s.Keeps a s := ⟨⟨fun _ _ => rfl, rfl⟩, fun _ _ => rfl⟩

/-- and what two steps keep is kept. -/
theorem Keeps.trans (h : s.Keeps a t) (h' : t.Keeps a u) : s.Keeps a u where
  toKeepsStack := h.toKeepsStack.trans h'.toKeepsStack
  saved r hr := (h'.saved r hr).trans (h.saved r hr)

/-- A register that the caller saves may be written, -/
theorem keeps_set (hr : r.callerSaved = true) : s.Keeps a (s.set r v) where
  saved r' hr' := if_neg (by rintro rfl; rw [hr] at hr'; cases hr')
  stack _ _ := rfl
  output := rfl

/-- by arithmetic too. -/
theorem keeps_arith (hr : r.callerSaved = true) : s.Keeps a (s.arith r w) where
  saved r' hr' := if_neg (by rintro rfl; rw [hr] at hr'; cases hr')
  stack _ _ := rfl
  output := rfl

/-- So may the program counter. -/
theorem Keeps.next (h : s.Keeps a t) : s.Keeps a t.next := ⟨⟨h.stack, h.output⟩, h.saved⟩

@[simp] theorem set_regs (r' : Reg) : (s.set r v).regs r' = if r' = r then v else s.regs r' := rfl

@[simp] theorem set_mem : (s.set r v).mem = s.mem := rfl

@[simp] theorem set_pc : (s.set r v).pc = s.pc := rfl

@[simp] theorem set_output : (s.set r v).output = s.output := rfl

@[simp] theorem set_flags : (s.set r v).flags = s.flags := rfl

@[simp] theorem arith_regs (r' : Reg) :
    (s.arith r w).regs r' = if r' = r then .word w else s.regs r' := rfl

@[simp] theorem arith_mem : (s.arith r w).mem = s.mem := rfl

@[simp] theorem arith_pc : (s.arith r w).pc = s.pc := rfl

@[simp] theorem arith_output : (s.arith r w).output = s.output := rfl

@[simp] theorem next_regs : s.next.regs = s.regs := rfl

@[simp] theorem next_mem : s.next.mem = s.mem := rfl

@[simp] theorem next_pc : s.next.pc = s.pc + 1 := rfl

@[simp] theorem next_output : s.next.output = s.output := rfl

@[simp] theorem next_flags : s.next.flags = s.flags := rfl

@[simp] theorem write_regs : (s.write a v).regs = s.regs := rfl

@[simp] theorem write_pc : (s.write a v).pc = s.pc := rfl

@[simp] theorem write_output : (s.write a v).output = s.output := rfl

@[simp] theorem write_mem_self : (s.write a v).mem a = v := if_pos rfl

/-- Eight bytes away from a write. -/
theorem write_mem_apart (h : 8 ≤ |a' - a|) : (s.write a v).mem a' = s.mem a' := by
  have hne : a' ≠ a := by
    rintro rfl
    simp at h
  rw [write]
  simp only
  rw [if_neg hne, if_neg (by omega)]

/-- A register with a word in it is read as that word, -/
@[simp] theorem word_eq (h : s.regs r = .word w) : s.word r = .ok w := by rw [word, h]

/-- and one with an address as that address. -/
@[simp] theorem addr_eq (h : s.regs r = .addr a) : s.addr r = .ok a := by rw [addr, h]

end State

section Steps

variable {L : Type*} [DecidableEq L] {prog c : List (Instr L)} {i : Instr L} {E : External}
  {s t : State}

/-- The next step runs the instruction that is there. -/
theorem CodeAt.step_eq (h : CodeAt prog s.pc (i :: c)) : step prog E s = i.run prog E s := by
  rw [step, h.head]

/-- An instruction that leads to a state. -/
theorem CodeAt.runs (h : CodeAt prog s.pc (i :: c)) (hrun : i.run prog E s = .ok t) :
    Runs (step prog E) 1 s t := Runs.single (h.step_eq.trans hrun)

/-- A label does nothing. -/
theorem CodeAt.runs_label {l : L} (h : CodeAt prog s.pc (.label l :: c)) :
    Runs (step prog E) 1 s s.next := h.runs rfl

/-- A jump to a label that is defined once. -/
theorem CodeAt.runs_jmp {l : L} {c' : List (Instr L)} {pc : Nat} (hprog : (labels prog).Nodup)
    (h : CodeAt prog s.pc (.jmp l :: c)) (hl : CodeAt prog pc (.label l :: c')) :
    Runs (step prog E) 1 s { s with pc } := by
  apply h.runs
  rw [Instr.run, jump, hl.resolve_eq hprog]

/-- A division with a quotient `q` and a remainder `r`. -/
theorem run_idiv {src : Reg} {a b d : Word} {qr : Word × Word} (hb : s.word src = .ok b)
    (ha : s.word .rax = .ok a) (hd : s.word .rdx = .ok d) (h : divide a d b = some qr) :
    (Instr.idiv src).run prog E s = .ok ((s.arith .rax qr.1).set .rdx (.word qr.2)).next := by
  rw [Instr.run, hb, ha, hd]
  dsimp only [bind, Except.bind]
  rw [h]

/-- A division without a result traps. -/
theorem run_idiv_none {src : Reg} {a b d : Word} (hb : s.word src = .ok b)
    (ha : s.word .rax = .ok a) (hd : s.word .rdx = .ok d) (h : divide a d b = none) :
    (Instr.idiv src).run prog E s = .error (.divideError s) := by
  rw [Instr.run, hb, ha, hd]
  dsimp only [bind, Except.bind]
  rw [h]

/-- A conditional jump looks at the flags. -/
theorem run_jcc {l : L} {cond : Cond} {f : Flags} (hf : s.flags = some f) :
    (Instr.jcc cond l).run prog E s = if cond.holds f then jump prog l s else .ok s.next := by
  rw [Instr.run, hf]

/-- One whose condition holds goes to its label. -/
theorem CodeAt.runs_jcc {l : L} {c' : List (Instr L)} {pc : Nat} {cond : Cond} {f : Flags}
    (hprog : (labels prog).Nodup) (h : CodeAt prog s.pc (.jcc cond l :: c))
    (hf : s.flags = some f) (hcond : cond.holds f = true)
    (hl : CodeAt prog pc (.label l :: c')) : Runs (step prog E) 1 s { s with pc } := by
  apply h.runs
  rw [run_jcc hf, if_pos hcond, jump, hl.resolve_eq hprog]

/-- A conditional jump that is not taken. -/
theorem CodeAt.runs_jcc_next {l : L} {cond : Cond} {f : Flags}
    (h : CodeAt prog s.pc (.jcc cond l :: c)) (hf : s.flags = some f)
    (hcond : cond.holds f = false) : Runs (step prog E) 1 s s.next := by
  apply h.runs
  rw [run_jcc hf, if_neg (by simp [hcond])]

/-- A jump goes on behind the label. -/
theorem CodeAt.runs_past {l : L} {c : List (Instr L)} {pc : Nat}
    (hjump : Runs (step prog E) 1 s { s with pc }) (hl : CodeAt prog pc (.label l :: c)) :
    Runs (step prog E) 2 s { s with pc := pc + 1 } :=
  hjump.trans (CodeAt.runs_label (s := { s with pc }) hl)

/-- A jump keeps registers and stack. -/
theorem State.keeps_pc {a : Int} {pc : Nat} : s.Keeps a { s with pc } :=
  ⟨⟨fun _ _ => rfl, rfl⟩, fun _ _ => rfl⟩

end Steps

/-! ## Output -/

section Output

variable {L : Type*} [DecidableEq L] {prog : List (Instr L)} {E : External} {s t : State}

/-- A register has a word, or the machine is stuck. -/
theorem State.word_cases (s : State) (r : Reg) :
    (∃ w, s.word r = .ok w) ∨ s.word r = .error (.stuck s) := by
  unfold State.word
  split
  · exact .inl ⟨_, rfl⟩
  · exact .inr rfl

/-- The same for addresses. -/
theorem State.addr_cases (s : State) (r : Reg) :
    (∃ a, s.addr r = .ok a) ∨ s.addr r = .error (.stuck s) := by
  unfold State.addr
  split
  · exact .inl ⟨_, rfl⟩
  · exact .inr rfl

/-- The state that a step leads to or stops in. -/
def result : Except Stop State → State
  | .ok t => t
  | .error r => r.state

/-- A jump prints nothing. -/
theorem jump_output (l : L) : (result (jump prog l s)).output = s.output := by
  unfold jump
  split <;> rfl

/-- Instructions only add to the output. -/
theorem run_output (i : Instr L) : s.output <+: (result (i.run prog E s)).output := by
  have hword := s.word_cases
  have haddr := s.addr_cases
  cases i with
  | movImm imm dst | mov src dst | label l => exact List.prefix_rfl
  | load offset base dst | store src offset base =>
      rcases haddr base with ⟨a, h⟩ | h <;> rw [Instr.run, h] <;> exact List.prefix_rfl
  | push src | pop src | ret =>
      rcases haddr .rsp with ⟨a, h⟩ | h <;> rw [Instr.run, h] <;> exact List.prefix_rfl
  | addImm imm dst | subImm imm dst =>
      rcases haddr dst with ⟨a, h⟩ | h <;> rw [Instr.run, h] <;> exact List.prefix_rfl
  | add src dst | sub src dst | imul src dst | cmp src dst =>
      rcases hword src with ⟨b, h⟩ | h
      · rcases hword dst with ⟨a, h'⟩ | h' <;> rw [Instr.run, h, h'] <;> exact List.prefix_rfl
      · rw [Instr.run, h]
        exact List.prefix_rfl
  | shl count dst =>
      rcases hword dst with ⟨a, h⟩ | h <;> rw [Instr.run, h] <;> exact List.prefix_rfl
  | cqto =>
      rcases hword .rax with ⟨a, h⟩ | h <;> rw [Instr.run, h] <;> exact List.prefix_rfl
  | idiv src =>
      rcases hword src with ⟨b, h⟩ | h
      · rcases hword .rax with ⟨a, h'⟩ | h'
        · rcases hword .rdx with ⟨d, h''⟩ | h''
          · cases hdivide : divide a d b with
            | none =>
                rw [run_idiv_none h h' h'' hdivide]
                exact List.prefix_rfl
            | some qr =>
                rw [run_idiv h h' h'' hdivide]
                exact List.prefix_rfl
          · rw [Instr.run, h, h', h'']
            exact List.prefix_rfl
        · rw [Instr.run, h, h']
          exact List.prefix_rfl
      · rw [Instr.run, h]
        exact List.prefix_rfl
  | jcc cond l =>
      rw [Instr.run]
      split
      · split
        · rw [jump_output]
        · exact List.prefix_rfl
      · exact List.prefix_rfl
  | jmp l => rw [Instr.run, jump_output]
  | call =>
      rcases hword .rdi with ⟨w, h⟩ | h
      · rcases haddr .rsp with ⟨a, h'⟩ | h'
        · rw [Instr.run, h, h']
          exact List.prefix_append _ _
        · rw [Instr.run, h, h']
          exact List.prefix_rfl
      · rw [Instr.run, h]
        exact List.prefix_rfl

/-- What has been printed stays printed. -/
theorem step_output : s.output <+: (result (step prog E s)).output := by
  unfold step
  split
  · exact run_output _
  · exact List.prefix_rfl

/-- A step that leads to a state only adds to the output. -/
theorem step_ok_output (h : step prog E s = .ok t) : s.output <+: t.output := by
  have hout : s.output <+: (result (step prog E s)).output := step_output
  rwa [h] at hout

/-- So does a step that stops. -/
theorem step_error_output {r : Stop} (h : step prog E s = .error r) :
    s.output <+: r.state.output := by
  have hout : s.output <+: (result (step prog E s)).output := step_output
  rwa [h] at hout

end Output

end X86
