import CS24.JVM.Execute
import CS24.Lib.System

/-!
# Depth-typed classes run within their stacks and locals

A class is depth-typed when every method has a map from the starts of its
instructions to operand-stack depths that fits what each instruction does to the
stack.  In a run of such a class each activation stands at a mapped instruction
with as many operands as the map says, and each activation that waits for a
callee will have as many operands as the map says once the callee returns.  So
`stack_push` and `stack_pop` never fail their assertions, and no access leaves
the locals or the code.
-/

namespace JVM

open Checked System

/-! ## Depth types -/

/-- The number of bytes behind the opcode that `execute` reads. -/
def Instruction.operandBytes : Instruction → Nat
  | bipush | ldc | iload | aload | istore | astore | newarray => 1
  | sipush | iinc | ifCond _ | ifIcmp _ | goto | invokestatic => 2
  | _ => 0

/-- How far an instruction that does not jump moves `pc`. -/
def Instruction.width : Instruction → Nat
  | bipush | ldc | iload | aload | istore | astore | newarray => 2
  | sipush | iinc | getstatic | invokevirtual => 3
  | _ => 1

/-- The operands an instruction pops; `invokestatic` also pops the arguments. -/
def Instruction.pops : Instruction → Nat
  | istore | astore | istore_ _ | astore_ _ | dup | ineg | ifCond _ | ireturn | areturn
  | invokevirtual | newarray | arraylength => 1
  | iaload | binary _ | ifIcmp _ => 2
  | iastore => 3
  | _ => 0

/-- The operands an instruction pushes; `invokestatic` pushes what is returned. -/
def Instruction.pushes : Instruction → Nat
  | iconst _ | bipush | sipush | ldc | iload | aload | iload_ _ | aload_ _ | iaload | binary _
  | ineg | newarray | arraylength => 1
  | dup => 2
  | _ => 0

/-- The depth types of a class: for each method, whether it returns a value, and
the depth at each instruction start. -/
structure Typing where
  returns : Method → Bool
  depth : Method → Nat → Option Nat

namespace Typing

variable (T : Typing) (c : ClassFile) (m : Method)

/-- The method may go on at `pc` with `k` operands: at an instruction of that
depth, or behind the code, where `execute` returns without a value. -/
def Goes (pc k : Nat) : Prop :=
  T.depth m pc = some k ∨ (m.code.code.length ≤ pc ∧ k ≤ m.code.maxStack ∧ T.returns m = false)

/-- The local that an instruction at `pc` addresses. -/
def localIndex (pc : Nat) : Instruction → Option Nat
  | .iload | .aload | .istore | .astore | .iinc => m.code.code[pc + 1]?.map UInt8.toNat
  | .iload_ i | .aload_ i | .istore_ i | .astore_ i => some i
  | _ => none

/-- Where an instruction at `pc` leads, when `k` operands were there and its own
are popped. -/
def Flows (pc k : Nat) : Instruction → Prop
  | .ifCond _ | .ifIcmp _ => T.Goes m (Frame.target pc 3) k ∧
      ∀ b1 b2, m.code.code[pc + 1]? = some b1 → m.code.code[pc + 2]? = some b2 →
        T.Goes m (Frame.target pc (displacement b1 b2)) k
  | .goto => ∀ b1 b2, m.code.code[pc + 1]? = some b1 → m.code.code[pc + 2]? = some b2 →
      T.Goes m (Frame.target pc (displacement b1 b2)) k
  | .ireturn | .areturn => T.returns m = true
  | .return => T.returns m = false
  | .invokestatic => ∀ b1 b2, m.code.code[pc + 1]? = some b1 → m.code.code[pc + 2]? = some b2 →
      ∃ callee parameters, findMethodFromIndex (unsignedPair b1 b2) c = .ok callee ∧
        getNumberOfParameters callee = .ok parameters ∧ parameters ≤ callee.code.maxLocals ∧
        parameters ≤ k ∧
        T.Goes m (Frame.target pc 3) (k - parameters + (T.returns callee).toNat)
  | i => T.Goes m (Frame.target pc i.width) (k + i.pushes)

/-- The instruction at `pc` is one `execute` handles, has its operand bytes inside
the code, addresses a local of the method, finds its operands, and leads to
mapped instructions. -/
structure InstructionOk (pc k : Nat) : Prop where
  le_maxStack : k ≤ m.code.maxStack
  instruction : ∃ b i, m.code.code[pc]? = some b ∧ decode b = some i ∧
    pc + i.operandBytes < m.code.code.length ∧
    (∀ j ∈ localIndex m pc i, j < m.code.maxLocals) ∧
    i.pops ≤ k ∧ T.Flows c m pc (k - i.pops) i

/-- The depth map of the method fits its code. -/
structure MethodOk : Prop where
  start : T.depth m 0 = some 0
  mapped : ∀ pc k, T.depth m pc = some k → T.InstructionOk c m pc k

end Typing

/-- **Depth-typed classes.** -/
def DepthTyped (T : Typing) (c : ClassFile) : Prop := ∀ m ∈ c.methods, T.MethodOk c m

/-! ## What the operations of a frame promise -/

/-- The faults that are not about stacks, locals or code. -/
def Fault.Elsewhere : Fault → Prop
  | stackOverflow | stackUnderflow | localsOutOfBounds | codeOutOfBounds => False
  | _ => True

/-- The frame belongs to `m`, stands at `pc` and has `k` operands. -/
structure At (m : Method) (pc k : Nat) (f : Frame) : Prop where
  method : f.method = m
  pc : f.pc = pc
  stack : f.stack.length = k

section FrameRules

variable {m : Method} {pc k i : Nat} {f : Frame} {v : Word} {d : Int} {b : UInt8}

/-- A push leaves the stack one deeper if there is room, -/
theorem At.push (h : At m pc k f) (hk : k < m.code.maxStack) :
    Safe Fault.Elsewhere (At m pc (k + 1)) (f.push v) := by
  obtain ⟨rfl, rfl, rfl⟩ := h
  rw [Frame.push, if_pos hk]
  exact ⟨rfl, rfl, rfl⟩

/-- and a pop one less deep if there is a value. -/
theorem At.pop (h : At m pc (k + 1) f) :
    Safe Fault.Elsewhere (fun r => At m pc k r.2) f.pop := by
  obtain ⟨rfl, rfl, hk⟩ := h
  unfold Frame.pop
  split
  · rename_i item rest hs
    rw [hs] at hk
    exact ⟨rfl, rfl, by simpa using hk⟩
  · rename_i hs
    rw [hs] at hk
    cases hk

/-- An operand that is in the code is read. -/
theorem At.byte (h : At m pc k f) (hi : m.code.code[pc + i]? = some b) :
    Safe Fault.Elsewhere (fun b' => b' = b) (f.byte i) := by
  obtain ⟨rfl, rfl, rfl⟩ := h
  rw [Frame.byte, hi]
  exact rfl

/-- A local variable that the method has is read -/
theorem At.load (h : At m pc k f) (hi : i < m.code.maxLocals) :
    Safe Fault.Elsewhere (fun _ => True) (f.load i) := by
  obtain ⟨rfl, rfl, rfl⟩ := h
  unfold Frame.load
  rw [Vector.getElem?_eq_getElem hi]
  trivial

/-- and written. -/
theorem At.store (h : At m pc k f) (hi : i < m.code.maxLocals) :
    Safe Fault.Elsewhere (At m pc k) (f.store i v) := by
  obtain ⟨rfl, rfl, rfl⟩ := h
  rw [Frame.store, dif_pos hi]
  exact ⟨rfl, rfl, rfl⟩

/-- A jump leaves the stack as it is. -/
theorem At.jump (h : At m pc k f) : At m (Frame.target pc d) k (f.jump d) := by
  obtain ⟨rfl, rfl, rfl⟩ := h
  exact ⟨rfl, rfl, rfl⟩

/-- An operation stops at most at a division, -/
theorem safe_apply (op : BinaryOp) (a b : Word) :
    Safe Fault.Elsewhere (fun _ => True) (op.apply a b) := by
  cases op <;> simp only [BinaryOp.apply] <;>
    first | exact trivial | (split <;> exact trivial)

/-- a constant at most at an entry of another kind, -/
theorem safe_poolWord (pool : List Constant) (b : UInt8) :
    Safe Fault.Elsewhere (fun _ => True) (poolWord pool b) := by
  unfold poolWord
  split
  · trivial
  · split
    · split <;> trivial
    · trivial

/-- and an array at most at a wrong reference -/
theorem safe_get (heap : Heap) (ref : Word) :
    Safe Fault.Elsewhere (fun _ => True) (heap.get ref) := by
  unfold Heap.get
  split
  · split <;> trivial
  · trivial

/-- or outside of it. -/
theorem safe_cell (array : List Word) (index : Word) :
    Safe Fault.Elsewhere (fun _ => True) (cell array index) := by
  rw [cell]
  exact Safe.ite (fun _ => trivial) (fun _ => trivial)

end FrameRules

/-! ## What an instruction promises -/

section Instructions

variable {T : Typing} {c : ClassFile} {m : Method} {pc k : Nat} {f : Frame}
  {fresh : (n : Nat) → Vector Word n} {heap : Heap} {output : List Word}

/-- Mapped depths fit the stack. -/
theorem Typing.Goes.le_maxStack (hm : T.MethodOk c m) (h : T.Goes m pc k) :
    k ≤ m.code.maxStack := by
  rcases h with h | ⟨-, h, -⟩
  · exact (hm.mapped pc k h).le_maxStack
  · exact h

/-- The activation is where its depth map lets it be. -/
def Typing.Ready (T : Typing) (f : Frame) : Prop := T.Goes f.method f.pc f.stack.length

/-- The activation waits for `callee`: with what that returns, the depth map lets
it go on behind the call. -/
def Typing.Waits (T : Typing) (callee : Method) (f : Frame) : Prop :=
  T.Goes f.method (Frame.target f.pc 3) (f.stack.length + (T.returns callee).toNat)

/-- An effect of an activation of `m` that the depth maps allow. -/
def Typing.Allows (T : Typing) (c : ClassFile) (m : Method) : Effect → Prop
  | .continue f _ _ => f.method = m ∧ T.Ready f
  | .call caller callee => caller.method = m ∧ T.Waits callee.method caller ∧
      callee.method ∈ c.methods ∧ callee.pc = 0 ∧ callee.stack = []
  | .return value => value.isSome = T.returns m

/-- Where the typing goes on, so does the method. -/
theorem At.goes_on {d : Int} (h : At m pc k f) (hgoes : T.Goes m (Frame.target pc d) k) :
    T.Allows c m (.continue (f.jump d) heap output) := by
  have hjump := h.jump (d := d)
  refine ⟨hjump.method, ?_⟩
  rw [Typing.Ready, hjump.method, hjump.pc, hjump.stack]
  exact hgoes

/-- A taken or untaken branch. -/
theorem At.branches {b1 b2 : UInt8} (h : At m pc k f) (taken : Bool)
    (hnext : T.Goes m (Frame.target pc 3) k)
    (hjump : T.Goes m (Frame.target pc (displacement b1 b2)) k) :
    T.Allows c m (.continue (branch f taken b1 b2) heap output) := by
  cases taken with
  | false => exact h.goes_on hnext
  | true => exact h.goes_on hjump

/-- The last step of the instructions that push a result. -/
theorem At.push_goes_on {d : Int} {v : Word} (hm : T.MethodOk c m) (h : At m pc k f)
    (hgoes : T.Goes m (Frame.target pc d) (k + 1)) :
    Safe Fault.Elsewhere (T.Allows c m) (do
      let f ← f.push v
      .ok (.continue (f.jump d) heap output)) := by
  apply (h.push (hgoes.le_maxStack hm)).bind
  intro f' h'
  exact Safe.ok (h'.goes_on hgoes)

/-- The arguments are popped into the first locals of the callee. -/
theorem At.bindArguments {n : Nat} {callee : Frame} (hn : n ≤ k) (h : At m pc k f)
    (hlocals : n ≤ callee.method.code.maxLocals) :
    Safe Fault.Elsewhere (fun r => At m pc (k - n) r.1 ∧ r.2.method = callee.method ∧
      r.2.pc = callee.pc ∧ r.2.stack = callee.stack) (bindArguments n f callee) := by
  induction n generalizing k f callee with
  | zero => exact ⟨h, rfl, rfl, rfl⟩
  | succ n ih =>
      obtain ⟨k, rfl⟩ : ∃ k', k = k' + 1 := ⟨k - 1, by omega⟩
      apply h.pop.bind
      rintro ⟨item, f1⟩ h1
      have hstore : Safe Fault.Elsewhere (fun callee' : Frame => callee'.method = callee.method ∧
          callee'.pc = callee.pc ∧ callee'.stack = callee.stack) (callee.store n item) := by
        rw [Frame.store, dif_pos (by omega)]
        exact ⟨rfl, rfl, rfl⟩
      apply hstore.bind
      rintro callee' ⟨hmethod, hpc, hstack⟩
      have hlocals' : n ≤ callee'.method.code.maxLocals := by
        rw [hmethod]
        omega
      refine (ih (by omega) h1 hlocals').mono ?_
      rintro r ⟨hr, h2, h3, h4⟩
      refine ⟨?_, h2.trans hmethod, h3.trans hpc, h4.trans hstack⟩
      rwa [Nat.add_sub_add_right]

/-- An operand byte inside the code. -/
theorem At.byte_lt {j : Nat} (h : At m pc k f) (hj : pc + j < m.code.code.length) :
    Safe Fault.Elsewhere (fun b => m.code.code[pc + j]? = some b) (f.byte j) := by
  have hb := List.getElem?_eq_getElem hj
  exact (h.byte hb).mono fun b hb' => by rw [hb, hb']

/-- **Instructions.** In an activation where the depth map says how many operands
there are, an instruction ends in an effect that the depth maps allow. -/
theorem execute_safe {i : Instruction} (hm : T.MethodOk c m) (h : At m pc (k + i.pops) f)
    (hbytes : pc + i.operandBytes < m.code.code.length)
    (hlocal : ∀ j ∈ Typing.localIndex m pc i, j < m.code.maxLocals)
    (hflow : T.Flows c m pc k i) :
    Safe Fault.Elsewhere (T.Allows c m) (execute c fresh f heap output i) := by
  cases i with
  | nop => exact Safe.ok (h.goes_on hflow)
  | iconst offset => exact h.push_goes_on hm hflow
  | bipush =>
      apply (h.byte_lt hbytes).bind
      intro b _
      exact h.push_goes_on hm hflow
  | sipush =>
      apply (h.byte_lt (Nat.lt_of_succ_lt hbytes)).bind
      intro b1 _
      apply (h.byte_lt hbytes).bind
      intro b2 _
      exact h.push_goes_on hm hflow
  | ldc =>
      apply (h.byte_lt hbytes).bind
      intro b _
      apply (safe_poolWord c.constantPool b).bind
      intro item _
      exact h.push_goes_on hm hflow
  | iload | aload =>
      apply (h.byte_lt hbytes).bind
      intro j hj
      apply (h.load (hlocal j.toNat (congrArg (Option.map UInt8.toNat) hj))).bind
      intro v _
      exact h.push_goes_on hm hflow
  | iload_ j | aload_ j =>
      apply (h.load (hlocal j rfl)).bind
      intro v _
      exact h.push_goes_on hm hflow
  | istore | astore =>
      apply (h.byte_lt hbytes).bind
      intro j hj
      apply h.pop.bind
      rintro ⟨a, f1⟩ h1
      apply (At.store h1 (hlocal j.toNat (congrArg (Option.map UInt8.toNat) hj))).bind
      intro f2 h2
      exact Safe.ok (h2.goes_on hflow)
  | istore_ j | astore_ j =>
      apply h.pop.bind
      rintro ⟨a, f1⟩ h1
      apply (At.store h1 (hlocal j rfl)).bind
      intro f2 h2
      exact Safe.ok (h2.goes_on hflow)
  | iinc =>
      apply (h.byte_lt (Nat.lt_of_succ_lt hbytes)).bind
      intro j hj
      apply (h.byte_lt hbytes).bind
      intro b _
      have hj' := hlocal j.toNat (congrArg (Option.map UInt8.toNat) hj)
      apply (h.load hj').bind
      intro v _
      apply (h.store hj').bind
      intro f1 h1
      exact Safe.ok (h1.goes_on hflow)
  | dup =>
      apply h.pop.bind
      rintro ⟨a, f1⟩ h1
      apply (At.push h1 (Nat.lt_of_succ_lt (hflow.le_maxStack hm))).bind
      intro f2 h2
      exact h2.push_goes_on hm hflow
  | binary op =>
      apply h.pop.bind
      rintro ⟨b, f1⟩ h1
      apply (At.pop h1).bind
      rintro ⟨a, f2⟩ h2
      apply (safe_apply op a b).bind
      intro v _
      exact At.push_goes_on hm h2 hflow
  | ineg =>
      apply h.pop.bind
      rintro ⟨a, f1⟩ h1
      exact At.push_goes_on hm h1 hflow
  | ifCond cond =>
      apply (h.byte_lt (Nat.lt_of_succ_lt hbytes)).bind
      intro b1 hb1
      apply (h.byte_lt hbytes).bind
      intro b2 hb2
      apply h.pop.bind
      rintro ⟨a, f1⟩ h1
      exact Safe.ok (At.branches h1 _ hflow.1 (hflow.2 b1 b2 hb1 hb2))
  | ifIcmp cond =>
      apply (h.byte_lt (Nat.lt_of_succ_lt hbytes)).bind
      intro b1 hb1
      apply (h.byte_lt hbytes).bind
      intro b2 hb2
      apply h.pop.bind
      rintro ⟨b, f1⟩ h1
      apply (At.pop h1).bind
      rintro ⟨a, f2⟩ h2
      exact Safe.ok (At.branches h2 _ hflow.1 (hflow.2 b1 b2 hb1 hb2))
  | goto =>
      apply (h.byte_lt (Nat.lt_of_succ_lt hbytes)).bind
      intro b1 hb1
      apply (h.byte_lt hbytes).bind
      intro b2 hb2
      exact Safe.ok (h.goes_on (hflow b1 b2 hb1 hb2))
  | ireturn | areturn =>
      apply h.pop.bind
      rintro ⟨a, f1⟩ -
      exact Safe.ok hflow.symm
  | «return» => exact Safe.ok hflow.symm
  | getstatic => exact Safe.ok (h.goes_on hflow)
  | invokevirtual =>
      apply h.pop.bind
      rintro ⟨item, f1⟩ h1
      exact Safe.ok (At.goes_on h1 hflow)
  | invokestatic =>
      apply (h.byte_lt (Nat.lt_of_succ_lt hbytes)).bind
      intro b1 hb1
      apply (h.byte_lt hbytes).bind
      intro b2 hb2
      obtain ⟨callee, n, hcallee, hn, hlocals, hargs, hgoes⟩ := hflow b1 b2 hb1 hb2
      apply Safe.bind_of_eq hcallee
      apply Safe.bind_of_eq hn
      have hframe : n ≤ (Frame.mk callee (fresh callee.code.maxLocals) [] 0).method.code.maxLocals :=
        hlocals
      apply (h.bindArguments hargs hframe).bind
      rintro ⟨f1, f2⟩ ⟨h1, hmethod, hpc, hstack⟩
      obtain ⟨hmethod1, hpc1, hstack1⟩ := h1
      refine Safe.ok ⟨hmethod1, ?_, ?_, hpc, hstack⟩
      · rw [Typing.Waits, hmethod1, hpc1, hstack1, hmethod]
        exact hgoes
      · rw [hmethod]
        exact findMethodFromIndex_mem hcallee
  | newarray =>
      apply (h.byte_lt hbytes).bind
      intro b _
      apply h.pop.bind
      rintro ⟨count, f1⟩ h1
      apply Safe.ite
      · intro _
        exact At.push_goes_on hm h1 hflow
      · intro _
        exact Safe.error trivial
  | arraylength =>
      apply h.pop.bind
      rintro ⟨ref, f1⟩ h1
      apply (safe_get heap ref).bind
      intro array _
      cases array with
      | nil => exact Safe.error trivial
      | cons count cells => exact At.push_goes_on hm h1 hflow
  | iastore =>
      apply h.pop.bind
      rintro ⟨value, f1⟩ h1
      apply (At.pop h1).bind
      rintro ⟨index, f2⟩ h2
      apply (At.pop h2).bind
      rintro ⟨ref, f3⟩ h3
      apply (safe_get heap ref).bind
      intro array _
      apply (safe_cell array index).bind
      intro i _
      exact Safe.ok (At.goes_on h3 hflow)
  | iaload =>
      apply h.pop.bind
      rintro ⟨index, f1⟩ h1
      apply (At.pop h1).bind
      rintro ⟨ref, f2⟩ h2
      apply (safe_get heap ref).bind
      intro array _
      apply (safe_cell array index).bind
      intro i _
      exact At.push_goes_on hm h2 hflow
end Instructions

/-! ## Runs -/

section Runs

variable {T : Typing} {c : ClassFile} {s t : State} {fresh : (n : Nat) → Vector Word n}

/-- Each waiting activation waits for the one in front of it. -/
def Typing.Suspended (T : Typing) (c : ClassFile) : Method → List Frame → Prop
  | _, [] => True
  | callee, f :: callers =>
    f.method ∈ c.methods ∧ T.Waits callee f ∧ Suspended T c f.method callers

/-- The invariant of a run: the innermost activation is where its depth map lets it
be, and so will be the others when it is their turn. -/
structure Typing.Fits (T : Typing) (c : ClassFile) (s : State) : Prop where
  mem : s.frame.method ∈ c.methods
  ready : T.Ready s.frame
  suspended : T.Suspended c s.frame.method s.callers

/-- The outermost call of `execute` begins, with any locals and any heap. -/
def Starts (c : ClassFile) (s : State) : Prop :=
  s.frame.method ∈ c.methods ∧ s.frame.stack = [] ∧ s.frame.pc = 0 ∧ s.callers = []

/-- A step that goes on, whatever is in fresh locals. -/
def Steps (c : ClassFile) (s t : State) : Prop := ∃ fresh, step c fresh s = .ok (.running t)

/-- The states of the runs of `execute`. -/
abbrev Reachable (c : ClassFile) : State → Prop := Reach (Starts c) (Steps c)

/-- What a step may lead to: a state that fits, or the end of the run. -/
def Typing.Continues (T : Typing) (c : ClassFile) : Outcome → Prop
  | .running s => T.Fits c s
  | .finished .. => True

/-- A method that returns as its type says leaves its caller where the caller's
depth map lets it be. -/
theorem returnValue_safe (hT : DepthTyped T c) (hs : T.Suspended c s.frame.method s.callers)
    {value : Option Word} (hvalue : value.isSome = T.returns s.frame.method) :
    Safe Fault.Elsewhere (T.Continues c) (returnValue value s) := by
  obtain ⟨frame, callers, heap, output⟩ := s
  cases callers with
  | nil => exact trivial
  | cons f callers =>
      obtain ⟨hmem, hwaits, hrest⟩ := hs
      simp only at hvalue hwaits
      rw [Typing.Waits, ← hvalue] at hwaits
      have hf : At f.method f.pc f.stack.length f := ⟨rfl, rfl, rfl⟩
      cases value with
      | none =>
          have hjump : T.Allows c f.method (.continue (f.jump 3) heap output) := hf.goes_on hwaits
          exact ⟨hmem, hjump.2, hrest⟩
      | some v =>
          apply (hf.push (hwaits.le_maxStack (hT f.method hmem))).bind
          intro f' hf'
          have hjump : T.Allows c f.method (.continue (f'.jump 3) heap output) := hf'.goes_on hwaits
          refine ⟨?_, hjump.2, ?_⟩
          · rw [hjump.1]
            exact hmem
          · rw [hjump.1]
            exact hrest

/-- **Steps.** From a state that fits, a step fails no assertion of the stacks, stays
within locals and code, and leads to a state that fits. -/
theorem step_safe (hT : DepthTyped T c) (hs : T.Fits c s) :
    Safe Fault.Elsewhere (T.Continues c) (step c fresh s) := by
  obtain ⟨hmem, hready, hsuspended⟩ := hs
  have hm := hT _ hmem
  rcases hready with hdepth | ⟨hend, -, hreturns⟩
  · obtain ⟨hle, b, i, hb, hi, hbytes, hlocal, hpops, hflow⟩ := hm.mapped _ _ hdepth
    have hat : At s.frame.method s.frame.pc (s.frame.stack.length - i.pops + i.pops) s.frame :=
      ⟨rfl, rfl, (Nat.sub_add_cancel hpops).symm⟩
    rw [step, if_pos (by omega)]
    apply (hat.byte hb).bind
    rintro _ rfl
    rw [hi]
    apply (execute_safe hm hat hbytes hlocal hflow).bind
    intro effect heffect
    cases effect with
    | «continue» f heap output =>
        obtain ⟨hmethod, hf⟩ := heffect
        refine ⟨?_, hf, ?_⟩
        · rw [hmethod]
          exact hmem
        · rw [hmethod]
          exact hsuspended
    | call caller callee =>
        obtain ⟨hmethod, hwaits, hcallee, hpc, hstack⟩ := heffect
        refine ⟨hcallee, ?_, ?_, hwaits, ?_⟩
        · left
          rw [hpc, hstack]
          exact (hT _ hcallee).start
        · rw [hmethod]
          exact hmem
        · rw [hmethod]
          exact hsuspended
    | «return» value => exact returnValue_safe hT hsuspended heffect
  · rw [step, if_neg (by omega)]
    exact returnValue_safe hT hsuspended hreturns.symm

/-- The run lemma: every state of a run of a depth-typed class fits. -/
theorem Reachable.fits (hT : DepthTyped T c) (hs : Reachable c s) : T.Fits c s := by
  apply hs.invariant
  · rintro s ⟨hmem, hstack, hpc, hcallers⟩
    refine ⟨hmem, ?_, ?_⟩
    · left
      rw [hpc, hstack]
      exact (hT _ hmem).start
    · rw [hcallers]
      trivial
  · rintro s t hfits ⟨fresh, hstep⟩
    have hsafe : Safe Fault.Elsewhere (T.Continues c) (step c fresh s) := step_safe hT hfits
    rw [hstep] at hsafe
    exact hsafe

/-- **Depth soundness.** In a run of a depth-typed class, at any depth of recursion,
from any locals and any heap, no step fails an assertion of `stack_push` or
`stack_pop`, accesses a local that the activation does not have, or reads behind
the end of the code.  A run ends at an access outside an array, which C leaves
undefined. -/
theorem Reachable.within_bounds (hT : DepthTyped T c) (hs : Reachable c s) {e : Fault}
    (he : step c fresh s = .error e) :
    e ≠ .stackOverflow ∧ e ≠ .stackUnderflow ∧ e ≠ .localsOutOfBounds ∧
      e ≠ .codeOutOfBounds := by
  have hsafe : Safe Fault.Elsewhere (T.Continues c) (step c fresh s) :=
    step_safe hT (hs.fits hT)
  rw [he] at hsafe
  cases e <;> simp_all [Safe, Fault.Elsewhere]

end Runs

/-- `static int f(int n)` with `if (n != 0) return n + f(n - 1); return 0;`, as
`iload_0; ifne 6; iconst_0; ireturn; iload_0; iload_0; iconst_1; isub; invokestatic f; iadd; ireturn`. -/
def sum : Method := ⟨[102], [40, 73, 41, 73],
  ⟨3, 1, [0x1a, 0x9a, 0x00, 0x05, 0x03, 0xac, 0x1a, 0x1a, 0x04, 0x64, 0xb8, 0x00, 0x01, 0x60, 0xac]⟩⟩

/-- The class of `sum`. -/
def sumClass : ClassFile :=
  ⟨[.methodref 5 2, .nameAndType 3 4, .utf8 [102], .utf8 [40, 73, 41, 73]], [sum]⟩

/-- Its depth type. -/
def sumTyping : Typing where
  returns _ := true
  depth _
    | 0 | 4 | 6 => some 0
    | 1 | 5 | 7 | 14 => some 1
    | 8 | 10 | 13 => some 2
    | 9 => some 3
    | _ => none

/-- The class has the depths of the typing. -/
theorem sumClass_depthTyped : DepthTyped sumTyping sumClass := by
  intro m hm
  obtain rfl := List.mem_singleton.mp hm
  refine ⟨rfl, fun pc k hk => ?_⟩
  match pc, hk with
  | 0, rfl => exact ⟨by decide, 0x1a, .iload_ 0, rfl, rfl, by decide, by simp [Typing.localIndex, sum],
      by decide, .inl rfl⟩
  | 1, rfl =>
      refine ⟨by decide, 0x9a, .ifCond .ne, rfl, rfl, by decide, by simp [Typing.localIndex], by decide,
        .inl rfl, fun b1 b2 h1 h2 => ?_⟩
      obtain rfl := Option.some.inj h1
      obtain rfl := Option.some.inj h2
      exact .inl rfl
  | 4, rfl => exact ⟨by decide, 0x03, .iconst 1, rfl, rfl, by decide, by simp [Typing.localIndex],
      by decide, .inl rfl⟩
  | 5, rfl => exact ⟨by decide, 0xac, .ireturn, rfl, rfl, by decide, by simp [Typing.localIndex],
      by decide, rfl⟩
  | 6, rfl => exact ⟨by decide, 0x1a, .iload_ 0, rfl, rfl, by decide, by simp [Typing.localIndex, sum],
      by decide, .inl rfl⟩
  | 7, rfl => exact ⟨by decide, 0x1a, .iload_ 0, rfl, rfl, by decide, by simp [Typing.localIndex, sum],
      by decide, .inl rfl⟩
  | 8, rfl => exact ⟨by decide, 0x04, .iconst 2, rfl, rfl, by decide, by simp [Typing.localIndex],
      by decide, .inl rfl⟩
  | 9, rfl => exact ⟨by decide, 0x64, .binary .isub, rfl, rfl, by decide, by simp [Typing.localIndex],
      by decide, .inl rfl⟩
  | 10, rfl =>
      refine ⟨by decide, 0xb8, .invokestatic, rfl, rfl, by decide, by simp [Typing.localIndex], by decide,
        fun b1 b2 h1 h2 => ?_⟩
      obtain rfl := Option.some.inj h1
      obtain rfl := Option.some.inj h2
      exact ⟨sum, 1, by decide, by decide, by decide, by decide, .inl rfl⟩
  | 13, rfl => exact ⟨by decide, 0x60, .binary .iadd, rfl, rfl, by decide, by simp [Typing.localIndex],
      by decide, .inl rfl⟩
  | 14, rfl => exact ⟨by decide, 0xac, .ireturn, rfl, rfl, by decide, by simp [Typing.localIndex],
      by decide, rfl⟩

/-- In the method, with `n` in its local. -/
def inSum (n : Word) (stack : List Word) (pc : Nat) (callers : List Frame) : State :=
  ⟨⟨sum, #v[n], stack, pc⟩, callers, [], []⟩

/-- From `f(1)` into `f(0)`, over the branch that is taken and the call. -/
theorem sum_calls : Reachable sumClass (inSum 0 [] 0 [⟨sum, #v[1], [1], 10⟩]) := by
  have hstart : Reachable sumClass (inSum 1 [] 0 []) := .init ⟨List.mem_singleton.mpr rfl, rfl, rfl, rfl⟩
  have h1 : Steps sumClass (inSum 1 [] 0 []) (inSum 1 [1] 1 []) := ⟨fun n => Vector.replicate n 0, rfl⟩
  have h2 : Steps sumClass (inSum 1 [1] 1 []) (inSum 1 [] 6 []) := ⟨fun n => Vector.replicate n 0, rfl⟩
  have h3 : Steps sumClass (inSum 1 [] 6 []) (inSum 1 [1] 7 []) := ⟨fun n => Vector.replicate n 0, rfl⟩
  have h4 : Steps sumClass (inSum 1 [1] 7 []) (inSum 1 [1, 1] 8 []) :=
    ⟨fun n => Vector.replicate n 0, rfl⟩
  have h5 : Steps sumClass (inSum 1 [1, 1] 8 []) (inSum 1 [1, 1, 1] 9 []) :=
    ⟨fun n => Vector.replicate n 0, rfl⟩
  have h6 : Steps sumClass (inSum 1 [1, 1, 1] 9 []) (inSum 1 [0, 1] 10 []) :=
    ⟨fun n => Vector.replicate n 0, rfl⟩
  have h7 : Steps sumClass (inSum 1 [0, 1] 10 []) (inSum 0 [] 0 [⟨sum, #v[1], [1], 10⟩]) :=
    ⟨fun n => Vector.replicate n 0, rfl⟩
  exact ((((((hstart.step h1).step h2).step h3).step h4).step h5).step h6).step h7

/-- Inside the call that the method makes of itself. -/
theorem sum_within_bounds : ∃ s : State, Reachable sumClass s ∧ s.callers.length = 1 ∧
    ∀ fresh e, step sumClass fresh s = .error e → e ≠ .stackOverflow ∧ e ≠ .stackUnderflow ∧
      e ≠ .localsOutOfBounds ∧ e ≠ .codeOutOfBounds :=
  ⟨_, sum_calls, rfl, fun _ _ he => Reachable.within_bounds sumClass_depthTyped sum_calls he⟩

end JVM
