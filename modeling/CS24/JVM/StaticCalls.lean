import CS24.JVM.Arrays

/-!
# Static calls

`invokestatic` counts the parameters in the descriptor of the method, takes that many
operands from the stack of the caller and runs the method on them.  The caller waits
in the list of callers meanwhile; other calls come and go in front of it, and when the
method returns the caller goes on with the locals it had, and with the result in place
of the operands.
-/

namespace JVM

open Checked System

/-! ## Descriptors -/

/-- The base types whose values are an `int` on the stack. -/
inductive BaseType
  | int | boolean | byte | char | short
  deriving DecidableEq, Repr

/-- `I`, `Z`, `B`, `C` or `S` -/
def BaseType.letter : BaseType → UInt8
  | int => 73
  | boolean => 90
  | byte => 66
  | char => 67
  | short => 83

/-- A parameter: a value of a base type, or a reference to an array of them. -/
inductive ParamType
  | base (type : BaseType)
  | array (type : BaseType)
  deriving DecidableEq, Repr

/-- `[` stands in front of the type of the elements. -/
def ParamType.letters : ParamType → CString
  | base type => [type.letter]
  | array type => [91, type.letter]

/-- The descriptor of a method, with any text for the type it returns. -/
def descriptor (params : List ParamType) (returns : CString) : CString :=
  40 :: (params.flatMap ParamType.letters ++ 41 :: returns)

theorem BaseType.letter_ne (type : BaseType) : type.letter ≠ 91 ∧ type.letter ≠ 41 := by
  cases type <;> decide

/-- The loop counts one for each parameter. -/
theorem countParameters_letters (params : List ParamType) :
    countParameters (params.flatMap ParamType.letters) = params.length := by
  induction params with
  | nil => rfl
  | cons param params ih =>
      have hcons : ∀ (b : BaseType) (text : CString),
          countParameters (b.letter :: text) = countParameters text + 1 := by
        intro b text
        obtain - | ⟨d, text⟩ := text
        · rfl
        · rw [countParameters, if_neg b.letter_ne.1]
      rw [List.flatMap_cons, List.length_cons, ← ih]
      cases param with
      | base type => exact hcons type _
      | array type => rfl

/-- The first closing parenthesis is behind the parameters. -/
theorem closing_letters (params : List ParamType) (text : CString) :
    (params.flatMap ParamType.letters ++ 41 :: text).idxOf? 41 =
      some (params.flatMap ParamType.letters).length := by
  have hnone : (params.flatMap ParamType.letters).idxOf? 41 = none := by
    rw [List.idxOf?_eq_none_iff]
    intro hmem
    obtain ⟨param, -, hmem⟩ := List.mem_flatMap.mp hmem
    cases param with
    | base type => exact type.letter_ne.2 (List.mem_singleton.mp hmem).symm
    | array type =>
        rcases List.mem_cons.mp hmem with heq | hmem
        · exact absurd heq (by decide)
        · exact type.letter_ne.2 (List.mem_singleton.mp hmem).symm
  rw [List.idxOf?] at hnone
  rw [List.idxOf?, List.findIdx?_append, hnone, List.findIdx?_cons]
  simp

/-- **The number of parameters.** -/
theorem getNumberOfParameters_descriptor {m : Method} {params : List ParamType}
    {returns : CString} (hm : m.descriptor = descriptor params returns)
    (hparams : params.length < 2 ^ 16) :
    getNumberOfParameters m = .ok params.length := by
  have hopen : m.descriptor.idxOf? 40 = some 0 := by
    rw [hm, descriptor]
    rfl
  have hclose : m.descriptor.idxOf? 41 =
      some ((params.flatMap ParamType.letters).length + 1) := by
    rw [hm, descriptor, List.idxOf?_cons, if_neg (by decide), closing_letters]
    rfl
  rw [getNumberOfParameters, hopen, hclose, hm, descriptor]
  simp only [List.take_succ_cons, List.drop_succ_cons, List.take_left, List.drop_zero]
  rw [countParameters_letters, Nat.mod_eq_of_lt hparams]

/-! ## The method that is called -/

/-- The constant at `index` names the method `m` of the class, the only one of its name
and descriptor. -/
structure Names (c : ClassFile) (index : Nat) (m : Method) : Prop where
  pool : c.constantPool.length < 65535
  constants : ∃ classIndex nameAndType name type : UInt16,
    (0 < index ∧ c.constantPool[index - 1]? = some (.methodref classIndex nameAndType)) ∧
    (0 < nameAndType.toNat ∧
      c.constantPool[nameAndType.toNat - 1]? = some (.nameAndType name type)) ∧
    (0 < name.toNat ∧ c.constantPool[name.toNat - 1]? = some (.utf8 m.name)) ∧
    0 < type.toNat ∧ c.constantPool[type.toNat - 1]? = some (.utf8 m.descriptor)
  declared : m ∈ c.methods
  unique : ∀ m' ∈ c.methods, m'.name = m.name → m'.descriptor = m.descriptor → m' = m

/-- **Overloads.** The lookup by name and descriptor finds the method. -/
theorem Names.find {c : ClassFile} {index : Nat} {m : Method} (h : Names c index m) :
    findMethodFromIndex index c = .ok m := by
  obtain ⟨classIndex, nameAndType, name, type, href, hpair, hname, htype⟩ := h.constants
  have hconstant : ∀ i constant, 0 < i ∧ c.constantPool[i - 1]? = some constant →
      getConstant c.constantPool i = .ok constant :=
    fun _ _ => (getConstant_eq_ok_iff h.pool).mpr
  have hmethod : findMethod m.name m.descriptor c = some m := by
    rw [findMethod]
    cases hfind : c.methods.find? fun m' => m'.name = m.name ∧ m'.descriptor = m.descriptor with
    | none => simpa using List.find?_eq_none.mp hfind m h.declared
    | some m' =>
        have hsame : m'.name = m.name ∧ m'.descriptor = m.descriptor := by
          simpa using List.find?_some hfind
        rw [h.unique m' (List.mem_of_find?_eq_some hfind) hsame.1 hsame.2]
  simp only [findMethodFromIndex, getMethodNameAndType, getUtf8, hconstant _ _ href,
    hconstant _ _ hpair, hconstant _ _ hname, hconstant _ _ htype, bind, Except.bind, hmethod]

/-! ## The arguments -/

section Arguments

variable {caller callee : Frame} {args rest : List Word}

/-- The operands on the stack of the caller become the first locals of the callee, the
one that was pushed first the first. -/
theorem bindArguments_eq (hstack : caller.stack = args.reverse ++ rest)
    (hlocals : args.length ≤ callee.method.code.maxLocals) :
    ∃ locals : Vector Word callee.method.code.maxLocals,
      bindArguments args.length caller callee =
        .ok ({ caller with stack := rest }, { callee with locals := locals }) ∧
      (∀ i < args.length, locals[i]? = args[i]?) ∧
      ∀ i, args.length ≤ i → locals[i]? = callee.locals[i]? := by
  induction args using List.reverseRecOn generalizing caller callee with
  | nil =>
      refine ⟨callee.locals, ?_, ?_, fun _ _ => rfl⟩
      · obtain ⟨method, locals, stack, pc⟩ := caller
        obtain rfl : stack = rest := hstack
        rfl
      · intro i hi
        cases hi
  | append_singleton args arg ih =>
      have hlast : args.length < callee.method.code.maxLocals := by
        rwa [List.length_append, List.length_singleton] at hlocals
      rw [List.reverse_append, List.reverse_singleton] at hstack
      -- the last argument is on top and goes to the last of the locals
      have hpop : caller.pop = .ok (arg, { caller with stack := args.reverse ++ rest }) := by
        rw [Frame.pop, hstack]
        rfl
      have hstore : callee.store args.length arg =
          .ok { callee with locals := callee.locals.set args.length arg } := by
        rw [Frame.store, dif_pos hlast]
      obtain ⟨locals, hbind, hargs, hrest⟩ :=
        @ih { caller with stack := args.reverse ++ rest }
          { callee with locals := callee.locals.set args.length arg } rfl hlast.le
      refine ⟨locals, ?_, ?_, ?_⟩
      · rw [List.length_append, List.length_singleton, bindArguments]
        simp only [hpop, hstore, bind, Except.bind]
        exact hbind
      · intro i hi
        rw [List.length_append, List.length_singleton] at hi
        rcases Nat.lt_succ_iff_lt_or_eq.mp hi with hi | rfl
        · rw [hargs i hi, List.getElem?_append_left hi]
        · rw [hrest _ (le_refl _), Vector.getElem?_set_self, List.getElem?_concat_length]
      · intro i hi
        rw [List.length_append, List.length_singleton] at hi
        rw [hrest i (by omega)]
        exact Vector.getElem?_set_ne hlast (by omega)

end Arguments

/-! ## The return -/

/-- What the activation returns with the next step, if the step ends it. -/
def State.returned (s : State) : Option Word :=
  match s.instruction with
  | some .ireturn | some .areturn => s.frame.stack.head?
  | _ => none

/-- The caller goes on behind the call, with the value that was returned, if there is
one, on its stack. -/
def Frame.resumed (caller : Frame) (value : Option Word) : Frame :=
  { caller with stack := value.toList ++ caller.stack, pc := Frame.target caller.pc 3 }

/-- An activation that waits for a call at a depth of `depth` callers keeps waiting. -/
def Waits (c : ClassFile) (depth : Nat) (s t : State) : Prop :=
  Steps c s t ∧ depth ≤ t.callers.length

section Return

variable {c : ClassFile} {fresh : (n : Nat) → Vector Word n} {s t u v : State} {f : Frame}
  {heap : Heap} {output : List Word} {i : Instruction}

/-- The other instructions do not end the activation. -/
theorem execute_goes_on (hreturn : i ≠ .ireturn) (hareturn : i ≠ .areturn) (hvoid : i ≠ .return)
    {value : Option Word} : execute c fresh f heap output i ≠ .ok (.return value) := by
  intro h
  cases hon : i.onArrays with
  | true =>
      obtain ⟨g, heap', e, heffect, -⟩ := execute_acts hon h
      cases heffect
  | false =>
      have hgoes : Safe (fun _ => True) (fun effect => effect ≠ .return value)
          (execute c fresh f heap output i) := by
        cases i with
        | ireturn => exact absurd rfl hreturn
        | areturn => exact absurd rfl hareturn
        | «return» => exact absurd rfl hvoid
        | newarray | arraylength | iastore | iaload => cases hon
        | _ =>
            simp only [execute]
            repeat (refine Safe.andThen ?_; intro _)
            exact Safe.ok (by rintro ⟨⟩)
      rw [h] at hgoes
      exact hgoes rfl

/-- The value that the step returns with. -/
theorem State.returned_eq {value : Option Word} (hi : s.instruction = some i)
    (h : execute c fresh s.frame s.heap s.output i = .ok (.return value)) :
    s.returned = value := by
  rw [State.returned, hi]
  cases i with
  | ireturn | areturn =>
      obtain ⟨⟨a, g⟩, hpop, h⟩ := bind_eq_ok h
      obtain rfl := Effect.return.inj (Except.ok.inj h)
      rw [Frame.pop_ok hpop]
      rfl
  | «return» => exact Effect.return.inj (Except.ok.inj h)
  | _ => exact absurd h (execute_goes_on (by rintro ⟨⟩) (by rintro ⟨⟩) (by rintro ⟨⟩))

/-- The first caller takes the value. -/
theorem returnValue_resumes {value : Option Word}
    (h : returnValue value s = .ok (.running t)) :
    ∃ caller, s.callers = caller :: t.callers ∧ t.frame = caller.resumed value := by
  obtain ⟨frame, callers, heap, output⟩ := s
  obtain - | ⟨caller, callers⟩ := callers
  · cases h
  · cases value with
    | none =>
        obtain rfl := Outcome.running.inj (Except.ok.inj h)
        exact ⟨caller, rfl, rfl⟩
    | some v =>
        obtain ⟨g, hpush, h⟩ := bind_eq_ok h
        obtain rfl := Outcome.running.inj (Except.ok.inj h)
        refine ⟨caller, rfl, ?_⟩
        rw [Frame.push] at hpush
        split at hpush
        · obtain rfl := Except.ok.inj hpush
          rfl
        · cases hpush

/-- The step lemma: a step leaves the callers alone, or puts one in front, or ends the
activation, and the first caller goes on. -/
theorem Steps.callers_cases (h : Steps c s t) :
    t.callers = s.callers ∨ (∃ caller, t.callers = caller :: s.callers) ∨
      ∃ caller, s.callers = caller :: t.callers ∧ t.frame = caller.resumed s.returned := by
  obtain ⟨fresh, h⟩ := h
  rcases step_cases h with ⟨hend, hreturn⟩ | ⟨i, effect, hi, heff, ht⟩
  · have hnone : s.returned = none := by
      rw [State.returned, State.instruction, List.getElem?_eq_none hend]
      rfl
    rw [hnone]
    exact .inr (.inr (returnValue_resumes hreturn))
  · cases effect with
    | «continue» frame heap output =>
        obtain rfl := Outcome.running.inj ht
        exact .inl rfl
    | call caller callee =>
        obtain rfl := Outcome.running.inj ht
        exact .inr (.inl ⟨caller, rfl⟩)
    | «return» value =>
        rw [State.returned_eq hi heff]
        exact .inr (.inr (returnValue_resumes ht))

/-- The run lemma: the callers of a state stay, with others in front of them, until the
run comes back to fewer. -/
theorem waits_suffix (hrun : Relation.ReflTransGen (Waits c t.callers.length) t u) :
    t.callers <:+ u.callers := by
  induction hrun with
  | refl => exact List.suffix_refl _
  | @tail u v _ hstep ih =>
      obtain ⟨hstep, hdepth⟩ := hstep
      rcases hstep.callers_cases with heq | ⟨caller, hcall⟩ | ⟨caller, hreturn, -⟩
      · rwa [heq]
      · rw [hcall]
        exact ih.trans (List.suffix_cons _ _)
      · rw [hreturn] at ih
        rcases List.suffix_cons_iff.mp ih with heq | ih
        · rw [heq, List.length_cons] at hdepth
          omega
        · exact ih

/-- A call returns to the activation that made it. -/
theorem Waits.returns {caller : Frame} (htop : t.callers = caller :: s.callers)
    (hrun : Relation.ReflTransGen (Waits c t.callers.length) t u) (hstep : Steps c u v)
    (hless : v.callers.length < t.callers.length) :
    v.callers = s.callers ∧ v.frame = caller.resumed u.returned := by
  have hsuffix := waits_suffix hrun
  have hlong := hsuffix.length_le
  rcases hstep.callers_cases with heq | ⟨caller', hcall⟩ | ⟨caller', hreturn, hframe⟩
  · rw [heq] at hless
    omega
  · rw [hcall, List.length_cons] at hless
    omega
  · have hsame : t.callers = u.callers := by
      refine hsuffix.eq_of_length_le ?_
      rw [hreturn, List.length_cons]
      omega
    rw [htop, hreturn] at hsame
    obtain ⟨rfl, hrest⟩ := List.cons.inj hsame
    exact ⟨hrest.symm, hframe⟩

/-- **Static calls.** `invokestatic` of a method of the class, whose parameters are
values of base types or arrays of them, with its operands on the stack: the method starts
on the operands in the order in which they were pushed, and when the run comes back from
it, whatever it called meanwhile, the caller goes on behind the call with its old locals
and with its old stack, where the value that was returned, if there is one, has replaced
the operands.  `max_locals` counts the parameters and is a `u2`. -/
theorem static_call (fresh : (n : Nat) → Vector Word n) {m : Method} {params : List ParamType}
    {returns : CString} {b1 b2 : UInt8} {args rest : List Word}
    (hcall : s.instruction = some .invokestatic)
    (h1 : s.frame.byte 1 = .ok b1) (h2 : s.frame.byte 2 = .ok b2)
    (hnames : Names c (unsignedPair b1 b2) m) (hm : m.descriptor = descriptor params returns)
    (hlocals : params.length ≤ m.code.maxLocals) (hwidth : m.code.maxLocals < 2 ^ 16)
    (hstack : s.frame.stack = args.reverse ++ rest) (hargs : args.length = params.length) :
    ∃ locals : Vector Word m.code.maxLocals,
      (∀ k < params.length, locals[k]? = args[k]?) ∧
      step c fresh s = .ok (.running ⟨⟨m, locals, [], 0⟩,
        { s.frame with stack := rest } :: s.callers, s.heap, s.output⟩) ∧
      ∀ u v, Relation.ReflTransGen (Waits c (s.callers.length + 1)) ⟨⟨m, locals, [], 0⟩,
          { s.frame with stack := rest } :: s.callers, s.heap, s.output⟩ u →
        Steps c u v → v.callers.length ≤ s.callers.length →
        v.callers = s.callers ∧ v.frame = { s.frame with
          stack := u.returned.toList ++ rest, pc := Frame.target s.frame.pc 3 } := by
  have hcount : getNumberOfParameters m = .ok args.length := by
    rw [hargs]
    exact getNumberOfParameters_descriptor hm (hlocals.trans_lt hwidth)
  have hlocals : args.length ≤ (Frame.mk m (fresh m.code.maxLocals) [] 0).method.code.maxLocals :=
    hargs.trans_le hlocals
  obtain ⟨locals, hbind, hbound, -⟩ := bindArguments_eq hstack hlocals
  refine ⟨locals, ?_, ?_, ?_⟩
  · intro k hk
    exact hbound k (hk.trans_eq hargs.symm)
  · obtain ⟨b, hb, hdecode⟩ := Option.bind_eq_some_iff.mp hcall
    obtain ⟨hpc, -⟩ := List.getElem?_eq_some_iff.mp hb
    have hbyte : s.frame.byte 0 = .ok b := by rw [Frame.byte, Nat.add_zero, hb]
    simp only [step, hpc, if_true, hbyte, hdecode, execute, h1, h2, hnames.find, hcount, hbind,
      bind, Except.bind]
  · intro u v hrun hstep hless
    exact Waits.returns (t := ⟨⟨m, locals, [], 0⟩, { s.frame with stack := rest } :: s.callers,
      s.heap, s.output⟩) rfl hrun hstep (Nat.lt_succ_of_le hless)

end Return

/-- `static int f(int, int)`: `iload_0; iload_1; isub; ireturn` -/
def subtract : Method := ⟨[102], [40, 73, 73, 41, 73], ⟨2, 2, [0x1a, 0x1b, 0x64, 0xac]⟩⟩

/-- `static int f()`: `iconst_m1; ireturn` -/
def noArguments : Method := ⟨[102], [40, 41, 73], ⟨1, 0, [0x02, 0xac]⟩⟩

/-- `invokestatic f; ireturn` -/
def callSubtract : Method := ⟨[109], [40, 41, 73], ⟨3, 0, [0xb8, 0x00, 0x01, 0xac]⟩⟩

/-- A class with two methods of one name. -/
def callsSubtract : ClassFile :=
  ⟨[.methodref 5 2, .nameAndType 3 4, .utf8 [102], .utf8 [40, 73, 73, 41, 73]],
    [noArguments, subtract, callSubtract]⟩

/-- In the call of `subtract` with 7 and 3. -/
def inSubtract (stack : List Word) (pc : Nat) : State :=
  ⟨⟨subtract, #v[7, 3], stack, pc⟩, [⟨callSubtract, #v[], [9], 0⟩], [], []⟩

/-- The run of the callee. -/
theorem inSubtract_runs : Relation.ReflTransGen (Waits callsSubtract 1) (inSubtract [] 0)
    (inSubtract [4] 3) := by
  have h1 : Waits callsSubtract 1 (inSubtract [] 0) (inSubtract [7] 1) :=
    ⟨⟨fun n => Vector.replicate n 0, rfl⟩, le_refl _⟩
  have h2 : Waits callsSubtract 1 (inSubtract [7] 1) (inSubtract [3, 7] 2) :=
    ⟨⟨fun n => Vector.replicate n 0, rfl⟩, le_refl _⟩
  have h3 : Waits callsSubtract 1 (inSubtract [3, 7] 2) (inSubtract [4] 3) :=
    ⟨⟨fun n => Vector.replicate n 0, rfl⟩, le_refl _⟩
  exact .head h1 (.head h2 (.single h3))

/-- `f(7, 3)` with a 9 below the arguments: the caller goes on with 4 and 9. -/
theorem static_call_subtract : ∃ locals : Vector Word 2,
    locals[0]? = some 7 ∧ locals[1]? = some 3 ∧ ∃ u v, u.frame = ⟨subtract, locals, [4], 3⟩ ∧
      Steps callsSubtract u v ∧ v.callers = [] ∧ v.frame = ⟨callSubtract, #v[], [4, 9], 3⟩ := by
  have hnames : Names callsSubtract (unsignedPair 0 1) subtract := by
    refine ⟨by decide, ⟨5, 2, 3, 4, ⟨by decide, rfl⟩, ⟨by decide, rfl⟩, ⟨by decide, rfl⟩,
      by decide, rfl⟩, by decide, by decide⟩
  have hm : subtract.descriptor = descriptor [.base .int, .base .int] [73] := rfl
  have hstack : ([3, 7, 9] : List Word) = [7, 3].reverse ++ [9] := rfl
  obtain ⟨locals, hargs, -, hreturn⟩ := static_call (c := callsSubtract)
    (s := ⟨⟨callSubtract, #v[], [3, 7, 9], 0⟩, [], [], []⟩) (fun n => Vector.replicate n 0)
    rfl rfl rfl hnames hm (by decide) (by decide) hstack rfl
  have h0 : locals[0]? = some 7 := hargs 0 (by decide)
  have h1 : locals[1]? = some 3 := hargs 1 (by decide)
  have hlocals : locals = #v[7, 3] := by
    refine Vector.ext fun k hk => ?_
    obtain rfl | rfl : k = 0 ∨ k = 1 := by
      change k < 2 at hk
      omega
    · exact Option.some.inj ((Vector.getElem?_eq_getElem hk).symm.trans h0)
    · exact Option.some.inj ((Vector.getElem?_eq_getElem hk).symm.trans h1)
  subst hlocals
  have hend : Steps callsSubtract (inSubtract [4] 3) ⟨⟨callSubtract, #v[], [4, 9], 3⟩, [], [], []⟩ :=
    ⟨fun n => Vector.replicate n 0, rfl⟩
  obtain ⟨hcallers, hframe⟩ := hreturn _ _ inSubtract_runs hend (le_refl _)
  exact ⟨_, h0, h1, _, _, rfl, hend, hcallers, hframe⟩

end JVM
