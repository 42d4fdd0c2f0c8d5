import CS24.Basic.Compile
import CS24.Basic.Numerals
import CS24.Lib.Readable

/-!
# The text of the assembly file

`header`, `footer` and `compile_ast` print one line for each instruction and each
label.  A line is a mnemonic and its operands; two programs with the same text are the
same program, so nothing is lost on the way to the assembler.
-/

namespace Basic

open X86 Basic.Parser

/-! ## Numbers -/

/-- `%d` and `%ld` -/
def intText (v : Int) : List UInt8 :=
  if v < 0 then byte '-' :: numeral v.natAbs else numeral v.natAbs

def isDigit (c : UInt8) : Bool := byte '0' ≤ c ∧ c ≤ byte '9'

/-- The characters of a numeral are digits. -/
theorem isDigit_numeral {n : Nat} {c : UInt8} (h : c ∈ numeral n) : isDigit c = true := by
  obtain ⟨d, hd, rfl⟩ := numeral_digits h
  interval_cases d <;> decide

/-- Different numbers have different numerals. -/
theorem numeral_injective : Function.Injective numeral := by
  intro m n h
  have hm := readDigits_numeral m []
  have hn := readDigits_numeral n []
  rw [h] at hm
  exact congrArg Prod.fst (hm.symm.trans hn)

/-- A numeral ends where the digits do. -/
theorem numeral_readable : Readable numeral (Readable.Off isDigit) :=
  .span (fun _ _ => isDigit_numeral) numeral_injective

/-- No numeral begins with a minus sign. -/
theorem numeral_head_ne {n : Nat} {r : List UInt8} : ∃ c rest, numeral n ++ r = c :: rest ∧ c ≠ byte '-' := by
  obtain ⟨c, rest, hnum⟩ := List.exists_cons_of_ne_nil (numeral_ne_nil n)
  obtain ⟨d, hd, rfl⟩ := numeral_digits (show c ∈ numeral n by simp [hnum])
  exact ⟨_, rest ++ r, by rw [hnum]; rfl, (digit_apart hd).2.1⟩

/-- An integer ends where the digits do, and its sign tells which of the two forms it has. -/
theorem intText_readable : Readable intText (Readable.Off isDigit) := by
  intro a b r r' hr hr' h
  unfold intText at h
  split at h <;> split at h
  · obtain ⟨hab, hrest⟩ := numeral_readable hr hr' (List.cons.inj h).2
    exact ⟨by omega, hrest⟩
  · obtain ⟨c, rest, hcons, hne⟩ := numeral_head_ne (n := b.natAbs) (r := r')
    rw [hcons] at h
    exact absurd (List.cons.inj h).1.symm hne
  · obtain ⟨c, rest, hcons, hne⟩ := numeral_head_ne (n := a.natAbs) (r := r)
    rw [hcons] at h
    exact absurd (List.cons.inj h).1 hne
  · obtain ⟨hab, hrest⟩ := numeral_readable hr hr' h
    exact ⟨by omega, hrest⟩

/-! ## Operands -/

def regName : Reg → List Char
  | .rax => ['r', 'a', 'x']
  | .rcx => ['r', 'c', 'x']
  | .rdx => ['r', 'd', 'x']
  | .rbx => ['r', 'b', 'x']
  | .rsp => ['r', 's', 'p']
  | .rbp => ['r', 'b', 'p']
  | .rsi => ['r', 's', 'i']
  | .rdi => ['r', 'd', 'i']
  | .r8 => ['r', '8']
  | .r9 => ['r', '9']
  | .r10 => ['r', '1', '0']
  | .r11 => ['r', '1', '1']
  | .r12 => ['r', '1', '2']
  | .r13 => ['r', '1', '3']
  | .r14 => ['r', '1', '4']
  | .r15 => ['r', '1', '5']

def regText (r : Reg) : List UInt8 := byte '%' :: bytes (regName r)

/-- The name of a label in front of its number. -/
def Label.kind : Label → List Char
  | .if _ => ['I', 'F', '_']
  | .endIf _ => ['E', 'N', 'D', 'I', 'F', '_']
  | .while _ => ['W', 'H', 'I', 'L', 'E', '_']
  | .endWhile _ => ['E', 'N', 'D', 'W', 'H', 'I', 'L', 'E', '_']

def Label.id : Label → Nat
  | .if id | .endIf id | .while id | .endWhile id => id

def labelText (l : Label) : List UInt8 := bytes l.kind ++ numeral l.id

/-- An operand of an instruction. -/
inductive Operand
  /-- `$%ld` or `$%d` -/
  | imm (v : Int)
  /-- `%%rdi` -/
  | reg (r : Reg)
  /-- `%d(%%rbp)` -/
  | mem (offset : Int) (base : Reg)
  /-- `IF_%d` -/
  | label (l : Label)
  /-- `print_int` -/
  | symbol

namespace Operand

def text : Operand → List UInt8
  | imm v => byte '$' :: intText v
  | reg r => regText r
  | mem offset base => intText offset ++ (byte '(' :: (regText base ++ [byte ')']))
  | label l => labelText l
  | symbol => bytes ['p', 'r', 'i', 'n', 't', '_', 'i', 'n', 't']

end Operand

def isWord (c : UInt8) : Bool :=
  isDigit c ∨ (byte 'A' ≤ c ∧ c ≤ byte 'Z') ∨ (byte 'a' ≤ c ∧ c ≤ byte 'z') ∨ c = byte '_'

/-- The name of a register ends where the characters of words do. -/
theorem regText_readable : Readable regText (Readable.Off isWord) := by
  have hword : ∀ r, (bytes (regName r)).all isWord = true := by
    intro r
    cases r <;> decide +kernel
  refine Readable.after [byte '%'] (p := fun r => bytes (regName r)) (.span ?_ ?_)
  · intro r x hx
    exact List.all_eq_true.mp (hword r) x hx
  · intro r r' h
    cases r <;> cases r' <;> first | rfl | exact absurd h (by decide)

/-- Labels of different kinds or numbers have different texts. -/
theorem labelText_injective : Function.Injective labelText := by
  have hne : byte 'I' ≠ byte 'E' ∧ byte 'I' ≠ byte 'W' ∧ byte 'E' ≠ byte 'W' ∧
      byte 'E' ≠ byte 'I' ∧ byte 'W' ≠ byte 'I' ∧ byte 'W' ≠ byte 'E' := by decide
  intro l l' h
  cases l <;> cases l' <;> simp [labelText, Label.kind, Label.id, bytes, hne] at h
  all_goals rw [numeral_injective h]

namespace Operand

/-- The kind of an operand. -/
def kind : Operand → Nat
  | imm _ => 0
  | reg _ => 1
  | mem _ _ => 2
  | label _ => 3
  | symbol => 4

/-- The kind of the operand that begins with a character. -/
def kindOf (c : UInt8) : Nat :=
  if c = byte '$' then 0
  else if c = byte '%' then 1
  else if c = byte 'p' then 4
  else if byte 'A' ≤ c then 3
  else 2

/-- The first character of an operand tells its kind. -/
theorem kindOf_head (x : Operand) : ∃ c rest, x.text = c :: rest ∧ kindOf c = x.kind := by
  cases x with
  | imm v => exact ⟨_, _, rfl, rfl⟩
  | reg r => exact ⟨_, _, rfl, rfl⟩
  | mem offset base =>
      have hdigit : ∀ d < 10, kindOf (digit d) = 2 := by decide
      obtain ⟨c, rest, hnum⟩ := List.exists_cons_of_ne_nil (numeral_ne_nil offset.natAbs)
      obtain ⟨d, hd, rfl⟩ := numeral_digits (show c ∈ numeral offset.natAbs by simp [hnum])
      simp only [text, intText]
      split
      · exact ⟨_, _, rfl, rfl⟩
      · exact ⟨_, _, by rw [hnum]; rfl, hdigit d hd⟩
  | label l => cases l <;> exact ⟨_, _, rfl, rfl⟩
  | symbol => exact ⟨_, _, rfl, rfl⟩

/-- What stands in memory ends with its parenthesis. -/
theorem mem_readable : Readable (fun x : Int × Reg => (mem x.1 x.2).text) (Readable.Off isWord) := by
  have hbase : Readable (fun r => byte '(' :: (regText r ++ [byte ')'])) fun _ => True :=
    (regText_readable.before [byte ')'] fun r _ x hx => by
      obtain rfl : byte ')' = x := by simpa using hx
      decide).after [byte '(']
  refine (intText_readable.append hbase fun r rest _ x hx => ?_).mono fun _ _ => trivial
  obtain rfl : byte '(' = x := by simpa using hx
  decide

/-- Different operands have different texts. -/
theorem text_injective : Function.Injective text := by
  intro x y h
  obtain ⟨c, rest, hx, hc⟩ := x.kindOf_head
  obtain ⟨d, rest', hy, hd⟩ := y.kindOf_head
  have hkind : x.kind = y.kind := by
    rw [← hc, ← hd]
    rw [hx, hy] at h
    rw [(List.cons.inj h).1]
  have hnil {class' : UInt8 → Bool} : Readable.Off class' [] := fun _ hx => by simp at hx
  cases x <;> cases y <;> simp [kind] at hkind
  case imm.imm v w => rw [intText_readable.injective hnil (List.cons.inj h).2]
  case reg.reg r r' => rw [regText_readable.injective hnil h]
  case mem.mem o r o' r' =>
      have hpair : (o, r) = (o', r') := mem_readable.injective hnil h
      cases hpair
      rfl
  case label.label l l' => rw [labelText_injective h]
  case symbol.symbol => rfl

end Operand

/-- The characters of an operand. -/
def isOperandChar (c : UInt8) : Bool :=
  isWord c ∨ c = byte '$' ∨ c = byte '%' ∨ c = byte '(' ∨ c = byte ')' ∨ c = byte '-'

/-- Characters of words may stand in operands. -/
theorem isOperandChar_of_isWord {c : UInt8} (h : isWord c = true) : isOperandChar c = true := by
  simp [isOperandChar, h]

/-- Digits are characters of words. -/
theorem isWord_of_isDigit {c : UInt8} (h : isDigit c = true) : isWord c = true := by
  simp [isWord, h]

/-- No character of an integer separates operands. -/
theorem isOperandChar_intText {v : Int} {c : UInt8} (h : c ∈ intText v) : isOperandChar c = true := by
  have hnum {n : Nat} (hc : c ∈ numeral n) : isOperandChar c = true :=
    isOperandChar_of_isWord (isWord_of_isDigit (isDigit_numeral hc))
  unfold intText at h
  split at h
  · rcases List.mem_cons.mp h with rfl | h
    · decide
    · exact hnum h
  · exact hnum h

/-- No character of a register separates operands. -/
theorem isOperandChar_regText {r : Reg} {c : UInt8} (h : c ∈ regText r) : isOperandChar c = true := by
  have hall : (regText r).all isOperandChar = true := by
    cases r <;> decide +kernel
  exact List.all_eq_true.mp hall c h

/-- The characters of labels are characters of words. -/
theorem isWord_labelText {l : Label} {c : UInt8} (h : c ∈ labelText l) : isWord c = true := by
  have hall : (bytes l.kind).all isWord = true := by
    cases l <;> rfl
  rcases List.mem_append.mp h with h | h
  · exact List.all_eq_true.mp hall c h
  · exact isWord_of_isDigit (isDigit_numeral h)

theorem Operand.isOperandChar_text {x : Operand} {c : UInt8} (h : c ∈ x.text) :
    isOperandChar c = true := by
  cases x with
  | imm v =>
      rcases List.mem_cons.mp h with rfl | h
      · decide
      · exact isOperandChar_intText h
  | reg r => exact isOperandChar_regText h
  | mem offset base =>
      rcases List.mem_append.mp h with h | h
      · exact isOperandChar_intText h
      · rcases List.mem_cons.mp h with rfl | h
        · decide
        · rcases List.mem_append.mp h with h | h
          · exact isOperandChar_regText h
          · obtain rfl := List.mem_singleton.mp h
            decide
  | label l => exact isOperandChar_of_isWord (isWord_labelText h)
  | symbol =>
      have hall : (Operand.symbol.text).all isOperandChar = true := by decide +kernel
      exact List.all_eq_true.mp hall c h

/-! ## Lines -/

inductive Mnemonic
  | movq | push | pop | addq | subq | imulq | shl | cqto | idivq | cmp
  | je | jne | jl | jge | jg | jle | jmp | call | ret
  deriving DecidableEq

namespace Mnemonic

def text : Mnemonic → List Char
  | movq => ['m', 'o', 'v', 'q']
  | push => ['p', 'u', 's', 'h']
  | pop => ['p', 'o', 'p']
  | addq => ['a', 'd', 'd', 'q']
  | subq => ['s', 'u', 'b', 'q']
  | imulq => ['i', 'm', 'u', 'l', 'q']
  | shl => ['s', 'h', 'l']
  | cqto => ['c', 'q', 't', 'o']
  | idivq => ['i', 'd', 'i', 'v', 'q']
  | cmp => ['c', 'm', 'p']
  | je => ['j', 'e']
  | jne => ['j', 'n', 'e']
  | jl => ['j', 'l']
  | jge => ['j', 'g', 'e']
  | jg => ['j', 'g']
  | jle => ['j', 'l', 'e']
  | jmp => ['j', 'm', 'p']
  | call => ['c', 'a', 'l', 'l']
  | ret => ['r', 'e', 't']

/-- The blanks in front; `footer` prints `    ret`. -/
def indent : Mnemonic → Nat
  | ret => 4
  | _ => 0

/-- `j` and the condition -/
def ofCond : X86.Cond → Mnemonic
  | .e => je
  | .ne => jne
  | .l => jl
  | .ge => jge
  | .g => jg
  | .le => jle

end Mnemonic

/-- A line of the assembly file. -/
inductive Line
  | instruction (mnemonic : Mnemonic) (operands : List Operand)
  | label (l : Label)

/-- The operands behind the first one. -/
def moreText (operands : List Operand) : List UInt8 :=
  operands.flatMap fun x => byte ',' :: byte ' ' :: x.text

def operandsText : List Operand → List UInt8
  | [] => []
  | x :: operands => byte ' ' :: (x.text ++ moreText operands)

def Line.text : Line → List UInt8
  | instruction mnemonic operands =>
    List.replicate mnemonic.indent (byte ' ') ++ (bytes mnemonic.text ++ operandsText operands)
  | label l => labelText l ++ [byte ':']

/-- What is printed for an instruction. -/
def lineOf : Instr Label → Line
  | .movImm imm dst => .instruction .movq [.imm imm.toInt, .reg dst]
  | .mov src dst => .instruction .movq [.reg src, .reg dst]
  | .load offset base dst => .instruction .movq [.mem offset base, .reg dst]
  | .store src offset base => .instruction .movq [.reg src, .mem offset base]
  | .push src => .instruction .push [.reg src]
  | .pop dst => .instruction .pop [.reg dst]
  | .addImm imm dst => .instruction .addq [.imm imm, .reg dst]
  | .subImm imm dst => .instruction .subq [.imm imm, .reg dst]
  | .add src dst => .instruction .addq [.reg src, .reg dst]
  | .sub src dst => .instruction .subq [.reg src, .reg dst]
  | .imul src dst => .instruction .imulq [.reg src, .reg dst]
  | .shl count dst => .instruction .shl [.imm count, .reg dst]
  | .cqto => .instruction .cqto []
  | .idiv src => .instruction .idivq [.reg src]
  | .cmp src dst => .instruction .cmp [.reg src, .reg dst]
  | .jcc cond target => .instruction (.ofCond cond) [.label target]
  | .jmp target => .instruction .jmp [.label target]
  | .label l => .label l
  | .call => .instruction .call [.symbol]
  | .ret => .instruction .ret []

/-- What `header` prints in front of its instructions. -/
def preamble : List UInt8 :=
  bytes ("# The code section of the assembly file\n.text\n.globl basic_main\n" ++
    "basic_main:\n    # The main() function\n").toList

/-- The assembly file with the instructions `code`. -/
def asm (code : Code) : List UInt8 := preamble ++ code.flatMap fun i => (lineOf i).text ++ [byte '\n']

/-! ## Reading the text back -/

/-- An operand ends at a comma or with its line. -/
theorem operand_readable : Readable Operand.text fun r => ∀ c ∈ r.head?, c = byte ',' := by
  refine (Readable.span (fun _ _ => Operand.isOperandChar_text) Operand.text_injective).mono ?_
  intro r hr c hc
  rw [hr c hc]
  decide

/-- Behind an operand there is a comma or nothing. -/
theorem moreText_head (operands : List Operand) : ∀ c ∈ (moreText operands).head?, c = byte ',' := by
  cases operands with
  | nil => simp [moreText]
  | cons x operands => simp [moreText]

/-- The operands behind the first one can be read from their text, by induction on them. -/
theorem moreText_injective : Function.Injective moreText := by
  intro xs ys h
  induction xs generalizing ys with
  | nil =>
      cases ys with
      | nil => rfl
      | cons y ys => simp [moreText] at h
  | cons x xs ih =>
      cases ys with
      | nil => simp [moreText] at h
      | cons y ys =>
          have htail : x.text ++ moreText xs = y.text ++ moreText ys := by
            simpa [moreText] using h
          obtain ⟨rfl, hrest⟩ := operand_readable (moreText_head xs) (moreText_head ys) htail
          rw [ih hrest]

/-- Different lists of operands have different texts. -/
theorem operandsText_injective : Function.Injective operandsText := by
  intro xs ys h
  cases xs with
  | nil =>
      cases ys with
      | nil => rfl
      | cons y ys => cases h
  | cons x xs =>
      cases ys with
      | nil => cases h
      | cons y ys =>
          obtain ⟨rfl, hrest⟩ :=
            operand_readable (moreText_head xs) (moreText_head ys) (List.cons.inj h).2
          rw [moreText_injective hrest]

/-- Mnemonics are words. -/
theorem isWord_mnemonic (m : Mnemonic) : ∀ c ∈ bytes m.text, isWord c = true := by
  have hall : (bytes m.text).all isWord = true := by
    cases m <;> rfl
  exact fun c hc => List.all_eq_true.mp hall c hc

/-- Neither a colon nor a newline is part of an instruction. -/
theorem instruction_chars {m : Mnemonic} {operands : List Operand} {c : UInt8}
    (hc : c ∈ (Line.instruction m operands).text) : c ≠ byte ':' ∧ c ≠ byte '\n' := by
  have hoperand {c : UInt8} (h : isOperandChar c = true) : c ≠ byte ':' ∧ c ≠ byte '\n' := by
    constructor <;> rintro rfl <;> exact absurd h (by decide)
  have hmore {operands : List Operand} {c : UInt8} (h : c ∈ moreText operands) :
      c ≠ byte ':' ∧ c ≠ byte '\n' := by
    obtain ⟨x, -, hx⟩ := List.mem_flatMap.mp h
    rcases List.mem_cons.mp hx with rfl | hx
    · decide
    rcases List.mem_cons.mp hx with rfl | hx
    · decide
    · exact hoperand (Operand.isOperandChar_text hx)
  rcases List.mem_append.mp hc with hc | hc
  · obtain rfl := List.eq_of_mem_replicate hc
    decide
  rcases List.mem_append.mp hc with hc | hc
  · exact hoperand (isOperandChar_of_isWord (isWord_mnemonic m c hc))
  cases operands with
  | nil => cases hc
  | cons x operands =>
      rcases List.mem_cons.mp hc with rfl | hc
      · decide
      rcases List.mem_append.mp hc with hc | hc
      · exact hoperand (Operand.isOperandChar_text hc)
      · exact hmore hc

/-- The mnemonic of a line ends at the blank before the operands, so both can be read from the
line. -/
theorem instruction_injective {m m' : Mnemonic} {operands operands' : List Operand}
    (h : (Line.instruction m operands).text = (Line.instruction m' operands').text) :
    m = m' ∧ operands = operands' := by
  have hindent : Readable (fun n => List.replicate n (byte ' ')) (Readable.Off (· = byte ' ')) := by
    refine .span (fun n c hc => ?_) fun n n' heq => ?_
    · exact decide_eq_true (List.eq_of_mem_replicate hc)
    · simpa using congrArg List.length heq
  have hmnemonic : Readable (fun m : Mnemonic => bytes m.text) (Readable.Off isWord) := by
    refine .span isWord_mnemonic fun m m' heq => ?_
    cases m <;> cases m' <;> first | rfl | exact absurd heq (by decide)
  have hbehind (operands : List Operand) : Readable.Off isWord (operandsText operands) := by
    intro c hc
    cases operands with
    | nil => cases hc
    | cons x operands =>
        obtain rfl : byte ' ' = c := Option.some.inj hc
        decide
  have hfront (m : Mnemonic) (r : List UInt8) : Readable.Off (· = byte ' ') (bytes m.text ++ r) := by
    intro c hc
    cases m <;> cases hc <;> decide
  obtain ⟨-, hrest⟩ := hindent (hfront m _) (hfront m' _) h
  obtain ⟨rfl, hoperands⟩ := hmnemonic (hbehind operands) (hbehind operands') hrest
  exact ⟨rfl, operandsText_injective hoperands⟩

/-- Different lines have different texts. -/
theorem lineText_injective : Function.Injective Line.text := by
  have hcolon (l : Label) : byte ':' ∈ (Line.label l).text := by simp [Line.text]
  intro x y h
  cases x with
  | instruction m operands =>
      cases y with
      | instruction m' operands' =>
          obtain ⟨rfl, rfl⟩ := instruction_injective h
          rfl
      | label l => exact absurd rfl (instruction_chars (h ▸ hcolon l)).1
  | label l =>
      cases y with
      | instruction m operands => exact absurd rfl (instruction_chars (h ▸ hcolon l)).1
      | label l' => rw [labelText_injective (List.append_cancel_right h)]

theorem newline_notMem (x : Line) : byte '\n' ∉ x.text := by
  intro h
  cases x with
  | instruction m operands => exact (instruction_chars h).2 rfl
  | label l =>
      rcases List.mem_append.mp h with h | h
      · exact absurd (isWord_labelText h) (by decide)
      · exact absurd (List.mem_singleton.mp h) (by decide)

/-- The instruction that a line was printed for. -/
def instrOf : Line → Option (Instr Label)
  | .instruction .movq [.imm v, .reg dst] => some (.movImm (BitVec.ofInt 64 v) dst)
  | .instruction .movq [.reg src, .reg dst] => some (.mov src dst)
  | .instruction .movq [.mem offset base, .reg dst] => some (.load offset base dst)
  | .instruction .movq [.reg src, .mem offset base] => some (.store src offset base)
  | .instruction .push [.reg src] => some (.push src)
  | .instruction .pop [.reg dst] => some (.pop dst)
  | .instruction .addq [.imm v, .reg dst] => some (.addImm v dst)
  | .instruction .subq [.imm v, .reg dst] => some (.subImm v dst)
  | .instruction .addq [.reg src, .reg dst] => some (.add src dst)
  | .instruction .subq [.reg src, .reg dst] => some (.sub src dst)
  | .instruction .imulq [.reg src, .reg dst] => some (.imul src dst)
  | .instruction .shl [.imm v, .reg dst] => some (.shl v.toNat dst)
  | .instruction .cqto [] => some .cqto
  | .instruction .idivq [.reg src] => some (.idiv src)
  | .instruction .cmp [.reg src, .reg dst] => some (.cmp src dst)
  | .instruction .je [.label l] => some (.jcc .e l)
  | .instruction .jne [.label l] => some (.jcc .ne l)
  | .instruction .jl [.label l] => some (.jcc .l l)
  | .instruction .jge [.label l] => some (.jcc .ge l)
  | .instruction .jg [.label l] => some (.jcc .g l)
  | .instruction .jle [.label l] => some (.jcc .le l)
  | .instruction .jmp [.label l] => some (.jmp l)
  | .label l => some (.label l)
  | .instruction .call [.symbol] => some .call
  | .instruction .ret [] => some .ret
  | _ => none

/-- The instruction of a line is the one that the line was written for. -/
theorem instrOf_lineOf (i : Instr Label) : instrOf (lineOf i) = some i := by
  cases i with
  | movImm imm dst => simp [lineOf, instrOf]
  | jcc cond target => cases cond <;> rfl
  | _ => rfl

/-- **The assembly file** tells what the program is. -/
theorem asm_injective : Function.Injective asm := by
  have hline : Function.Injective fun i => (lineOf i).text := by
    intro i j h
    have heq := congrArg instrOf (lineText_injective h)
    rw [instrOf_lineOf, instrOf_lineOf] at heq
    exact Option.some.inj heq
  intro code code' h
  exact Readable.flatMap_injective hline (fun i => newline_notMem (lineOf i)) (List.append_cancel_left h)

end Basic
