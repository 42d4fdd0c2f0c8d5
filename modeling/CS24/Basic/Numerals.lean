import CS24.Basic.Parser

/-!
# Numbers in decimal

`strtol` with base 0 takes a leading `0` for the prefix of another base, so that numbers
are written without leading zeros.  It reads back each value of a `long`.
-/

namespace Basic.Parser

/-- The character of a digit. -/
def digit (d : Nat) : UInt8 := UInt8.ofNat (48 + d)

/-- A number without leading zeros. -/
def numeral (n : Nat) : List UInt8 :=
  if n < 10 then [digit n] else numeral (n / 10) ++ [digit (n % 10)]

/-- A value as a decimal number. -/
def decimal (v : Word) : List UInt8 :=
  if v.toInt < 0 then byte '-' :: numeral v.toInt.natAbs else numeral v.toInt.natAbs

/-- The code of a digit. -/
theorem toNat_digit {d : Nat} (h : d < 10) : (digit d).toNat = 48 + d := by
  unfold digit
  rw [UInt8.toNat_ofNat']
  omega

/-- A digit is read as its value. -/
theorem digitValue_digit {base d : Nat} (hd : d < 10) (hbase : d < base) :
    digitValue base (digit d) = some d := by
  have hlow : byte '0' ≤ digit d ∧ digit d ≤ byte '9' := by
    have h0 : (byte '0').toNat = 48 := rfl
    have h9 : (byte '9').toNat = 57 := rfl
    rw [UInt8.le_iff_toNat_le, UInt8.le_iff_toNat_le, toNat_digit hd, h0, h9]
    omega
  have hsub : (digit d - byte '0').toNat = d := by
    rw [UInt8.toNat_sub_of_le _ _ hlow.1, toNat_digit hd]
    show 48 + d - 48 = d
    omega
  simp only [digitValue, if_pos hlow, hsub, Option.filter]
  simp [hbase]

/-- Every character of a number is a digit. -/
theorem numeral_digits {n : Nat} {c : UInt8} (h : c ∈ numeral n) : ∃ d < 10, c = digit d := by
  induction n using Nat.strong_induction_on with
  | _ n ih =>
      unfold numeral at h
      split at h
      · rename_i hn
        exact ⟨n, hn, List.mem_singleton.mp h⟩
      · rcases List.mem_append.mp h with h | h
        · exact ih (n / 10) (by omega) h
        · exact ⟨n % 10, by omega, List.mem_singleton.mp h⟩

/-- Digits are read from the left. -/
theorem readDigits_numeral (n : Nat) (rest : List UInt8) :
    readDigits 10 0 (numeral n ++ rest) = readDigits 10 n rest := by
  induction n using Nat.strong_induction_on generalizing rest with
  | _ n ih =>
      unfold numeral
      split
      · rename_i hn
        simp [readDigits, digitValue_digit hn hn]
      · have hmod : n % 10 < 10 := Nat.mod_lt _ (by decide)
        rw [List.append_assoc, ih (n / 10) (by omega)]
        simp only [List.singleton_append, readDigits, digitValue_digit hmod hmod]
        rw [Nat.div_add_mod' n 10]

/-- The first digit is no zero, unless the number is zero. -/
theorem numeral_head {n : Nat} (hn : 0 < n) :
    ∃ d rest, numeral n = digit d :: rest ∧ 0 < d ∧ d < 10 := by
  induction n using Nat.strong_induction_on with
  | _ n ih =>
      unfold numeral
      split
      · rename_i hlt
        exact ⟨n, [], rfl, hn, hlt⟩
      · obtain ⟨d, rest, h, hd⟩ := ih (n / 10) (by omega) (by omega)
        exact ⟨d, rest ++ [digit (n % 10)], by rw [h]; rfl, hd⟩

/-- Every number has a digit. -/
theorem numeral_ne_nil (n : Nat) : numeral n ≠ [] := by
  unfold numeral
  split <;> simp

/-- Numbers below a power of 10 have as many digits as its exponent at most. -/
theorem length_numeral_le {n k : Nat} (h : n < 10 ^ (k + 1)) : (numeral n).length ≤ k + 1 := by
  induction k generalizing n with
  | zero =>
      unfold numeral
      rw [if_pos (by omega)]
      rfl
  | succ k ih =>
      unfold numeral
      split
      · simp
      · have hdiv : n / 10 < 10 ^ (k + 1) := by
          rw [Nat.div_lt_iff_lt_mul (by decide)]
          rwa [← pow_succ]
        have hlen := ih hdiv
        rw [List.length_append, List.length_singleton]
        omega

/-- Only the digit of 0 is a zero. -/
theorem digit_ne_zero {d : Nat} (hd : d < 10) (hpos : 0 < d) : digit d ≠ byte '0' := by
  intro h
  have hnat := congrArg UInt8.toNat h
  rw [toNat_digit hd] at hnat
  have h0 : (byte '0').toNat = 48 := rfl
  omega

/-- The base of a number without leading zeros. -/
theorem detectBase_numeral {n : Nat} (hn : 0 < n) :
    detectBase (numeral n) = (10, numeral n) := by
  obtain ⟨d, rest, hnum, hpos, hd⟩ := numeral_head hn
  have hne := digit_ne_zero hd hpos
  rw [hnum]
  unfold detectBase
  split
  · rename_i zero x digit' rest' heq
    obtain ⟨rfl, -⟩ := List.cons.inj heq
    rw [if_neg (fun h => hne h.1), if_neg hne]
  · rename_i zero rest' hno heq
    obtain ⟨rfl, -⟩ := List.cons.inj heq
    rw [if_neg hne]
  · rename_i heq
    cases heq

/-- What `strtol` does behind the sign. -/
theorem readDigits_detectBase (n : Nat) :
    ∃ base digits, detectBase (numeral n) = (base, digits) ∧
      readDigits base 0 digits = (n, []) ∧ digits ≠ [] := by
  by_cases hn : 0 < n
  · have hread := readDigits_numeral n []
    rw [List.append_nil] at hread
    exact ⟨10, numeral n, detectBase_numeral hn, hread, numeral_ne_nil n⟩
  · obtain rfl : n = 0 := by omega
    have hzero : numeral 0 = [digit 0] := by
      unfold numeral
      rfl
    rw [hzero]
    exact ⟨8, [digit 0], by decide, by decide, by decide⟩

/-- A character that begins a number is no white space, sign or operator. -/
theorem digit_apart {d : Nat} (hd : d < 10) :
    isSpace (digit d) = false ∧ digit d ≠ byte '-' ∧ digit d ≠ byte '+' ∧
      isOperator (digit d) = false ∧ digit d ≠ 0 ∧ isVariableName (digit d) = false := by
  interval_cases d <;> decide

/-- A numeral has no sign. -/
theorem detectSign_numeral (n : Nat) : detectSign (numeral n) = (false, numeral n) := by
  obtain ⟨c, rest, hnum⟩ := List.exists_cons_of_ne_nil (numeral_ne_nil n)
  have hmem : c ∈ numeral n := by simp [hnum]
  obtain ⟨d, hd, rfl⟩ := numeral_digits hmem
  obtain ⟨-, hminus, hplus, -⟩ := digit_apart hd
  simp [hnum, detectSign, hminus, hplus]

/-- It has no blanks to skip. -/
theorem skip_numeral (n : Nat) : skip (numeral n) = numeral n := by
  obtain ⟨c, rest, hnum⟩ := List.exists_cons_of_ne_nil (numeral_ne_nil n)
  have hmem : c ∈ numeral n := by simp [hnum]
  obtain ⟨d, hd, rfl⟩ := numeral_digits hmem
  simp [hnum, skip, (digit_apart hd).1]

/-- **`strtol` reads a decimal number back.** -/
theorem strtol_decimal (v : Word) : strtol (decimal v) = (v.toInt, []) := by
  obtain ⟨base, digits, hbase, hread, hne⟩ := readDigits_detectBase v.toInt.natAbs
  have hlen : ¬ 0 = digits.length := fun h => hne (List.length_eq_zero_iff.mp h.symm)
  unfold decimal
  split
  · rename_i hneg
    have hskip : skip (byte '-' :: numeral v.toInt.natAbs) = byte '-' :: numeral v.toInt.natAbs := by
      simp [skip, show isSpace (byte '-') = false by decide]
    have hsign : detectSign (byte '-' :: numeral v.toInt.natAbs) = (true, numeral v.toInt.natAbs) := by
      simp [detectSign]
    simp only [strtol, hskip, hsign, hbase, hread, List.length_nil, if_neg hlen, if_true]
    congr 1
    omega
  · rename_i hneg
    simp only [strtol, skip_numeral, detectSign_numeral, hbase, hread, List.length_nil,
      if_neg hlen, Bool.false_eq_true, if_false]
    congr 1
    omega

/-- The value of a word is in the range of `strtol`. -/
theorem inRange_toInt (v : Word) : InRange v.toInt := by
  have hlt := BitVec.toInt_lt (x := v)
  have hle := BitVec.le_toInt v
  exact ⟨by simpa using hle, by simpa using hlt⟩

/-- A number is a sign or a digit, and digits behind it. -/
theorem decimal_eq (v : Word) :
    ∃ c rest, decimal v = c :: rest ∧ (c = byte '-' ∨ ∃ d < 10, c = digit d) ∧
      ∀ c ∈ rest, ∃ d < 10, c = digit d := by
  obtain ⟨c, rest, hnum⟩ := List.exists_cons_of_ne_nil (numeral_ne_nil v.toInt.natAbs)
  have hdigits : ∀ x ∈ c :: rest, ∃ d < 10, x = digit d := by
    intro x hx
    exact numeral_digits (hnum ▸ hx)
  unfold decimal
  rw [hnum]
  split
  · exact ⟨_, _, rfl, .inl rfl, hdigits⟩
  · exact ⟨c, rest, rfl, .inr (hdigits c List.mem_cons_self),
      fun x hx => hdigits x (List.mem_cons_of_mem _ hx)⟩

/-- A word has 20 characters in decimal at most. -/
theorem length_decimal_le (v : Word) : (decimal v).length ≤ 20 := by
  have hlt := BitVec.toInt_lt (x := v)
  have hle := BitVec.le_toInt v
  have hnat : v.toInt.natAbs < 10 ^ (18 + 1) := by
    norm_num at hlt hle ⊢
    omega
  have hlen := length_numeral_le hnat
  unfold decimal
  split
  · rw [List.length_cons]
    omega
  · omega

end Basic.Parser
