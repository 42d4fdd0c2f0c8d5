import Mathlib.Data.List.Basic
import Mathlib.Data.List.Range
import Mathlib.Data.Nat.Find

/-!
# The password cracker's search

`hashes_match` and `is_password` of `password_cracker.c`.  `crypt_r` is any function of the
password and the salt, and `memory` is what stands in the memory that `malloc` returns.  The
search returns at the first variant that matches a hash, and so it is exhaustive only if
that variant is as good as the last one.
-/

namespace PasswordCracker

/-- The characters of a string, without the terminating zero. -/
abbrev CString := List UInt8

/-- `SALT_LENGTH` -/
def SALT_LENGTH : Nat := 20

/-- `HASH_LENGTH` -/
def HASH_LENGTH : Nat := 106

/-- A word of the dictionary. -/
structure Word where
  chars : CString
  no_zero : 0 ∉ chars

/-- `strncpy(dst + pos, src, n)` -/
def strncpy (dst : List UInt8) (pos : Nat) (src : CString) (n : Nat) : List UInt8 :=
  dst.take pos ++ (src.take n ++ List.replicate (n - src.length) 0) ++ dst.drop (pos + n)

/-- The string that is built in `variant`. -/
def buildVariant (memory : Nat → UInt8) (password : CString) (j k : Nat) : CString :=
  let num := UInt8.ofNat (k + 48)
  let variant := (List.range (password.length + 2)).map memory
  let variant := strncpy variant 0 password j
  let variant := variant.set j num
  let variant := strncpy variant (j + 1) (password.drop j) (password.length - j)
  let variant := variant.set (password.length + 1) 0
  variant.takeWhile (· ≠ 0)

/-- The strings that are tested, and the one that is printed. -/
structure Search where
  tested : List CString
  printed : Option CString

section Source

variable (crypt_r : CString → CString → List UInt8) (hashes : List (List UInt8))
  (memory : Nat → Nat → Nat → UInt8) (password : CString)

/-- `hashes_match` -/
def hashesMatch (password : CString) (hash : List UInt8) : Bool :=
  let salt := hash.take SALT_LENGTH
  let hashed := crypt_r password salt
  let hashedHash := hashed.drop SALT_LENGTH
  let hashHash := hash.drop SALT_LENGTH
  hashedHash.take (HASH_LENGTH - SALT_LENGTH) = hashHash.take (HASH_LENGTH - SALT_LENGTH)

/-- The loop over `hashes`. -/
def matchesAny (variant : CString) : Bool := hashes.any (hashesMatch crypt_r variant)

/-- The loop over `k`. -/
def digitLoop (j : Nat) : List Nat → Search
  | [] => ⟨[], none⟩
  | k :: ks =>
    let variant := buildVariant (memory j k) password j k
    if matchesAny crypt_r hashes variant then ⟨[variant], some variant⟩
    else
      let rest := digitLoop j ks
      ⟨variant :: rest.tested, rest.printed⟩

/-- The loop over `j`, up to a return from the loop inside. -/
def positionLoop : List Nat → Search
  | [] => ⟨[], none⟩
  | j :: js =>
    let inner := digitLoop crypt_r hashes memory password j (List.range 10)
    match inner.printed with
    | some variant => ⟨inner.tested, some variant⟩
    | none =>
      let rest := positionLoop js
      ⟨inner.tested ++ rest.tested, rest.printed⟩

/-- `is_password` -/
def isPassword : Search :=
  positionLoop crypt_r hashes memory password (List.range (password.length + 1))

end Source

/-! ## The variants -/

/-- The word with the digit `k` inserted at the position `j`. -/
def Word.insert (word : Word) (j k : Nat) : CString :=
  word.chars.take j ++ UInt8.ofNat (k + 48) :: word.chars.drop j

/-- The variant that is tested after `t` others. -/
def Word.variant (word : Word) (t : Nat) : CString := word.insert (t / 10) (t % 10)

section Variants

variable {word : Word} {memory : Nat → UInt8} {j k k' : Nat}

/-- Different digits are different characters, -/
theorem digit_injective (hk : k < 10) (hk' : k' < 10)
    (h : UInt8.ofNat (k + 48) = UInt8.ofNat (k' + 48)) : k = k' := by
  have hnat := congrArg UInt8.toNat h
  rw [UInt8.toNat_ofNat', UInt8.toNat_ofNat'] at hnat
  omega

/-- none of which ends a string. -/
theorem digit_ne_zero (hk : k < 10) : UInt8.ofNat (k + 48) ≠ 0 := by
  intro h
  have hnat := congrArg UInt8.toNat h
  rw [UInt8.toNat_ofNat'] at hnat
  change (k + 48) % 256 = 0 at hnat
  omega

/-- A variant is one longer than the word, -/
theorem insert_length (hj : j ≤ word.chars.length) : (word.insert j k).length = word.chars.length + 1 := by
  rw [Word.insert, List.length_append, List.length_cons, List.length_take_of_le hj, List.length_drop]
  omega

/-- and is a string. -/
theorem insert_no_zero (hk : k < 10) : ∀ c ∈ word.insert j k, c ≠ 0 := by
  rintro c hc rfl
  rw [Word.insert, List.mem_append, List.mem_cons] at hc
  rcases hc with hc | hc | hc
  · exact word.no_zero (List.mem_of_mem_take hc)
  · exact digit_ne_zero hk hc.symm
  · exact word.no_zero (List.mem_of_mem_drop hc)

/-- **Assembly.** The two copies around the digit make the word with the digit in it, also at
both ends. -/
theorem buildVariant_eq (hj : j ≤ word.chars.length) (hk : k < 10) :
    buildVariant memory word.chars j k = word.insert j k := by
  generalize hfresh : (List.range (word.chars.length + 2)).map memory = fresh
  have hlength : fresh.length = word.chars.length + 2 := by
    rw [← hfresh, List.length_map, List.length_range]
  have htake : (word.chars.take j).length = j := List.length_take_of_le hj
  have hfirst : strncpy fresh 0 word.chars j = word.chars.take j ++ fresh.drop j := by
    simp [strncpy, Nat.sub_eq_zero_of_le hj]
  have hdigit : (word.chars.take j ++ fresh.drop j).set j (UInt8.ofNat (k + 48)) =
      (word.chars.take j ++ [UInt8.ofNat (k + 48)]) ++ fresh.drop (j + 1) := by
    rw [List.set_append_right _ _ htake.le, htake, Nat.sub_self,
      List.drop_eq_getElem_cons (by omega), List.set_cons_zero, List.append_assoc,
      List.singleton_append]
  have hsecond : strncpy ((word.chars.take j ++ [UInt8.ofNat (k + 48)]) ++ fresh.drop (j + 1))
      (j + 1) (word.chars.drop j) (word.chars.length - j) =
      word.insert j k ++ fresh.drop (word.chars.length + 1) := by
    have hfront : (word.chars.take j ++ [UInt8.ofNat (k + 48)]).length = j + 1 := by
      rw [List.length_append, htake, List.length_singleton]
    have hrest : j + 1 + (word.chars.length - j) = word.chars.length + 1 := by omega
    have hcopy : (word.chars.drop j).take (word.chars.length - j) = word.chars.drop j :=
      List.take_of_length_le List.length_drop.le
    rw [strncpy, List.take_left' hfront, ← List.drop_drop, List.drop_left' hfront, List.drop_drop,
      hrest, hcopy, List.length_drop, Nat.sub_self, List.replicate_zero, List.append_nil, Word.insert,
      List.append_assoc _ [_], List.singleton_append]
  have hend : (word.insert j k ++ fresh.drop (word.chars.length + 1)).set (word.chars.length + 1) 0 =
      word.insert j k ++ [0] := by
    have hinsert := insert_length (k := k) hj
    rw [List.set_append_right _ _ hinsert.le, hinsert, Nat.sub_self,
      List.drop_eq_getElem_cons (by omega), List.set_cons_zero, List.drop_of_length_le (by omega)]
  rw [buildVariant, hfresh, hfirst, hdigit, hsecond, hend, List.takeWhile_append_of_pos]
  · simp
  · intro c hc
    simpa using insert_no_zero hk c hc

/-- The last character of a variant is that of the word, unless the digit is behind it. -/
theorem getLast?_insert (hj : j < word.chars.length) :
    (word.insert j k).getLast? = word.chars.getLast? := by
  have hne : word.chars.drop j ≠ [] := by
    rw [ne_eq, List.drop_eq_nil_iff]
    omega
  conv_rhs => rw [← List.take_append_drop j word.chars]
  rw [Word.insert, List.getLast?_append_of_ne_nil _ (List.cons_ne_nil _ _),
    List.getLast?_append_of_ne_nil _ hne, List.getLast?_cons_of_ne_nil hne]

/-- The digit at the end is the last character. -/
theorem getLast?_insert_length : (word.insert word.chars.length k).getLast? =
    some (UInt8.ofNat (k + 48)) := by
  rw [Word.insert, List.drop_length, List.getLast?_concat]

end Variants

/-! ## The search -/

/-- A search through a list, up to the first match. -/
def scan (p : CString → Bool) : List CString → Search
  | [] => ⟨[], none⟩
  | s :: rest =>
    if p s then ⟨[s], some s⟩ else ⟨s :: (scan p rest).tested, (scan p rest).printed⟩

section Scan

variable {p : CString → Bool} {front back : List CString} {s : CString}

/-- A scan goes on behind strings that do not match. -/
theorem scan_append_none (h : ∀ s ∈ front, p s = false) :
    scan p (front ++ back) = ⟨front ++ (scan p back).tested, (scan p back).printed⟩ := by
  induction front with
  | nil => rfl
  | cons s front ih =>
      rw [List.cons_append, scan, if_neg (by simp [h s List.mem_cons_self]),
        ih fun t ht => h t (List.mem_cons_of_mem _ ht)]
      rfl

/-- If none matches, all are tested and none is printed. -/
theorem scan_none (h : ∀ s ∈ front, p s = false) : scan p front = ⟨front, none⟩ := by
  have happend : scan p (front ++ []) = _ := scan_append_none h
  simpa [scan] using happend

/-- It ends at the first one that matches. -/
theorem scan_some (h : ∀ s ∈ front, p s = false) (hs : p s = true) :
    scan p (front ++ s :: back) = ⟨front ++ [s], some s⟩ := by
  rw [scan_append_none h, scan, if_pos hs]

/-- What is printed matches, and it is the last string that is tested. -/
theorem scan_printed (h : (scan p front).printed = none) : ∀ s ∈ front, p s = false := by
  induction front with
  | nil => exact fun _ hs => absurd hs List.not_mem_nil
  | cons t front ih =>
      rw [scan] at h
      split at h
      · cases h
      · rename_i ht
        intro s hs
        rcases List.mem_cons.mp hs with rfl | hs
        · simpa using ht
        · exact ih h s hs

/-- What is behind that one is not looked at. -/
theorem scan_append_some (h : (scan p front).printed = some s) :
    scan p (front ++ back) = scan p front := by
  induction front with
  | nil => cases h
  | cons t front ih =>
      rw [List.cons_append, scan, scan]
      rw [scan] at h
      split
      · rfl
      · rename_i ht
        rw [if_neg ht] at h
        rw [ih h]

end Scan

section Loops

variable {crypt_r : CString → CString → List UInt8} {hashes : List (List UInt8)}
  {memory : Nat → Nat → Nat → UInt8} {word : Word} {j k n : Nat}

/-- The inner loop scans the variants with a digit at one position, -/
theorem digitLoop_eq (hj : j ≤ word.chars.length) {ks : List Nat} (hks : ∀ k ∈ ks, k < 10) :
    digitLoop crypt_r hashes memory word.chars j ks =
      scan (matchesAny crypt_r hashes) (ks.map (word.insert j)) := by
  induction ks with
  | nil => rfl
  | cons k ks ih =>
      rw [digitLoop, buildVariant_eq hj (hks k List.mem_cons_self), List.map_cons, scan,
        ih fun k hk => hks k (List.mem_cons_of_mem _ hk)]

/-- and the outer loop those of all positions. -/
theorem positionLoop_eq {js : List Nat} (hjs : ∀ j ∈ js, j ≤ word.chars.length) :
    positionLoop crypt_r hashes memory word.chars js =
      scan (matchesAny crypt_r hashes) (js.flatMap fun j => (List.range 10).map (word.insert j)) := by
  induction js with
  | nil => rfl
  | cons j js ih =>
      have hdigits : digitLoop crypt_r hashes memory word.chars j (List.range 10) =
          scan (matchesAny crypt_r hashes) ((List.range 10).map (word.insert j)) :=
        digitLoop_eq (hjs j List.mem_cons_self) fun k hk => List.mem_range.mp hk
      rw [positionLoop, hdigits, ih fun j hj => hjs j (List.mem_cons_of_mem _ hj), List.flatMap_cons]
      cases hprinted : (scan (matchesAny crypt_r hashes) ((List.range 10).map (word.insert j))).printed with
      | none =>
          have hnone := scan_printed hprinted
          rw [scan_append_none hnone, scan_none hnone]
      | some s =>
          rw [scan_append_some hprinted]
          generalize scan (matchesAny crypt_r hashes) ((List.range 10).map (word.insert j)) = found
            at hprinted ⊢
          obtain ⟨tested, printed⟩ := found
          obtain rfl := hprinted
          rfl

/-- The variants in the order of the loops. -/
theorem flatMap_insert : ((List.range n).flatMap fun j => (List.range 10).map (word.insert j)) =
    (List.range (10 * n)).map word.variant := by
  induction n with
  | zero => rfl
  | succ n ih =>
      have hsplit : 10 * (n + 1) = 10 * n + 10 := rfl
      rw [List.range_succ (n := n), List.flatMap_append, ih, hsplit, List.range_add, List.map_append,
        List.flatMap_singleton, List.map_map]
      congr 1
      refine List.map_congr_left fun k hk => ?_
      have hk := List.mem_range.mp hk
      have hj : (10 * n + k) / 10 = n := by omega
      have hdigit : (10 * n + k) % 10 = k := by omega
      rw [Function.comp_apply, Word.variant, hj, hdigit]

/-- **The search.** The variants are tested in the order of the loops, up to the first one that
matches. -/
theorem isPassword_eq : isPassword crypt_r hashes memory word.chars =
    scan (matchesAny crypt_r hashes) ((List.range (10 * (word.chars.length + 1))).map word.variant) := by
  rw [isPassword, positionLoop_eq fun j hj => Nat.le_of_lt_succ (List.mem_range.mp hj), flatMap_insert]

/-- The variants are all tested if none matches; otherwise those up to the first match are. -/
theorem isPassword_cases :
    ((∀ t < 10 * (word.chars.length + 1), matchesAny crypt_r hashes (word.variant t) = false) ∧
      isPassword crypt_r hashes memory word.chars =
        ⟨(List.range (10 * (word.chars.length + 1))).map word.variant, none⟩) ∨
    ∃ t < 10 * (word.chars.length + 1), matchesAny crypt_r hashes (word.variant t) = true ∧
      (∀ u < t, matchesAny crypt_r hashes (word.variant u) = false) ∧
      isPassword crypt_r hashes memory word.chars =
        ⟨(List.range (t + 1)).map word.variant, some (word.variant t)⟩ := by
  rw [isPassword_eq]
  by_cases hmatch : ∃ t, t < 10 * (word.chars.length + 1) ∧
      matchesAny crypt_r hashes (word.variant t) = true
  · obtain ⟨hlt, hmatches⟩ := Nat.find_spec hmatch
    have hmin : ∀ u < Nat.find hmatch, matchesAny crypt_r hashes (word.variant u) = false := by
      intro u hu
      have hnot := Nat.find_min hmatch hu
      simpa [hu.trans hlt] using hnot
    generalize Nat.find hmatch = t at hlt hmatches hmin
    have hsplit : 10 * (word.chars.length + 1) = t + 1 + (10 * (word.chars.length + 1) - (t + 1)) := by
      omega
    refine .inr ⟨t, hlt, hmatches, hmin, ?_⟩
    rw [hsplit, List.range_add, List.map_append, List.range_succ, List.map_append, List.map_singleton,
      List.append_assoc, List.singleton_append, scan_some _ hmatches]
    intro s hs
    obtain ⟨u, hu, rfl⟩ := List.mem_map.mp hs
    exact hmin u (List.mem_range.mp hu)
  · have hnone : ∀ t < 10 * (word.chars.length + 1),
        matchesAny crypt_r hashes (word.variant t) = false := by
      intro t ht
      by_contra hne
      exact hmatch ⟨t, ht, by simpa using hne⟩
    refine .inl ⟨hnone, scan_none ?_⟩
    intro s hs
    obtain ⟨t, ht, rfl⟩ := List.mem_map.mp hs
    exact hnone t (List.mem_range.mp ht)

/-- The variants by their numbers: -/
theorem mem_variants {s : CString} :
    s ∈ (List.range n).map word.variant ↔ ∃ t < n, s = word.variant t := by
  simp only [List.mem_map, List.mem_range, eq_comm]

/-- the tens are the position, and the ones the digit. -/
theorem variant_add (hk : k < 10) : word.variant (10 * j + k) = word.insert j k := by
  have hj : (10 * j + k) / 10 = j := by omega
  have hdigit : (10 * j + k) % 10 = k := by omega
  rw [Word.variant, hj, hdigit]

/-- **Printing.** All variants that match are printed exactly if they are one string. -/
theorem isPassword_prints_iff :
    (∀ j ≤ word.chars.length, ∀ k < 10, matchesAny crypt_r hashes (word.insert j k) = true →
      (isPassword crypt_r hashes memory word.chars).printed = some (word.insert j k)) ↔
    ∀ j ≤ word.chars.length, ∀ k < 10, ∀ j' ≤ word.chars.length, ∀ k' < 10,
      matchesAny crypt_r hashes (word.insert j k) = true →
      matchesAny crypt_r hashes (word.insert j' k') = true → word.insert j k = word.insert j' k' := by
  constructor
  · intro hprints j hj k hk j' hj' k' hk' hmatch hmatch'
    have hprinted := hprints j hj k hk hmatch
    rw [hprints j' hj' k' hk' hmatch'] at hprinted
    exact (Option.some.inj hprinted).symm
  · intro hone j hj k hk hmatch
    rcases @isPassword_cases crypt_r hashes memory word
      with ⟨hnone, -⟩ | ⟨t, ht, hmatches, -, heq⟩
    · have hfalse := hnone (10 * j + k) (by omega)
      rw [variant_add hk, hmatch] at hfalse
      cases hfalse
    · rw [heq]
      exact congrArg some (hone _ (by omega) _ (by omega) j hj k hk hmatches hmatch)

/-- A variant that ends as one with its digit behind the word. -/
theorem variant_eq_last {t : Nat} (ht : t < 10 * (word.chars.length + 1)) (hk : k < 10)
    (h : word.variant t = word.insert word.chars.length k) :
    t = 10 * word.chars.length + k ∨
      (t < 10 * word.chars.length ∧ word.chars.getLast? = some (UInt8.ofNat (k + 48))) := by
  have hlast := congrArg List.getLast? h
  rw [getLast?_insert_length] at hlast
  rcases Nat.lt_or_ge (t / 10) word.chars.length with hlt | hge
  · rw [Word.variant, getLast?_insert hlt] at hlast
    exact .inr ⟨by omega, hlast⟩
  · have hj : t / 10 = word.chars.length := by omega
    rw [Word.variant, hj, getLast?_insert_length, Option.some.injEq] at hlast
    have hdigit := digit_injective (by omega) hk hlast
    exact .inl (by omega)

/-- A 9 behind a word that ends in 9 may as well stand before that. -/
theorem insert_nine (h : word.chars.getLast? = some 57) :
    0 < word.chars.length ∧
      word.insert word.chars.length 9 = word.insert (word.chars.length - 1) 9 := by
  obtain ⟨front, hchars⟩ := List.getLast?_eq_some_iff.mp h
  have hlength : word.chars.length = front.length + 1 := by
    rw [hchars, List.length_append, List.length_singleton]
  refine ⟨by omega, ?_⟩
  rw [Word.insert, Word.insert, List.take_length, List.drop_length, hlength, Nat.add_sub_cancel,
    hchars, List.take_left' rfl, List.drop_left' rfl, List.append_assoc]
  rfl

/-- So it is among the variants before. -/
theorem exists_variant_nine {t : Nat} (ht : t / 10 = word.chars.length) (height : t % 10 = 8)
    (h : word.chars.getLast? = some 57) :
    ∃ u < t, word.insert word.chars.length 9 = word.variant u := by
  obtain ⟨hpos, hnine⟩ := insert_nine h
  exact ⟨10 * (word.chars.length - 1) + 9, by omega, by rw [variant_add (by omega), hnine]⟩

/-- All strings with a digit inserted. -/
theorem mem_all_variants {s : CString} :
    s ∈ (List.range (10 * (word.chars.length + 1))).map word.variant ↔
      ∃ j ≤ word.chars.length, ∃ k < 10, s = word.insert j k := by
  rw [mem_variants]
  constructor
  · rintro ⟨t, ht, rfl⟩
    exact ⟨t / 10, by omega, t % 10, by omega, rfl⟩
  · rintro ⟨j, hj, k, hk, rfl⟩
    exact ⟨10 * j + k, by omega, (variant_add hk).symm⟩

/-- If the variants up to number `t` are all, only the last one can be behind. -/
theorem last_of_tests {t : Nat} (ht : t < 10 * (word.chars.length + 1))
    (htests : ∀ j ≤ word.chars.length, ∀ k < 10,
      word.insert j k ∈ (List.range (t + 1)).map word.variant) (hk : k < 10) (hj : j ≤ word.chars.length)
    (hge : t ≤ 10 * j + k) :
    j = word.chars.length ∧ (k = 9 ∨ k = 8 ∧ word.chars.getLast? = some 57) := by
  have htested (e : Nat) (he : e < 10) : 10 * word.chars.length + e ≤ t ∨
      word.chars.getLast? = some (UInt8.ofNat (e + 48)) := by
    obtain ⟨u, hu, heq⟩ := mem_variants.mp (htests _ le_rfl e he)
    rcases variant_eq_last (by omega) he heq.symm with rfl | ⟨-, hlast⟩
    · exact .inl (by omega)
    · exact .inr hlast
  -- no word ends in two digits at once
  have hlow : 10 * word.chars.length + 8 ≤ t ∨ 10 * word.chars.length + 9 ≤ t := by
    rcases htested 8 (by omega) with height | height
    · exact .inl height
    · rcases htested 9 (by omega) with hnine | hnine
      · exact .inr hnine
      · rw [height, Option.some.injEq] at hnine
        exact absurd (digit_injective (by omega) (by omega) hnine) (by decide)
  obtain rfl : j = word.chars.length := by omega
  refine ⟨rfl, ?_⟩
  rcases htested 9 (by omega) with hnine | hlast
  · exact .inl (by omega)
  · rcases Nat.lt_or_ge k 9 with hlt | hge'
    · exact .inr ⟨by omega, hlast⟩
    · exact .inl (by omega)

/-- If only the last one can be behind, the variants up to number `t` are all. -/
theorem tests_of_last {t : Nat} (hlast : t / 10 = word.chars.length ∧
      (t % 10 = 9 ∨ t % 10 = 8 ∧ word.chars.getLast? = some 57)) {s : CString} :
    s ∈ (List.range (t + 1)).map word.variant ↔
      ∃ j ≤ word.chars.length, ∃ k < 10, s = word.insert j k := by
  rw [mem_variants]
  constructor
  · rintro ⟨u, hu, rfl⟩
    exact ⟨u / 10, by omega, u % 10, by omega, rfl⟩
  · rintro ⟨j, hj, k, hk, rfl⟩
    by_cases hle : 10 * j + k ≤ t
    · exact ⟨10 * j + k, by omega, (variant_add hk).symm⟩
    · obtain rfl : j = word.chars.length := by omega
      obtain rfl : k = 9 := by omega
      obtain ⟨u, hu, heq⟩ := exists_variant_nine hlast.1 (by omega) (hlast.2.resolve_left (by omega)).2
      exact ⟨u, by omega, heq⟩

end Loops

/-- The search tests the strings with one digit inserted into the word and no others, and it
prints all of them that match a hash. -/
structure Exhaustive (crypt_r : CString → CString → List UInt8) (hashes : List (List UInt8))
    (word : Word) (search : Search) : Prop where
  tests : ∀ s, s ∈ search.tested ↔ ∃ j ≤ word.chars.length, ∃ k < 10, s = word.insert j k
  prints : ∀ j ≤ word.chars.length, ∀ k < 10, matchesAny crypt_r hashes (word.insert j k) = true →
    search.printed = some (word.insert j k)

/-- **Exhaustive search.** `is_password` tests all variants and prints those that match exactly if
none matches but the last: the one with a 9 behind the word, or if the word ends in 9, so
that this one was tested before, with an 8. -/
theorem isPassword_exhaustive_iff (crypt_r : CString → CString → List UInt8)
    (hashes : List (List UInt8)) (memory : Nat → Nat → Nat → UInt8) (word : Word) :
    Exhaustive crypt_r hashes word (isPassword crypt_r hashes memory word.chars) ↔
      ∀ j ≤ word.chars.length, ∀ k < 10, matchesAny crypt_r hashes (word.insert j k) = true →
        j = word.chars.length ∧ (k = 9 ∨ k = 8 ∧ word.chars.getLast? = some 57) := by
  rcases @isPassword_cases crypt_r hashes memory word
    with ⟨hnone, heq⟩ | ⟨t, ht, hmatches, hmin, heq⟩
  · have hnomatch : ∀ j ≤ word.chars.length, ∀ k < 10,
        matchesAny crypt_r hashes (word.insert j k) ≠ true := by
      intro j hj k hk
      rw [← variant_add hk, hnone _ (by omega)]
      exact Bool.false_ne_true
    rw [heq]
    constructor
    · intro _ j hj k hk hmatch
      exact absurd hmatch (hnomatch j hj k hk)
    · intro _
      exact ⟨fun s => mem_all_variants, fun j hj k hk hmatch => absurd hmatch (hnomatch j hj k hk)⟩
  · have hge : ∀ j ≤ word.chars.length, ∀ k < 10,
        matchesAny crypt_r hashes (word.insert j k) = true → t ≤ 10 * j + k := by
      intro j hj k hk hmatch
      by_contra hlt
      have hfalse := hmin _ (Nat.lt_of_not_le hlt)
      rw [variant_add hk, hmatch] at hfalse
      cases hfalse
    rw [heq]
    constructor
    · intro hexhaustive j hj k hk hmatch
      exact last_of_tests ht (fun j hj k hk => (hexhaustive.tests _).mpr ⟨j, hj, k, hk, rfl⟩) hk hj
        (hge j hj k hk hmatch)
    · intro hlast
      have hmatches' : matchesAny crypt_r hashes (word.insert (t / 10) (t % 10)) = true := hmatches
      have hend := hlast _ (by omega) _ (by omega) hmatches'
      refine ⟨fun s => tests_of_last hend, fun j hj k hk hmatch => ?_⟩
      have hge' := hge j hj k hk hmatch
      obtain ⟨rfl, hk'⟩ := hlast j hj k hk hmatch
      by_cases hsame : k = t % 10
      · have ht' : t = 10 * word.chars.length + k := by omega
        rw [ht', variant_add hk]
      · -- the 9 behind the word was tested before
        obtain rfl : k = 9 := by omega
        obtain ⟨u, hu, hnine⟩ :=
          exists_variant_nine hend.1 (by omega) (hend.2.resolve_left (by omega)).2
        have hfalse := hmin u hu
        rw [← hnine, hmatch] at hfalse
        cases hfalse

/-! ## Two targets from one word -/

/-- A function that shows the salt and the password. -/
def plainCrypt (password salt : CString) : List UInt8 :=
  (salt ++ password ++ List.replicate 86 46).take HASH_LENGTH

/-- A salt of the form `$6$...$`. -/
def dotSalt : CString := [36, 54, 36] ++ List.replicate 16 46 ++ [36]

/-- The hashes of `a0` and `0a`. -/
def twoHashes : List (List UInt8) := [plainCrypt [97, 48] dotSalt, plainCrypt [48, 97] dotSalt]

/-- **A missed password.** The search for the word `a` returns when `0a` matches, and does not test
`a0`, which matches too. -/
theorem missed_password :
    isPassword plainCrypt twoHashes (fun _ _ _ => 0) [97] = ⟨[[48, 97]], some [48, 97]⟩ ∧
      matchesAny plainCrypt twoHashes [97, 48] = true ∧
      ¬ Exhaustive plainCrypt twoHashes ⟨[97], by decide⟩
        (isPassword plainCrypt twoHashes (fun _ _ _ => 0) [97]) := by
  have hsearch : isPassword plainCrypt twoHashes (fun _ _ _ => 0) [97] =
      ⟨[[48, 97]], some [48, 97]⟩ := rfl
  have hmatch : matchesAny plainCrypt twoHashes [97, 48] = true := by decide
  refine ⟨hsearch, hmatch, fun hexhaustive => ?_⟩
  have hprinted := hexhaustive.prints 1 le_rfl 0 (by decide) hmatch
  rw [hsearch] at hprinted
  exact absurd hprinted (by decide)

end PasswordCracker
