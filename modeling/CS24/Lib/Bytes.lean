import Mathlib

/-!
# Byte-addressed memory

A memory is a total map from addresses to bytes.  Words of 64 bits are stored
little-endian, so a word read depends on eight bytes and a word write changes
exactly eight.  Everything the programs do to memory is a word access, a byte
write, a `memset` or a `memcpy`; the lemmas below say what each of them leaves
unchanged and what a later read returns.
-/

namespace Bytes

/-- A byte-addressed memory. -/
abbrev Mem := Nat → UInt8

/-- Addresses `[a, a + n)` and `[b, b + k)` do not meet. -/
def Apart (a n b k : Nat) : Prop := a + n ≤ b ∨ b + k ≤ a

instance (a n b k : Nat) : Decidable (Apart a n b k) := by
  unfold Apart; infer_instance

/-- Byte `i` of the little-endian encoding of `v`. -/
def byteOf (v i : Nat) : UInt8 := UInt8.ofNat (v / 256 ^ i)

/-- The little-endian 64-bit word at address `a`. -/
def load64 (m : Mem) (a : Nat) : Nat :=
  (m a).toNat + 256 * (m (a + 1)).toNat + 256 ^ 2 * (m (a + 2)).toNat +
    256 ^ 3 * (m (a + 3)).toNat + 256 ^ 4 * (m (a + 4)).toNat +
    256 ^ 5 * (m (a + 5)).toNat + 256 ^ 6 * (m (a + 6)).toNat +
    256 ^ 7 * (m (a + 7)).toNat

/-- Write one byte. -/
def store8 (m : Mem) (a : Nat) (b : UInt8) : Mem :=
  fun i => if i = a then b else m i

/-- Write the 64-bit word `v` at address `a`. -/
def store64 (m : Mem) (a v : Nat) : Mem :=
  fun i => if a ≤ i ∧ i < a + 8 then byteOf v (i - a) else m i

/-- `memset`: set `n` bytes from `a` on to `b`. -/
def fill (m : Mem) (a : Nat) (b : UInt8) (n : Nat) : Mem :=
  fun i => if a ≤ i ∧ i < a + n then b else m i

/-- `memcpy` from memory: the `n` bytes from `src` on go to `dst`. -/
def copy (m : Mem) (dst src n : Nat) : Mem :=
  fun i => if dst ≤ i ∧ i < dst + n then m (src + (i - dst)) else m i

/-- `memcpy` of given data: the bytes of `data` go to `dst`. -/
def blit (m : Mem) (dst : Nat) (data : List UInt8) : Mem :=
  fun i => if dst ≤ i then (data[i - dst]?).getD (m i) else m i

/-- A word read sees only its own eight bytes. -/
theorem load64_congr {m m' : Mem} {a : Nat}
    (h : ∀ i, a ≤ i → i < a + 8 → m' i = m i) : load64 m' a = load64 m a := by
  unfold load64
  rw [h a (by omega) (by omega), h (a + 1) (by omega) (by omega),
    h (a + 2) (by omega) (by omega), h (a + 3) (by omega) (by omega),
    h (a + 4) (by omega) (by omega), h (a + 5) (by omega) (by omega),
    h (a + 6) (by omega) (by omega), h (a + 7) (by omega) (by omega)]

/-- A byte of a word is a digit of it. -/
theorem byteOf_toNat (v i : Nat) : (byteOf v i).toNat = v / 256 ^ i % 256 := by
  simp [byteOf, UInt8.toNat_ofNat']

/-- The bytes of a word that has been stored, -/
theorem store64_byte {m : Mem} {a v k : Nat} (hk : k < 8) :
    store64 m a v (a + k) = byteOf v k := by
  have : a ≤ a + k ∧ a + k < a + 8 := by omega
  simp [store64, this]

/-- Bytes outside the written word are kept. -/
theorem store64_other {m : Mem} {a v i : Nat} (h : i < a ∨ a + 8 ≤ i) :
    store64 m a v i = m i := by
  have : ¬ (a ≤ i ∧ i < a + 8) := by omega
  simp [store64, this]

/-- A word that fits in 64 bits reads back as it was written. -/
theorem load64_store64_same {m : Mem} {a v : Nat} (hv : v < 2 ^ 64) :
    load64 (store64 m a v) a = v := by
  have h0 : store64 m a v a = byteOf v 0 := store64_byte (k := 0) (by omega)
  unfold load64
  rw [h0, store64_byte (by omega), store64_byte (by omega), store64_byte (by omega),
    store64_byte (by omega), store64_byte (by omega), store64_byte (by omega),
    store64_byte (by omega)]
  simp only [byteOf_toNat]
  omega

/-- A word read apart from a word write is unaffected by it. -/
theorem load64_store64_apart {m : Mem} {a b v : Nat} (h : Apart a 8 b 8) :
    load64 (store64 m a v) b = load64 m b :=
  load64_congr fun i h1 h2 => store64_other (by unfold Apart at h; omega)

/-- and those beside a byte. -/
theorem store8_other {m : Mem} {a i : Nat} {b : UInt8} (h : i ≠ a) :
    store8 m a b i = m i := by simp [store8, h]

/-- Bytes outside stay when some are filled, -/
theorem fill_other {m : Mem} {a n i : Nat} {b : UInt8} (h : i < a ∨ a + n ≤ i) :
    fill m a b n i = m i := by
  have : ¬ (a ≤ i ∧ i < a + n) := by omega
  simp [fill, this]

/-- and those inside are filled. -/
theorem fill_inside {m : Mem} {a n i : Nat} {b : UInt8} (h1 : a ≤ i) (h2 : i < a + n) :
    fill m a b n i = b := by
  simp [fill, h1, h2]

/-- A word in memory that is set to 0 is 0. -/
theorem load64_fill_zero {m : Mem} {a n i : Nat} (h1 : a ≤ i) (h2 : i + 8 ≤ a + n) :
    load64 (fill m a 0 n) i = 0 := by
  have hzero : ∀ k < 8, fill m a 0 n (i + k) = 0 := by
    intro k hk
    exact fill_inside (by omega) (by omega)
  have h0 := hzero 0 (by omega)
  rw [Nat.add_zero] at h0
  unfold load64
  rw [h0, hzero 1 (by omega), hzero 2 (by omega), hzero 3 (by omega), hzero 4 (by omega),
    hzero 5 (by omega), hzero 6 (by omega), hzero 7 (by omega)]
  rfl

/-- The same for bytes that are copied, -/
theorem copy_other {m : Mem} {dst src n i : Nat} (h : i < dst ∨ dst + n ≤ i) :
    copy m dst src n i = m i := by
  have : ¬ (dst ≤ i ∧ i < dst + n) := by omega
  simp [copy, this]

/-- which become those that they are copied from, -/
theorem copy_inside {m : Mem} {dst src n k : Nat} (h : k < n) :
    copy m dst src n (dst + k) = m (src + k) := by
  have : dst ≤ dst + k ∧ dst + k < dst + n := by omega
  simp [copy, this]

/-- and for data that is written: -/
theorem blit_other {m : Mem} {dst i : Nat} {data : List UInt8}
    (h : i < dst ∨ dst + data.length ≤ i) : blit m dst data i = m i := by
  by_cases hd : dst ≤ i
  · have : data[i - dst]? = none := List.getElem?_eq_none (by omega)
    simp [blit, hd, this]
  · simp [blit, hd]

/-- it is there. -/
theorem blit_inside {m : Mem} {dst k : Nat} {data : List UInt8} (h : k < data.length) :
    blit m dst data (dst + k) = data[k] := by
  simp [blit, h]

end Bytes
