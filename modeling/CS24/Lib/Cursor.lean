import Mathlib

/-!
# Reading a file at a position

A reader takes bytes from a file at its position, moves behind them, and may set the
position anywhere.  `Reads file r bs a` says that `r` reads `bs` as `a`: wherever the file
has the bytes `bs`, the reader returns `a` and moves behind them.  The rules follow how
readers are put together, so that a proof that a format is read back follows the format.
-/

namespace Cursor

variable {ε α β : Type}

/-- A program that reads a file; its state is the position, and `ε` are its failures. -/
abbrev Reader (ε α : Type) := StateT Nat (Except ε) α

section Primitives

variable (file : List UInt8)

/-- The byte at the position; behind the end of the file there is none. -/
def byte (e : ε) : Reader ε UInt8 := fun pos =>
  match file[pos]? with
  | some b => .ok (b, pos + 1)
  | none => .error e

/-- The next `n` bytes. -/
def bytes (n : Nat) (e : ε) : Reader ε (List UInt8) := fun pos =>
  if ((file.drop pos).take n).length = n then .ok ((file.drop pos).take n, pos + n) else .error e

end Primitives

/-- Run a reader, and then set the position `n` bytes behind where it started. -/
def within (n : Nat) (r : Reader ε α) : Reader ε α := do
  let start ← get
  let a ← r
  set (start + n)
  pure a

/-- A test that reads nothing. -/
def require (p : Prop) [Decidable p] (e : ε) : Reader ε Unit := if p then pure () else throw e

/-- Run a reader `n` times. -/
def readList (r : Reader ε α) : Nat → Reader ε (List α)
  | 0 => pure []
  | n + 1 => do
    let a ← r
    let as ← readList r n
    pure (a :: as)

/-- The file has the bytes `bs` at `pos`. -/
def Lies (file bs : List UInt8) (pos : Nat) : Prop := bs <+: file.drop pos

/-- Both parts lie one behind the other. -/
theorem lies_append {file bs cs : List UInt8} {pos : Nat} :
    Lies file (bs ++ cs) pos ↔ Lies file bs pos ∧ Lies file cs (pos + bs.length) := by
  unfold Lies
  rw [← List.drop_drop]
  constructor
  · intro ⟨rest, h⟩
    rw [← h, List.append_assoc]
    exact ⟨List.prefix_append _ _, by simp⟩
  · intro ⟨⟨rest, h⟩, hcs⟩
    rw [← h, List.drop_left] at hcs
    rw [← h]
    exact (List.prefix_append_right_inj bs).mpr hcs

/-- Wherever the file has the bytes `bs`, the reader returns `a` and moves behind them. -/
def Reads (file : List UInt8) (r : Reader ε α) (bs : List UInt8) (a : α) : Prop :=
  ∀ pos, Lies file bs pos → r pos = .ok (a, pos + bs.length)

namespace Reads

variable {file bs cs : List UInt8} {r : Reader ε α} {f : α → Reader ε β} {a : α} {b : β}

/-- Nothing is read, -/
theorem pure (a : α) : Reads file (pure a : Reader ε α) [] a := fun _ _ => rfl

/-- **Sequencing**: the bytes of the second reader follow those of the first. -/
theorem bind (h : Reads file r bs a) (hf : Reads file (f a) cs b) :
    Reads file (r >>= f) (bs ++ cs) b := by
  intro pos hlies
  obtain ⟨hbs, hcs⟩ := lies_append.mp hlies
  change Except.bind (r pos) (fun s => f s.1 s.2) = _
  rw [h pos hbs]
  change f a (pos + bs.length) = _
  rw [hf _ hcs, List.length_append, Nat.add_assoc]

/-- Computing the result from what was read. -/
theorem bind_pure {g : α → β} (h : Reads file r bs a) :
    Reads file (r >>= fun x => Pure.pure (g x)) bs (g a) := by
  rw [← List.append_nil bs]
  exact h.bind (f := fun x => Pure.pure (g x)) (pure (g a))

/-- Reading nothing first. -/
theorem bind_nil (h : Reads file r [] a) (hf : Reads file (f a) cs b) :
    Reads file (r >>= f) cs b := h.bind hf

/-- a byte is, -/
theorem byte (e : ε) (c : UInt8) : Reads file (byte file e) [c] c := by
  intro pos ⟨rest, h⟩
  have hget : file[pos]? = some c := by
    rw [← Nat.add_zero pos, ← List.getElem?_drop, ← h]
    rfl
  simp [Cursor.byte, hget]

/-- some bytes are, -/
theorem bytes (e : ε) (bs : List UInt8) : Reads file (bytes file bs.length e) bs bs := by
  intro pos ⟨rest, h⟩
  have htake : (file.drop pos).take bs.length = bs := by
    rw [← h]
    simp
  simp [Cursor.bytes, htake]

/-- and a test reads nothing. -/
theorem require {p : Prop} [Decidable p] (e : ε) (h : p) :
    Reads file (require p e) [] () := by
  rw [Cursor.require, if_pos h]
  exact pure ()

/-- Each run of the reader reads its own piece. -/
theorem readList {pieces : List (List UInt8)} {as : List α}
    (h : List.Forall₂ (Reads file r) pieces as) :
    Reads file (readList r pieces.length) pieces.flatten as := by
  induction h with
  | nil => exact pure []
  | @cons piece a pieces as h _ ih =>
      exact h.bind ih.bind_pure

/-- **Skipping**: a reader that reads the first of the bytes `bs`, then the position is set
behind all of them. -/
theorem within (h : Reads file r bs a) (cs : List UInt8) :
    Reads file (within (bs ++ cs).length r) (bs ++ cs) a := by
  intro pos hlies
  change Except.bind (r pos) (fun s => .ok (s.1, pos + (bs ++ cs).length)) = _
  rw [h pos (lies_append.mp hlies).1]
  rfl

end Reads

/-- Big-endian bytes of a 16-bit integer. -/
def bigEndian16 (v : UInt16) : List UInt8 := [(v >>> 8).toUInt8, v.toUInt8]

/-- Big-endian bytes of a 32-bit integer. -/
def bigEndian32 (v : UInt32) : List UInt8 :=
  bigEndian16 (v >>> 16).toUInt16 ++ bigEndian16 v.toUInt16

/-- The upper and the lower part of a number, put together. -/
theorem shiftLeft_or_mod (n i : Nat) : (n >>> i) <<< i ||| n % 2 ^ i = n := by
  rw [← Nat.shiftLeft_add_eq_or_of_lt (Nat.mod_lt n (by positivity)), Nat.shiftLeft_eq,
    Nat.shiftRight_eq_div_pow]
  exact Nat.div_add_mod' n (2 ^ i)

/-- Two bytes make a word, -/
theorem or_bytes (v : UInt16) :
    (v >>> 8).toUInt8.toUInt16 <<< 8 ||| v.toUInt8.toUInt16 = v := by
  apply UInt16.toNat_inj.mp
  have hv := v.toNat_lt
  have hhigh : v.toNat >>> 8 % 256 = v.toNat >>> 8 := by
    rw [Nat.shiftRight_eq_div_pow]
    omega
  have hshift : (v.toNat >>> 8) <<< 8 % 65536 = (v.toNat >>> 8) <<< 8 := by
    rw [Nat.shiftLeft_eq, Nat.shiftRight_eq_div_pow]
    omega
  simpa [hhigh, hshift] using shiftLeft_or_mod v.toNat 8

/-- and two words a longer one. -/
theorem or_words (v : UInt32) :
    (v >>> 16).toUInt16.toUInt32 <<< 16 ||| v.toUInt16.toUInt32 = v := by
  apply UInt32.toNat_inj.mp
  have hv := v.toNat_lt
  have hhigh : v.toNat >>> 16 % 65536 = v.toNat >>> 16 := by
    rw [Nat.shiftRight_eq_div_pow]
    omega
  have hshift : (v.toNat >>> 16) <<< 16 % 4294967296 = (v.toNat >>> 16) <<< 16 := by
    rw [Nat.shiftLeft_eq, Nat.shiftRight_eq_div_pow]
    omega
  simpa [hhigh, hshift] using shiftLeft_or_mod v.toNat 16

end Cursor
