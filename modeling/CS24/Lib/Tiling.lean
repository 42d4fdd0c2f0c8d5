import Mathlib

/-!
# Lists of blocks that tile an interval

A list of blocks, each with a start and a size, tiles `[lo, hi)` when the first
block starts at `lo`, every block starts where the one before ends, and the
last ends at `hi`.  Memory managers keep their heap in this shape; splitting
and merging neighbours changes the list inside an unchanged context.
-/

namespace Tiling

variable {β : Type*} {start size : β → Nat}

/-- The blocks, in order and without gaps, cover exactly `[lo, hi)`. -/
def Tiles (start size : β → Nat) : Nat → List β → Nat → Prop
  | lo, [], hi => lo = hi
  | lo, b :: bs, hi => start b = lo ∧ Tiles start size (lo + size b) bs hi

@[simp] theorem tiles_nil {lo hi : Nat} : Tiles start size lo [] hi ↔ lo = hi := Iff.rfl

@[simp] theorem tiles_cons {lo hi : Nat} {b : β} {bs : List β} :
    Tiles start size lo (b :: bs) hi ↔
      start b = lo ∧ Tiles start size (lo + size b) bs hi := Iff.rfl

/-- A tiling of a concatenation splits at a middle point. -/
theorem tiles_append {lo hi : Nat} {as bs : List β} :
    Tiles start size lo (as ++ bs) hi ↔
      ∃ mid, Tiles start size lo as mid ∧ Tiles start size mid bs hi := by
  induction as generalizing lo with
  | nil => simp
  | cons a as ih =>
      simp only [List.cons_append, tiles_cons, ih]
      constructor
      · rintro ⟨h, mid, h1, h2⟩
        exact ⟨mid, ⟨h, h1⟩, h2⟩
      · rintro ⟨mid, ⟨h, h1⟩, h2⟩
        exact ⟨h, mid, h1, h2⟩

theorem Tiles.le {lo hi : Nat} {bs : List β} (h : Tiles start size lo bs hi) : lo ≤ hi := by
  induction bs generalizing lo with
  | nil => exact Nat.le_of_eq h
  | cons b bs ih => have := ih h.2; omega

/-- Every block of a tiling lies in the interval. -/
theorem Tiles.bounds {lo hi : Nat} {bs : List β} (h : Tiles start size lo bs hi)
    {b : β} (hb : b ∈ bs) : lo ≤ start b ∧ start b + size b ≤ hi := by
  induction bs generalizing lo with
  | nil => simp at hb
  | cons c bs ih =>
      have hle := h.2.le
      rcases List.mem_cons.mp hb with rfl | hb
      · have := h.1; omega
      · have := ih h.2 hb; omega

/-- Blocks of positive size are not more than the interval is long. -/
theorem Tiles.length_le {lo hi : Nat} {bs : List β} (h : Tiles start size lo bs hi)
    (hpos : ∀ b ∈ bs, 0 < size b) : lo + bs.length ≤ hi := by
  induction bs generalizing lo with
  | nil => exact Nat.le_of_eq h
  | cons b bs ih =>
      have hb := hpos b (by simp)
      have := ih h.2 (fun c hc => hpos c (by simp [hc]))
      simp only [List.length_cons]
      omega

/-- When all sizes are multiples of `k`, all blocks start alike modulo `k`. -/
theorem Tiles.start_mod {lo hi k : Nat} {bs : List β} (h : Tiles start size lo bs hi)
    (hk : ∀ b ∈ bs, size b % k = 0) {b : β} (hb : b ∈ bs) : start b % k = lo % k := by
  induction bs generalizing lo with
  | nil => simp at hb
  | cons c bs ih =>
      rcases List.mem_cons.mp hb with rfl | hb
      · rw [h.1]
      · rw [ih h.2 (fun d hd => hk d (by simp [hd])) hb, Nat.add_mod, hk c (by simp)]
        simp

theorem Tiles.end_mod {lo hi k : Nat} {bs : List β} (h : Tiles start size lo bs hi)
    (hk : ∀ b ∈ bs, size b % k = 0) : hi % k = lo % k := by
  induction bs generalizing lo with
  | nil => rw [show lo = hi from h]
  | cons c bs ih =>
      rw [ih h.2 (fun d hd => hk d (by simp [hd])), Nat.add_mod, hk c (by simp)]
      simp

/-- Earlier blocks end before later ones start. -/
theorem Tiles.pairwise {lo hi : Nat} {bs : List β} (h : Tiles start size lo bs hi) :
    bs.Pairwise (fun b c => start b + size b ≤ start c) := by
  induction bs generalizing lo with
  | nil => simp
  | cons b bs ih =>
      refine List.pairwise_cons.mpr ⟨fun c hc => ?_, ih h.2⟩
      have := (h.2.bounds hc).1
      have := h.1
      omega

/-- Two different blocks of a tiling do not overlap. -/
theorem Tiles.apart {lo hi : Nat} {bs : List β} (h : Tiles start size lo bs hi)
    {b c : β} (hb : b ∈ bs) (hc : c ∈ bs) (hne : b ≠ c) :
    start b + size b ≤ start c ∨ start c + size c ≤ start b := by
  induction bs generalizing lo with
  | nil => simp at hb
  | cons d bs ih =>
      have hd := h.1
      rcases List.mem_cons.mp hb with rfl | hb' <;> rcases List.mem_cons.mp hc with rfl | hc'
      · exact absurd rfl hne
      · have := (h.2.bounds hc').1; omega
      · have := (h.2.bounds hb').1; omega
      · exact ih h.2 hb' hc'

/-- Blocks of positive size are determined by where they start. -/
theorem Tiles.eq_of_start {lo hi : Nat} {bs : List β} (h : Tiles start size lo bs hi)
    (hpos : ∀ b ∈ bs, 0 < size b) {b c : β} (hb : b ∈ bs) (hc : c ∈ bs)
    (hst : start b = start c) : b = c := by
  by_contra hne
  have := h.apart hb hc hne
  have := hpos b hb
  have := hpos c hc
  omega

/-- The block right before a point inside a tiling ends at that point. -/
theorem Tiles.last_end {lo hi : Nat} {bs : List β} {b : β}
    (h : Tiles start size lo (bs ++ [b]) hi) : start b + size b = hi := by
  obtain ⟨mid, -, h1, h2⟩ := tiles_append.mp h
  rw [h1]
  exact h2

/-! ## Runs of free bytes

Some blocks of a tiling are free.  Where no two neighbours are, the free blocks
are determined by the others, and each is a maximal run of free bytes. -/

/-- The byte at `i` lies in a block of the list that satisfies `P`. -/
def Within (start size : β → Nat) (P : β → Prop) (bs : List β) (i : Nat) : Prop :=
  ∃ b ∈ bs, P b ∧ start b ≤ i ∧ i < start b + size b

/-- `[lo, hi)` satisfies `P` throughout and cannot be extended. -/
structure MaximalRun (P : Nat → Prop) (lo hi : Nat) : Prop where
  nonempty : lo < hi
  all : ∀ i, lo ≤ i → i < hi → P i
  left : ∀ i, i + 1 = lo → ¬ P i
  right : ¬ P hi

theorem MaximalRun.congr {P Q : Nat → Prop} {lo hi : Nat} (h : MaximalRun P lo hi)
    (hPQ : ∀ i, P i ↔ Q i) : MaximalRun Q lo hi :=
  ⟨h.nonempty, fun i h1 h2 => (hPQ i).mp (h.all i h1 h2),
    fun i hi hq => h.left i hi ((hPQ i).mpr hq), fun hq => h.right ((hPQ hi).mpr hq)⟩

section Marked

variable {lo hi : Nat} {bs cs : List β} {P : β → Prop}

/-- Every byte of the interval lies in exactly one kind of block. -/
theorem Tiles.within_not (h : Tiles start size lo bs hi) {i : Nat} :
    Within start size (fun b => ¬ P b) bs i ↔
      lo ≤ i ∧ i < hi ∧ ¬ Within start size P bs i := by
  induction bs generalizing lo with
  | nil =>
      have hlo : lo = hi := h
      simp only [Within, List.not_mem_nil, false_and, exists_false, false_iff]
      omega
  | cons b bs ih =>
      obtain ⟨hb, hrest⟩ := h
      have hle := hrest.le
      have hcons {Q : β → Prop} : Within start size Q (b :: bs) i ↔
          (Q b ∧ start b ≤ i ∧ i < start b + size b) ∨ Within start size Q bs i := by
        simp [Within]
      have hout {Q : β → Prop} (hc : Within start size Q bs i) : lo + size b ≤ i := by
        obtain ⟨c, hmem, -, hlo, -⟩ := hc
        have := (hrest.bounds hmem).1
        omega
      rw [hcons, hcons, ih hrest, hb]
      have := @hout P
      grind

/-- The block that ends where another one starts comes right before it. -/
theorem Tiles.rel_of_touch {R : β → β → Prop} (h : Tiles start size lo bs hi)
    (hpos : ∀ b ∈ bs, 0 < size b) (hR : bs.IsChain R) {b c : β} (hb : b ∈ bs) (hc : c ∈ bs)
    (htouch : start c = start b + size b) : R b c := by
  obtain ⟨pre, post, rfl⟩ := List.append_of_mem hb
  obtain ⟨mid, -, hmid, hpost⟩ := tiles_append.mp h
  obtain ⟨-, htail, hcross⟩ := List.pairwise_append.mp h.pairwise
  have hbpos := hpos b hb
  have hcpos := hpos c hc
  have hcmem : c ∈ post := by
    rcases List.mem_append.mp hc with hc | hc
    · have := hcross c hc b (by simp)
      omega
    · rcases List.mem_cons.mp hc with rfl | hc
      · omega
      · exact hc
  cases post with
  | nil => simp at hcmem
  | cons d post =>
      have hd : start d = start b + size b := by rw [hpost.1, hmid]
      have hdc : d = c := h.eq_of_start hpos (by simp) hc (by omega)
      have hchain := (List.isChain_append.mp hR).2.1
      exact hdc ▸ (List.isChain_cons_cons.mp hchain).1

/-- **The maximal runs** of bytes outside `P` are the blocks outside `P`, when no two
of them are neighbours. -/
theorem Tiles.maximalRun_iff (h : Tiles start size lo bs hi) (hpos : ∀ b ∈ bs, 0 < size b)
    (hadj : bs.IsChain fun b c => P b ∨ P c) {l r : Nat} :
    MaximalRun (Within start size (fun b => ¬ P b) bs) l r ↔
      ∃ b ∈ bs, ¬ P b ∧ l = start b ∧ r = start b + size b := by
  -- no byte next to a block outside `P` is outside `P`
  have hright : ∀ b ∈ bs, ¬ P b →
      ¬ Within start size (fun b => ¬ P b) bs (start b + size b) := by
    rintro b hb hPb ⟨c, hc, hPc, hlo, hhi⟩
    have hne : b ≠ c := fun he => by subst he; omega
    have hbpos := hpos b hb
    have := h.apart hb hc hne
    rcases h.rel_of_touch hpos hadj hb hc (by omega) with hP | hP
    · exact hPb hP
    · exact hPc hP
  have hleft : ∀ b ∈ bs, ¬ P b → ∀ i, i + 1 = start b →
      ¬ Within start size (fun b => ¬ P b) bs i := by
    rintro b hb hPb i hi ⟨c, hc, hPc, hclo, hchi⟩
    have hne : c ≠ b := fun he => by subst he; omega
    have hbpos := hpos b hb
    have := h.apart hc hb hne
    rcases h.rel_of_touch hpos hadj hc hb (by omega) with hP | hP
    · exact hPc hP
    · exact hPb hP
  constructor
  · intro hrun
    obtain ⟨b, hb, hPb, hblo, hbhi⟩ := hrun.all l (le_refl l) hrun.nonempty
    have hl : l = start b := by
      by_contra hne
      exact hrun.left (l - 1) (by omega) ⟨b, hb, hPb, by omega, by omega⟩
    have hr : r ≤ start b + size b := by
      by_contra hlt
      exact hright b hb hPb (hrun.all _ (by omega) (by omega))
    have hr' : ¬ r < start b + size b := by
      intro hlt
      have := hrun.nonempty
      exact hrun.right ⟨b, hb, hPb, by omega, hlt⟩
    exact ⟨b, hb, hPb, hl, by omega⟩
  · rintro ⟨b, hb, hPb, rfl, rfl⟩
    have hbpos := hpos b hb
    exact ⟨by omega, fun i h1 h2 => ⟨b, hb, hPb, h1, h2⟩, hleft b hb hPb, hright b hb hPb⟩

/-- **Two tilings of one interval with the same blocks in `P` are equal**, when no two
blocks outside `P` are neighbours.  By induction on the first tiling. -/
theorem Tiles.eq_of_same (h : Tiles start size lo bs hi) (h' : Tiles start size lo cs hi)
    (hpos : ∀ b ∈ bs, 0 < size b) (hpos' : ∀ b ∈ cs, 0 < size b)
    (hsame : ∀ b, P b → (b ∈ bs ↔ b ∈ cs))
    (hadj : bs.IsChain fun b c => P b ∨ P c) (hadj' : cs.IsChain fun b c => P b ∨ P c)
    (hext : ∀ b c, ¬ P b → ¬ P c → start b = start c → size b = size c → b = c) : bs = cs := by
  induction bs generalizing lo cs with
  | nil =>
      have hlo : lo = hi := h
      cases cs with
      | nil => rfl
      | cons c cs =>
          have := hpos' c (by simp)
          have := h'.2.le
          omega
  | cons b bs ih =>
      have hb : b ∈ b :: bs := by simp
      have hbpos := hpos b hb
      cases cs with
      | nil =>
          have hlo : lo = hi := h'
          have := h.2.le
          omega
      | cons c cs =>
          have hc : c ∈ c :: cs := by simp
          have hcpos := hpos' c hc
          have hstart : start b = start c := h.1.trans h'.1.symm
          -- the end of the shorter of two free heads would be the start of a block in `P`
          have hend {as as' : List β} {a a' : β} (ht : Tiles start size lo (a :: as) hi)
              (ht' : Tiles start size lo (a' :: as') hi) (hP : ¬ P a)
              (hap : ∀ d ∈ a' :: as', 0 < size d)
              (hch : (a :: as).IsChain fun b c => P b ∨ P c)
              (hs : ∀ d, P d → d ∈ a :: as → d ∈ a' :: as') (ha : 0 < size a) :
              ¬ size a < size a' := by
            intro hlt
            have hst : start a = start a' := ht.1.trans ht'.1.symm
            have hend' := ht'.bounds (b := a') (by simp)
            cases as with
            | nil =>
                have : lo + size a = hi := ht.2
                have := ht.1
                omega
            | cons d as =>
                have hPd : P d := ((List.isChain_cons_cons.mp hch).1).resolve_left hP
                have hd := hs d hPd (by simp)
                have hdstart : start d = lo + size a := ht.2.1
                have hlo := ht.1
                have hdpos := hap d hd
                have hne : d ≠ a' := fun he => by subst he; omega
                have := ht'.apart hd (c := a') (by simp) hne
                omega
          have hbc : b = c := by
            by_cases hPb : P b
            · exact h'.eq_of_start hpos' ((hsame b hPb).mp hb) hc hstart
            · by_cases hPc : P c
              · exact h.eq_of_start hpos hb ((hsame c hPc).mpr hc) hstart
              · have h1 := hend h h' hPb hpos' hadj (fun d hd hm => (hsame d hd).mp hm) hbpos
                have h2 := hend h' h hPc hpos hadj' (fun d hd hm => (hsame d hd).mpr hm) hcpos
                exact hext b c hPb hPc hstart (by omega)
          subst hbc
          have hnot {as : List β} (ht : Tiles start size lo (b :: as) hi) : b ∉ as := fun hm => by
            have := (ht.2.bounds hm).1
            have := ht.1
            omega
          have htail : bs = cs := by
            refine ih h.2 h'.2 (fun d hd => hpos d (by simp [hd]))
              (fun d hd => hpos' d (by simp [hd])) (fun d hd => ?_) hadj.tail hadj'.tail
            have := hsame d hd
            have h1 : d ∈ bs → d ≠ b := fun hm he => hnot h (he ▸ hm)
            have h2 : d ∈ cs → d ≠ b := fun hm he => hnot h' (he ▸ hm)
            simp only [List.mem_cons] at this
            tauto
          rw [htail]

end Marked

end Tiling
