import Mathlib

/-!
# Unique readability

A printer is readable in front of certain rests if what it writes there can be taken
off again in one way only.  Printers that are put together from readable ones, such
that what follows a part is a rest for it, are readable; at the end of the text they
are injective.
-/

variable {α β γ : Type*}

/-- In front of a rest that is `ok`, what `p` writes can be taken off in one way. -/
def Readable (p : α → List β) (ok : List β → Prop) : Prop :=
  ∀ ⦃a b : α⦄ ⦃r r' : List β⦄, ok r → ok r' → p a ++ r = p b ++ r' → a = b ∧ r = r'

namespace Readable

variable {p : α → List β} {q : γ → List β} {ok ok' : List β → Prop}

/-- The rests that do not begin with a character of a class. -/
def Off (c : β → Bool) (r : List β) : Prop := ∀ x ∈ r.head?, c x = false

theorem takeWhile_append {c : β → Bool} {l r : List β} (hl : ∀ x ∈ l, c x = true) (hr : Off c r) :
    (l ++ r).takeWhile c = l ∧ (l ++ r).dropWhile c = r := by
  rw [List.takeWhile_append_of_pos hl, List.dropWhile_append_of_pos hl]
  cases r with
  | nil => simp
  | cons x r =>
      have hx : c x = false := hr x rfl
      simp [hx]

/-- Words of one class of characters, up to a character that is not in the class. -/
theorem span {c : β → Bool} (hc : ∀ a, ∀ x ∈ p a, c x = true) (hp : Function.Injective p) :
    Readable p (Off c) := by
  intro a b r r' hr hr' h
  have ha := takeWhile_append (hc a) hr
  have hb := takeWhile_append (hc b) hr'
  rw [h] at ha
  exact ⟨hp (ha.1.symm.trans hb.1), ha.2.symm.trans hb.2⟩

theorem mono (hp : Readable p ok) (h : ∀ r, ok' r → ok r) : Readable p ok' :=
  fun _ _ _ _ hr hr' => hp (h _ hr) (h _ hr')

/-- One part behind the other. -/
theorem append (hp : Readable p ok) (hq : Readable q ok') (hok : ∀ b r, ok' r → ok (q b ++ r)) :
    Readable (fun x : α × γ => p x.1 ++ q x.2) ok' := by
  rintro ⟨a, b⟩ ⟨a', b'⟩ r r' hr hr' h
  simp only [List.append_assoc] at h
  obtain ⟨rfl, hrest⟩ := hp (hok b r hr) (hok b' r' hr') h
  obtain ⟨rfl, rfl⟩ := hq hr hr' hrest
  exact ⟨rfl, rfl⟩

/-- A fixed text in front. -/
theorem after (front : List β) (hp : Readable p ok) : Readable (fun a => front ++ p a) ok := by
  intro a b r r' hr hr' h
  simp only [List.append_assoc] at h
  exact hp hr hr' (List.append_cancel_left h)

/-- A fixed text behind. -/
theorem before (back : List β) (hp : Readable p ok) (hok : ∀ r, ok' r → ok (back ++ r)) :
    Readable (fun a => p a ++ back) ok' := by
  intro a b r r' hr hr' h
  simp only [List.append_assoc] at h
  obtain ⟨hab, hrest⟩ := hp (hok r hr) (hok r' hr') h
  exact ⟨hab, List.append_cancel_left hrest⟩

/-- At the end of the text. -/
theorem injective (hp : Readable p ok) (hnil : ok []) : Function.Injective p := by
  intro a b h
  exact (hp hnil hnil (congrArg (· ++ []) h)).1

/-- Texts that each end in a mark which does not occur before. -/
theorem flatMap_injective {mark : β} (hp : Function.Injective p) (hmark : ∀ a, mark ∉ p a) :
    Function.Injective fun l : List α => l.flatMap fun a => p a ++ [mark] := by
  classical
  have hone : Readable p fun r => ∃ r', r = mark :: r' := by
    refine (span (c := fun x => decide (x ≠ mark)) (fun a x hx => ?_) hp).mono ?_
    · refine decide_eq_true ?_
      rintro rfl
      exact hmark a hx
    · rintro r ⟨r', rfl⟩ x hx
      obtain rfl : mark = x := by simpa using hx
      simp
  intro l l' h
  induction l generalizing l' with
  | nil =>
      cases l' with
      | nil => rfl
      | cons b l' => simp at h
  | cons a l ih =>
      cases l' with
      | nil => simp at h
      | cons b l' =>
          simp only [List.flatMap_cons, List.append_assoc, List.singleton_append] at h
          obtain ⟨rfl, hrest⟩ := hone ⟨_, rfl⟩ ⟨_, rfl⟩ h
          rw [ih (List.cons.inj hrest).2]

end Readable
