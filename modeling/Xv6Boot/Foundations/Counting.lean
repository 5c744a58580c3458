import Mathlib

/-! # How many parties are in a given kind of state

A table assigns a state to each of finitely many parties; a reference count is the number of parties whose
state refers to the thing counted.
-/

namespace Xv6Boot.Counting
open Function

variable {α β : Type*} [Fintype α]

/-- The parties whose state satisfies `w`. -/
def count (w : β → Bool) (f : α → β) : ℕ := (Finset.univ.filter fun q => w (f q) = true).card

variable {w : β → Bool} {f : α → β}

theorem count_le (w : β → Bool) (f : α → β) : count w f ≤ Fintype.card α := Finset.card_le_univ _

theorem count_pos_iff : 0 < count w f ↔ ∃ q, w (f q) = true := by
  rw [count, Finset.card_pos]
  constructor
  · rintro ⟨q, hq⟩
    exact ⟨q, (Finset.mem_filter.mp hq).2⟩
  · rintro ⟨q, hq⟩
    exact ⟨q, Finset.mem_filter.mpr ⟨Finset.mem_univ q, hq⟩⟩

theorem count_eq_zero_iff : count w f = 0 ↔ ∀ q, w (f q) = false := by
  have h := not_congr (count_pos_iff (w := w) (f := f))
  simpa using h

theorem count_eq_sum (w : β → Bool) (f : α → β) : count w f = ∑ q, (w (f q)).toNat := by
  rw [count, Finset.card_filter]
  refine Finset.sum_congr rfl fun q _ => ?_
  cases w (f q) <;> rfl

variable [DecidableEq α]

theorem count_update (w : β → Bool) (f : α → β) (a : α) (x : β) :
    count w (update f a x) + (w (f a)).toNat = count w f + (w x).toNat := by
  have hrest : ∑ q ∈ Finset.univ.erase a, (w (update f a x q)).toNat =
      ∑ q ∈ Finset.univ.erase a, (w (f q)).toNat := by
    refine Finset.sum_congr rfl fun q hq => ?_
    rw [update_of_ne (Finset.ne_of_mem_erase hq)]
  rw [count_eq_sum, count_eq_sum, ← Finset.add_sum_erase _ _ (Finset.mem_univ a),
    ← Finset.add_sum_erase _ (fun q => (w (f q)).toNat) (Finset.mem_univ a), hrest, update_self]
  omega

end Xv6Boot.Counting
