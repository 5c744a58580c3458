import Mathlib

/-! # Who owns what

Slots refer to resources; a map says which resources of an area are in use. The account is exact when no resource
is referred to twice and those in use are those referred to and those in flight: taken from the map and not yet put
in a slot, or out of their slot and not yet given back.
-/

namespace Xv6Boot.Ownership
open Function

variable {ι β : Type}

structure Exact (ref : ι → Option β) (area : Set β) (used : β → Prop) (flight : Set β) : Prop where
  inj : ∀ i j b, ref i = some b → ref j = some b → i = j
  ref_area : ∀ i b, ref i = some b → b ∈ area
  flight_area : ∀ b ∈ flight, b ∈ area
  flight_free : ∀ b ∈ flight, ∀ i, ref i ≠ some b
  used_iff : ∀ b ∈ area, used b ↔ (∃ i, ref i = some b) ∨ b ∈ flight

namespace Exact
variable {ref : ι → Option β} {area : Set β} {used used' : β → Prop} {flight flight' : Set β} {b : β} {i : ι}

section
variable (h : Exact ref area used flight)
include h

theorem used_of_ref (hi : ref i = some b) : used b :=
  (h.used_iff b (h.ref_area i b hi)).mpr (Or.inl ⟨i, hi⟩)

theorem used_of_flight (hb : b ∈ flight) : used b :=
  (h.used_iff b (h.flight_area b hb)).mpr (Or.inr hb)

theorem congr (hu : ∀ b ∈ area, used' b ↔ used b)
    (hf : ∀ b, b ∈ flight' ↔ b ∈ flight) : Exact ref area used' flight' := by
  have he : flight' = flight := Set.ext hf
  subst he
  exact ⟨h.inj, h.ref_area, h.flight_area, h.flight_free, fun b hb => (hu b hb).trans (h.used_iff b hb)⟩

theorem alloc (hb : b ∈ area) (hfree : ¬ used b)
    (hu : ∀ x ∈ area, used' x ↔ used x ∨ x = b) : Exact ref area used' (insert b flight) where
  inj := h.inj
  ref_area := h.ref_area
  flight_area x hx := by
    rcases hx with rfl | hx
    · exact hb
    · exact h.flight_area x hx
  flight_free x hx j hj := by
    rcases hx with rfl | hx
    · exact hfree (h.used_of_ref hj)
    · exact h.flight_free x hx j hj
  used_iff x hx := by
    rw [hu x hx, h.used_iff x hx, Set.mem_insert_iff]
    tauto

end

theorem attach [DecidableEq ι] (h : Exact ref area used (insert b flight)) (hb : b ∉ flight) (hi : ref i = none) :
    Exact (update ref i (some b)) area used flight := by
  have hcases : ∀ j x, update ref i (some b) j = some x → (j = i ∧ x = b) ∨ (j ≠ i ∧ ref j = some x) := by
    intro j x hj
    by_cases hji : j = i
    · subst hji
      rw [update_self] at hj
      exact Or.inl ⟨rfl, (Option.some.inj hj).symm⟩
    · rw [update_of_ne hji] at hj
      exact Or.inr ⟨hji, hj⟩
  have hno : ∀ j, ref j ≠ some b := h.flight_free b (Set.mem_insert _ _)
  constructor
  · intro j k x hj hk
    rcases hcases j x hj with ⟨rfl, rfl⟩ | ⟨_, hj'⟩
    · rcases hcases k _ hk with ⟨rfl, _⟩ | ⟨_, hk'⟩
      · rfl
      · exact absurd hk' (hno k)
    · rcases hcases k x hk with ⟨_, rfl⟩ | ⟨_, hk'⟩
      · exact absurd hj' (hno j)
      · exact h.inj j k x hj' hk'
  · intro j x hj
    rcases hcases j x hj with ⟨_, rfl⟩ | ⟨_, hj'⟩
    · exact h.flight_area _ (Set.mem_insert _ _)
    · exact h.ref_area j x hj'
  · exact fun x hx => h.flight_area x (Set.mem_insert_of_mem _ hx)
  · intro x hx j hj
    rcases hcases j x hj with ⟨_, rfl⟩ | ⟨_, hj'⟩
    · exact hb hx
    · exact h.flight_free x (Set.mem_insert_of_mem _ hx) j hj'
  · intro x hx
    rw [h.used_iff x hx, Set.mem_insert_iff]
    constructor
    · rintro (⟨j, hj⟩ | rfl | hf)
      · have hji : j ≠ i := fun he => by rw [he, hi] at hj; cases hj
        exact Or.inl ⟨j, by rw [update_of_ne hji, hj]⟩
      · exact Or.inl ⟨i, update_self ..⟩
      · exact Or.inr hf
    · rintro (⟨j, hj⟩ | hf)
      · rcases hcases j x hj with ⟨_, rfl⟩ | ⟨_, hj'⟩
        · exact Or.inr (Or.inl rfl)
        · exact Or.inl ⟨j, hj'⟩
      · exact Or.inr (Or.inr hf)

theorem detach {r : ι → Option β} {P : ι → Prop} (h : Exact ref area used flight) (hout : ∀ i, P i → r i = none)
    (hkeep : ∀ i, ¬ P i → r i = ref i) : Exact r area used (flight ∪ {b | ∃ i, P i ∧ ref i = some b}) := by
  have hsub : ∀ i b, r i = some b → ¬ P i ∧ ref i = some b := by
    intro i b hi
    have hp : ¬ P i := fun hp => by rw [hout i hp] at hi; cases hi
    exact ⟨hp, (hkeep i hp).symm.trans hi⟩
  constructor
  · exact fun i j b hi hj => h.inj i j b (hsub i b hi).2 (hsub j b hj).2
  · exact fun i b hi => h.ref_area i b (hsub i b hi).2
  · rintro b (hb | ⟨i, _, hi⟩)
    · exact h.flight_area b hb
    · exact h.ref_area i b hi
  · rintro b (hb | ⟨i, hp, hi⟩) j hj
    · exact h.flight_free b hb j (hsub j b hj).2
    · have hji : j = i := h.inj j i b (hsub j b hj).2 hi
      exact (hsub j b hj).1 (hji ▸ hp)
  · intro b hb
    rw [h.used_iff b hb]
    constructor
    · rintro (⟨i, hi⟩ | hf)
      · by_cases hp : P i
        · exact Or.inr (Or.inr ⟨i, hp, hi⟩)
        · exact Or.inl ⟨i, (hkeep i hp).trans hi⟩
      · exact Or.inr (Or.inl hf)
    · rintro (⟨i, hi⟩ | hf | ⟨i, _, hi⟩)
      · exact Or.inl ⟨i, (hsub i b hi).2⟩
      · exact Or.inr hf
      · exact Or.inl ⟨i, hi⟩

theorem free (h : Exact ref area used flight) (hb : b ∈ flight) (hu : ∀ x ∈ area, used' x ↔ used x ∧ x ≠ b) :
    Exact ref area used' (flight \ {b}) where
  inj := h.inj
  ref_area := h.ref_area
  flight_area x hx := h.flight_area x hx.1
  flight_free x hx := h.flight_free x hx.1
  used_iff x hx := by
    rw [hu x hx, h.used_iff x hx, Set.mem_sdiff, Set.mem_singleton_iff]
    constructor
    · rintro ⟨hx' | hx', hne⟩
      · exact Or.inl hx'
      · exact Or.inr ⟨hx', hne⟩
    · rintro (⟨i, hi⟩ | ⟨hx', hne⟩)
      · exact ⟨Or.inl ⟨i, hi⟩, fun he => h.flight_free b hb i (he ▸ hi)⟩
      · exact ⟨Or.inr hx', hne⟩

end Exact

end Xv6Boot.Ownership
