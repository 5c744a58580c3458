import Mathlib

/-! # Ring buffers

A ring of `N` cells seen through its history: the list of all elements ever put in and the list of those
taken out. The cell of the `i`-th element is `i % N`; counters that wrap at a multiple of `N` find it too.
A window of the ring is what it holds now, whatever its history.
-/

namespace Xv6Boot.Ring
open Function

variable {α : Type*} {N : ℕ} {cell : ℕ → α} {stored taken : List α}

/-- The cells hold what was stored and not taken. -/
structure Holds (N : ℕ) (cell : ℕ → α) (stored taken : List α) : Prop where
  taken_prefix : taken <+: stored
  room : stored.length ≤ taken.length + N
  cells : ∀ i, taken.length ≤ i → ∀ h : i < stored.length, cell (i % N) = stored[i]

theorem Holds.nil (N : ℕ) (cell : ℕ → α) : Holds N cell [] [] :=
  ⟨List.prefix_refl _, Nat.zero_le _, fun _ _ h => absurd h (Nat.not_lt_zero _)⟩

theorem Holds.length_le (h : Holds N cell stored taken) : taken.length ≤ stored.length := h.taken_prefix.length_le

theorem Holds.congr {cell' : ℕ → α} (h : Holds N cell stored taken) (hc : ∀ i < N, cell' i = cell i) (hN : 0 < N) :
    Holds N cell' stored taken :=
  ⟨h.taken_prefix, h.room, fun i h1 h2 => (hc _ (Nat.mod_lt i hN)).trans (h.cells i h1 h2)⟩

theorem mod_ne_of_window {i j : ℕ} (hij : i < j) (hN : j < i + N) : i % N ≠ j % N := by
  intro h
  have hd : N ∣ j - i := (Nat.modEq_iff_dvd' hij.le).mp h
  have := Nat.le_of_dvd (by omega) hd
  omega

section
variable (h : Holds N cell stored taken)
include h

theorem Holds.put (hroom : stored.length < taken.length + N) (x : α) :
    Holds N (update cell (stored.length % N) x) (stored ++ [x]) taken := by
  refine ⟨h.taken_prefix.trans (List.prefix_append _ _), ?_, fun i hi hlt => ?_⟩
  · rw [List.length_append, List.length_singleton]
    omega
  · rw [List.length_append, List.length_singleton] at hlt
    by_cases he : i = stored.length
    · subst he
      rw [update_self]
      simp
    · have hi' : i < stored.length := by omega
      rw [update_of_ne (mod_ne_of_window hi' (by omega)), h.cells i hi hi', List.getElem_append_left hi']

theorem Holds.scratch (hroom : stored.length < taken.length + N) (x : α) :
    Holds N (update cell (stored.length % N) x) stored taken := by
  refine ⟨h.taken_prefix, h.room, fun i hi hlt => ?_⟩
  rw [update_of_ne (mod_ne_of_window hlt (by omega)), h.cells i hi hlt]

theorem Holds.put_of_cell (hroom : stored.length < taken.length + N) {x : α}
    (hx : cell (stored.length % N) = x) : Holds N cell (stored ++ [x]) taken := by
  subst hx
  have hput := h.put hroom (cell (stored.length % N))
  rwa [update_eq_self] at hput

theorem Holds.take (hne : taken.length < stored.length) : Holds N cell stored (taken ++ [cell (taken.length % N)]) := by
  refine ⟨?_, ?_, fun i hi hlt => ?_⟩
  · rw [h.cells _ le_rfl hne]
    obtain ⟨rest, rfl⟩ := h.taken_prefix
    cases rest with
    | nil => simp at hne
    | cons x rest => exact ⟨rest, by simp⟩
  · have := h.room
    rw [List.length_append, List.length_singleton]
    omega
  · rw [List.length_append, List.length_singleton] at hi
    exact h.cells i (by omega) hlt

end

/-! ## The elements in the ring -/

/-- The cells from `start` on hold `items`; without the history, so that elements may also leave at the end. -/
structure Window (N : ℕ) (cell : ℕ → α) (start : ℕ) (items : List α) : Prop where
  room : items.length ≤ N
  cells : ∀ i, ∀ h : i < items.length, cell ((start + i) % N) = items[i]

section Window
variable {start : ℕ} {items : List α} {x : α}

theorem Window.nil (N : ℕ) (cell : ℕ → α) (start : ℕ) : Window N cell start [] :=
  ⟨Nat.zero_le _, fun _ h => absurd h (Nat.not_lt_zero _)⟩

theorem Window.of_mod {start' : ℕ} (h : Window N cell start items) (hs : start' % N = start % N) :
    Window N cell start' items := by
  refine ⟨h.room, fun i hi => ?_⟩
  rw [Nat.add_mod, hs, ← Nat.add_mod]
  exact h.cells i hi

theorem Window.shorten {items' : List α} (h : Window N cell start items) (hp : items' <+: items) :
    Window N cell start items' := by
  refine ⟨hp.length_le.trans h.room, fun i hi => ?_⟩
  rw [h.cells i (hi.trans_le hp.length_le)]
  exact (hp.getElem hi).symm

theorem Window.put (h : Window N cell start items) (hroom : items.length < N) (x : α) :
    Window N (update cell ((start + items.length) % N) x) start (items ++ [x]) := by
  refine ⟨?_, fun i hi => ?_⟩
  · rw [List.length_append, List.length_singleton]
    exact hroom
  · rw [List.length_append, List.length_singleton] at hi
    by_cases he : i = items.length
    · subst he
      rw [update_self]
      simp
    · have hi' : i < items.length := by omega
      rw [update_of_ne (mod_ne_of_window (by omega) (by omega)), h.cells i hi', List.getElem_append_left hi']

theorem Window.head (h : Window N cell start (x :: items)) : cell (start % N) = x :=
  h.cells 0 (Nat.zero_lt_succ _)

theorem Window.tail (h : Window N cell start (x :: items)) : Window N cell (start + 1) items := by
  refine ⟨(Nat.le_succ _).trans h.room, fun i hi => ?_⟩
  have := h.cells (i + 1) (Nat.succ_lt_succ hi)
  rwa [← Nat.add_assoc, Nat.add_right_comm] at this

end Window

/-! ## Counters of `w` bits -/

variable {w : ℕ}

theorem counter_mod (hN : N ∣ 2 ^ w) (k : ℕ) : (BitVec.ofNat w k).toNat % N = k % N := by
  rw [BitVec.toNat_ofNat, Nat.mod_mod_of_dvd _ hN]

theorem counter_succ (k : ℕ) : BitVec.ofNat w k + 1 = BitVec.ofNat w (k + 1) := by
  apply BitVec.eq_of_toNat_eq
  simp [BitVec.toNat_add, BitVec.toNat_ofNat]

theorem counter_sub {i j : ℕ} (hij : i ≤ j) (hw : j < i + 2 ^ w) :
    (BitVec.ofNat w j - BitVec.ofNat w i).toNat = j - i := by
  obtain ⟨d, rfl⟩ := Nat.exists_eq_add_of_le hij
  have hd : d < 2 ^ w := by omega
  have : BitVec.ofNat w (i + d) = BitVec.ofNat w d + BitVec.ofNat w i := by
    rw [Nat.add_comm, BitVec.ofNat_add]
  rw [this, BitVec.add_sub_cancel, BitVec.toNat_ofNat, Nat.mod_eq_of_lt hd]
  omega

theorem counter_eq_add {i j n : ℕ} (hij : i ≤ j) (hw : j < i + 2 ^ w) (hn : n < 2 ^ w) :
    BitVec.ofNat w j = BitVec.ofNat w i + BitVec.ofNat w n ↔ j = i + n := by
  constructor
  · intro h
    have hs := counter_sub hij hw
    rw [h, BitVec.add_comm, BitVec.add_sub_cancel, BitVec.toNat_ofNat, Nat.mod_eq_of_lt hn] at hs
    omega
  · rintro rfl
    exact BitVec.ofNat_add i n

end Xv6Boot.Ring
