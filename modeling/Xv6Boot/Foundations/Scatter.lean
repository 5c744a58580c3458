import Xv6Boot.Foundations.ByteMemory

/-! # Copies between scattered addresses

The bytes at `f 0, f 1, ...` are copied to `d 0, d 1, ...`, a stretch of consecutive addresses at a time.
-/

namespace Xv6Boot.ByteMemory
open Function

variable {m₀ m : Mem} {d f : ℕ → Addr} {j n : ℕ} {a b : Addr}

/-- The first `j` bytes have been copied and nothing else has changed. -/
structure Moved (m₀ : Mem) (d f : ℕ → Addr) (j : ℕ) (m : Mem) : Prop where
  copied : ∀ k < j, m (d k) = m₀ (f k)
  frame : Frame {x | ∃ k < j, x = d k} m₀ m

theorem Moved.zero (m : Mem) (d f : ℕ → Addr) : Moved m d f 0 m :=
  ⟨fun _ hk => absurd hk (Nat.not_lt_zero _), Frame.refl _ _⟩

theorem Moved.keeps (h : Moved m₀ d f j m) {x : Addr} (hx : ∀ k < j, d k ≠ x) : m x = m₀ x :=
  h.frame x fun ⟨k, hk, he⟩ => hx k hk he.symm

theorem Moved.stretch (h : Moved m₀ d f j m) (hn : n ≤ 2 ^ 64) (hd : ∀ i < n, d (j + i) = off a i)
    (hf : ∀ i < n, f (j + i) = off b i) (hdd : ∀ k < j, ∀ i < n, d k ≠ d (j + i))
    (hdf : ∀ k < j, ∀ i < n, d k ≠ f (j + i)) : Moved m₀ d f (j + n) (blit m a b n) := by
  have hout : ∀ x, (∀ i < n, x ≠ off a i) → blit m a b n x = m x := by
    intro x hx
    refine blit_frame m a b n x fun hin => ?_
    obtain ⟨i, hi, _, he⟩ := exists_off hin
    exact hx i hi he
  constructor
  · intro k hk
    by_cases hlt : k < j
    · rw [hout _ fun i hi => hd i hi ▸ hdd k hlt i hi]
      exact h.copied k hlt
    · have hi : k - j < n := by omega
      have hkj : j + (k - j) = k := by omega
      have hdk := hd _ hi
      have hfk := hf _ hi
      rw [hkj] at hdk hfk
      rw [hdk, blit_off m a b hi (by omega), ← hfk]
      refine h.keeps fun i hij => ?_
      have := hdf i hij _ hi
      rwa [hkj] at this
  · intro x hx
    rw [hout x fun i hi he => hx ⟨j + i, by omega, he.trans (hd i hi).symm⟩]
    exact h.keeps fun k hk he => hx ⟨k, by omega, he.symm⟩

theorem Moved.byte (h : Moved m₀ d f j m) (hdd : ∀ k < j, d k ≠ d j) (hdf : ∀ k < j, d k ≠ f j) :
    Moved m₀ d f (j + 1) (update m (d j) (m (f j))) := by
  constructor
  · intro k hk
    rcases Nat.lt_succ_iff_lt_or_eq.mp hk with hlt | rfl
    · rw [update_of_ne (hdd k hlt)]
      exact h.copied k hlt
    · rw [update_self]
      exact h.keeps hdf
  · intro x hx
    rw [update_of_ne fun he => hx ⟨j, Nat.lt_succ_self j, he⟩]
    exact h.keeps fun k hk he => hx ⟨k, Nat.lt_succ_of_lt hk, he.symm⟩

end Xv6Boot.ByteMemory
