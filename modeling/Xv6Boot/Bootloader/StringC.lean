import Xv6Boot.Foundations.ByteMemory
import Xv6Boot.Foundations.Loop

/-! # `string.c`: the byte loops every copy goes through

`memset`, `memcmp`, `memmove` and `memcpy` as the source writes them, one byte at a time on the flat
memory. Lengths are `uint` and stay below `2^32`. The two loops of `memmove` run in opposite
directions; for a source range that does not wrap, the pointer comparison always picks the one that
amounts to a simultaneous copy, wherever the destination lies (`memmove_eq_blit`).
-/

namespace Xv6Boot.StringC
open Function ByteMemory Loop

def memset (m : Mem) (dst : Addr) (c : Byte) (n : ℕ) : Mem :=
  forLoop (fun i m => update m (off dst i) c) 0 n m

/-- The loop of `memcmp`: the first difference decides. -/
def memcmp (m : Mem) : Addr → Addr → ℕ → ℤ
  | _, _, 0 => 0
  | s1, s2, n + 1 =>
      if m s1 ≠ m s2 then (m s1).toNat - (m s2).toNat else memcmp m (s1 + 1) (s2 + 1) n

/-- `while(n-- > 0) *d++ = *s++;` -/
def copyForward : ℕ → Addr → Addr → Mem → Mem
  | 0, _, _, m => m
  | n + 1, d, s, m => copyForward n (d + 1) (s + 1) (update m d (m s))

/-- `while(n-- > 0) *--d = *--s;` -/
def copyBackward : ℕ → Addr → Addr → Mem → Mem
  | 0, _, _, m => m
  | n + 1, d, s, m => copyBackward n (d - 1) (s - 1) (update m (d - 1) (m (s - 1)))

def memmove (m : Mem) (dst src : Addr) (n : ℕ) : Mem :=
  if n = 0 then m
  else if src < dst ∧ dst < off src n then copyBackward n (off dst n) (off src n) m
  else copyForward n dst src m

def memcpy (m : Mem) (dst src : Addr) (n : ℕ) : Mem := memmove m dst src n

/-! ## `memset` and `memcmp` -/

theorem memset_eq_put (m : Mem) (dst : Addr) (c : Byte) {n : ℕ} (hn : n ≤ 2 ^ 64) :
    memset m dst c n = put m dst n fun _ => c := by
  have h := forLoop_induct (fun i m => update m (off dst i) c)
    (fun i m' => m' = put m dst i fun _ => c) 0 n m (by simp)
    (fun i m' _ hi hm => by rw [hm, put_succ m dst i (fun _ => c) (by omega)])
  rw [Nat.zero_add] at h
  exact h

theorem memcmp_eq_zero (m : Mem) (a b : Addr) (n : ℕ) : memcmp m a b n = 0 ↔ ∀ k < n, m (off a k) = m (off b k) := by
  induction n generalizing a b with
  | zero => simp [memcmp]
  | succ n ih =>
    rw [memcmp]
    by_cases h : m a = m b
    · rw [if_neg (not_not.mpr h), ih]
      simp only [off_succ]
      constructor
      · intro hk k hlt
        cases k with
        | zero => simpa using h
        | succ k => exact hk k (by omega)
      · intro hk k hlt
        exact hk (k + 1) (by omega)
    · rw [if_pos h]
      constructor
      · intro he
        exact absurd (BitVec.eq_of_toNat_eq (by omega)) h
      · intro hk
        exact absurd (by simpa using hk 0 (Nat.succ_pos n)) h

/-! ## `memmove` is a simultaneous copy -/

theorem put_cons (m : Mem) (a : Addr) (n : ℕ) (f : ℕ → Byte) (hn : n < 2 ^ 64) :
    put (update m a (f 0)) (a + 1) n (fun k => f (k + 1)) = put m a (n + 1) f := by
  funext x
  by_cases hx : x = a
  · subst hx
    have h0 : ¬ (x - (x + 1)).toNat < n := by bv_omega
    have h1 : (x - x).toNat = 0 := by bv_omega
    simp only [put, h0, h1, if_false, Nat.succ_pos, if_true, update_self]
  · have hne : (x - a).toNat ≠ 0 := fun h => hx (by bv_omega)
    have hs : (x - (a + 1)).toNat = (x - a).toNat - 1 := by bv_omega
    simp only [put, hs, update_of_ne hx]
    by_cases h : (x - a).toNat < n + 1
    · rw [if_pos (by omega), if_pos h, Nat.sub_add_cancel (by omega)]
    · rw [if_neg (by omega), if_neg h]

theorem copyForward_eq_blit (n : ℕ) (d s : Addr) (m : Mem) (hn : n ≤ 2 ^ 64)
    (h : d = s ∨ n ≤ (d - s).toNat) : copyForward n d s m = blit m d s n := by
  induction n generalizing d s m with
  | zero => simp [copyForward, blit]
  | succ n ih =>
    have hnext : d + 1 = s + 1 ∨ n ≤ (d + 1 - (s + 1)).toNat := by
      rcases h with h | h
      · exact .inl (by rw [h])
      · exact .inr (by bv_omega)
    rw [copyForward, ih _ _ _ (by omega) hnext, blit, blit, ← put_cons m d n _ (by omega)]
    have h0 : m (off s 0) = m s := by rw [off_zero]
    rw [h0]
    apply put_congr
    intro k hk
    rw [off_succ]
    by_cases he : off s (k + 1) = d
    · rcases h with h | h
      · rw [he, h, update_self]
      · have hk' := off_sub s (k + 1) (by omega)
        rw [he] at hk'
        omega
    · exact update_of_ne he _ _

theorem copyBackward_eq_blit (n : ℕ) (d s : Addr) (m : Mem) (h : (d - s).toNat + n ≤ 2 ^ 64) :
    copyBackward n (off d n) (off s n) m = blit m d s n := by
  induction n generalizing m with
  | zero => simp [copyBackward, blit]
  | succ n ih =>
    have hp : ∀ x : Addr, off x (n + 1) - 1 = off x n := by
      intro x
      rw [← off_off]
      simp [off]
    rw [copyBackward, hp, hp, ih _ (by omega), blit, blit]
    have hsrc : ∀ k < n, update m (off d n) (m (off s n)) (off s k) = m (off s k) := by
      intro k hk
      apply update_of_ne
      intro he
      have e : (d - s).toNat + n = k := by
        simp only [off] at he
        bv_omega
      omega
    rw [put_congr _ d hsrc, ← put_succ m d n (fun k => m (off s k)) (by omega)]
    funext x
    by_cases hx : x = off d n
    · have hnot : off d n ∉ span d n := by
        rw [mem_span, off_sub d n (by omega)]
        omega
      rw [hx, update_self, put_frame _ d n _ _ hnot, update_self]
    · simp only [put, update_of_ne hx]

theorem memmove_eq_blit (m : Mem) (dst src : Addr) {n : ℕ} (hn : n < 2 ^ 32)
    (hsrc : src.toNat + n < 2 ^ 64) : memmove m dst src n = blit m dst src n := by
  rw [memmove]
  by_cases h0 : n = 0
  · rw [if_pos h0, h0, blit, put_zero]
  · rw [if_neg h0]
    have hend : (off src n).toNat = src.toNat + n := off_toNat src n hsrc
    by_cases h : src < dst ∧ dst < off src n
    · rw [if_pos h]
      apply copyBackward_eq_blit
      have h1 := BitVec.lt_def.mp h.1
      have h2 := BitVec.lt_def.mp h.2
      have hd : (dst - src).toNat = dst.toNat - src.toNat := by bv_omega
      omega
    · rw [if_neg h]
      apply copyForward_eq_blit _ _ _ _ (by omega)
      by_cases he : dst = src
      · exact .inl he
      · right
        have hne : dst.toNat ≠ src.toNat := fun h' => he (BitVec.eq_of_toNat_eq h')
        rw [BitVec.lt_def, BitVec.lt_def, hend] at h
        have hd := dst.isLt
        rw [BitVec.toNat_sub]
        omega

theorem memmove_frame (m : Mem) (dst src : Addr) {n : ℕ} (hn : n < 2 ^ 32)
    (hsrc : src.toNat + n < 2 ^ 64) : Frame (span dst n) m (memmove m dst src n) := by
  rw [memmove_eq_blit m dst src hn hsrc]
  exact blit_frame m dst src n

theorem memmove_off (m : Mem) (dst src : Addr) {n k : ℕ} (hn : n < 2 ^ 32)
    (hsrc : src.toNat + n < 2 ^ 64) (hk : k < n) : memmove m dst src n (off dst k) = m (off src k) := by
  rw [memmove_eq_blit m dst src hn hsrc]
  exact blit_off m dst src hk (by omega)

theorem memmove_eq_blit_top (m : Mem) (dst src : Addr) {n : ℕ} (hn : n < 2 ^ 32) (hsrc : src.toNat + n = 2 ^ 64)
    (hdst : dst.toNat + n ≤ 2 ^ 64) : memmove m dst src n = blit m dst src n := by
  have hle : dst.toNat ≤ src.toNat := by omega
  rw [memmove]
  by_cases h0 : n = 0
  · rw [if_pos h0, h0, blit, put_zero]
  · have hnot : ¬ (src < dst ∧ dst < off src n) := fun h => absurd (BitVec.lt_def.mp h.1) (by omega)
    rw [if_neg h0, if_neg hnot]
    apply copyForward_eq_blit _ _ _ _ (by omega)
    by_cases he : dst = src
    · exact .inl he
    · have hne : dst.toNat ≠ src.toNat := fun h' => he (BitVec.eq_of_toNat_eq h')
      right
      rw [BitVec.toNat_sub]
      omega

/-- **`memmove` is a simultaneous copy**, however the two ranges overlap, and so is `memcpy`. -/
theorem memmove_simultaneous (m : Mem) (dst src : Addr) (n : BitVec 32) (hsrc : src.toNat + n.toNat ≤ 2 ^ 64)
    (hdst : dst.toNat + n.toNat ≤ 2 ^ 64) :
    (∀ i < n.toNat, memmove m dst src n.toNat (off dst i) = m (off src i)) ∧
      (∀ a, (∀ i < n.toNat, a ≠ off dst i) → memmove m dst src n.toNat a = m a) ∧
      memcpy m dst src n.toNat = memmove m dst src n.toNat := by
  have hn : n.toNat < 2 ^ 32 := n.isLt
  have hblit : memmove m dst src n.toNat = blit m dst src n.toNat := by
    rcases Nat.lt_or_eq_of_le hsrc with hlt | heq
    · exact memmove_eq_blit m dst src hn hlt
    · exact memmove_eq_blit_top m dst src hn heq hdst
  rw [hblit]
  refine ⟨fun i hi => blit_off m dst src hi (by omega), fun a ha => blit_frame m dst src n.toNat a fun hin => ?_, hblit⟩
  obtain ⟨i, hi, -, rfl⟩ := exists_off hin
  exact ha i hi rfl

def countingMem : Mem := fun a => a.setWidth 8

/-- Four bytes moved up by one, over three of themselves. -/
theorem memmove_overlapping :
    (∀ i < 4, memmove countingMem 0x1001#64 0x1000#64 4 (off 0x1001#64 i) = countingMem (off 0x1000#64 i)) ∧
      (∀ a, (∀ i < 4, a ≠ off 0x1001#64 i) → memmove countingMem 0x1001#64 0x1000#64 4 a = countingMem a) ∧
      memcpy countingMem 0x1001#64 0x1000#64 4 = memmove countingMem 0x1001#64 0x1000#64 4 :=
  memmove_simultaneous countingMem 0x1001#64 0x1000#64 4 (by decide) (by decide)

end Xv6Boot.StringC
