import Mathlib

/-! # Numerals in a fixed buffer

The numeral of a number in a base, most significant digit first, and the loop that puts the digits of a number into a
buffer from the least significant one on.
-/

namespace Xv6Boot.Numeral

def numeral (b n : ℕ) : List ℕ := if n = 0 then [0] else (Nat.digits b n).reverse

variable {α : Type} {b n m k : ℕ}

theorem numeral_of_lt (h : n < b) : numeral b n = [n] := by
  unfold numeral
  by_cases h0 : n = 0
  · rw [if_pos h0, h0]
  · rw [if_neg h0, Nat.digits_of_lt b n h0 h, List.reverse_singleton]

theorem numeral_of_le (hb : 1 < b) (h : b ≤ n) : numeral b n = numeral b (n / b) ++ [n % b] := by
  have h0 : n ≠ 0 := by omega
  have hdiv : n / b ≠ 0 := (Nat.div_pos h (by omega)).ne'
  rw [numeral, numeral, if_neg h0, if_neg hdiv, Nat.digits_def' hb (Nat.pos_of_ne_zero h0), List.reverse_cons]

theorem numeral_ne_nil (b n : ℕ) : numeral b n ≠ [] := by
  unfold numeral
  split
  · exact List.cons_ne_nil _ _
  · next h0 => rwa [Ne, List.reverse_eq_nil_iff, Nat.digits_eq_nil_iff_eq_zero]

theorem numeral_lt (hb : 1 < b) {d : ℕ} (hd : d ∈ numeral b n) : d < b := by
  unfold numeral at hd
  split at hd
  · rw [List.mem_singleton.mp hd]
    omega
  · exact Nat.digits_lt_base hb (List.mem_reverse.mp hd)

theorem numeral_length_le (hb : 1 < b) (hk : 0 < k) : (numeral b n).length ≤ k ↔ n < b ^ k := by
  unfold numeral
  split
  · next h0 =>
    rw [h0]
    exact iff_of_true hk (Nat.pow_pos (by omega))
  · rw [List.length_reverse, Nat.digits_length_le_iff hb]

theorem numeral_length_mono (b : ℕ) (h : n ≤ m) : (numeral b n).length ≤ (numeral b m).length := by
  unfold numeral
  split
  · split
    · exact le_rfl
    · next h0 =>
      rw [List.length_reverse, List.length_singleton]
      exact List.length_pos_of_ne_nil (Nat.digits_ne_nil_iff_ne_zero.mpr h0)
  · rw [if_neg (by omega), List.length_reverse, List.length_reverse]
    exact Nat.le_length_digits_le b n m h

theorem numeral_inj (h : numeral b n = numeral b m) : n = m := by
  have hval : ∀ x, Nat.ofDigits b (numeral b x).reverse = x := by
    intro x
    unfold numeral
    split
    · next h0 => simp [h0]
    · rw [List.reverse_reverse, Nat.ofDigits_digits]
  rw [← hval n, ← hval m, h]

/-! ## The loop -/

/-- `do { buf[i++] = digits[x % b]; } while((x /= b) != 0);` with room for `k` more. Without room for the next digit
there is no result. -/
def fill (digit : ℕ → α) (b : ℕ) : ℕ → ℕ → List α → Option (List α)
  | 0, _, _ => none
  | k + 1, x, buf => if x / b ≠ 0 then fill digit b k (x / b) (buf ++ [digit (x % b)]) else some (buf ++ [digit (x % b)])

/-- It stores the digits of the numeral, the last one first, exactly if there is room for all of them. -/
theorem fill_eq (digit : ℕ → α) (hb : 1 < b) (k x : ℕ) (buf : List α) :
    fill digit b k x buf =
      if (numeral b x).length ≤ k then some (buf ++ ((numeral b x).map digit).reverse) else none := by
  induction k generalizing x buf with
  | zero => rw [fill, if_neg (Nat.not_le.mpr (List.length_pos_of_ne_nil (numeral_ne_nil b x)))]
  | succ k ih =>
    rw [fill]
    by_cases hlt : x < b
    · have hroom : [x].length ≤ k + 1 := Nat.succ_le_succ (Nat.zero_le k)
      rw [if_neg (not_not.mpr (Nat.div_eq_of_lt hlt)), numeral_of_lt hlt, if_pos hroom, Nat.mod_eq_of_lt hlt]
      rfl
    · have hle : b ≤ x := Nat.le_of_not_lt hlt
      rw [if_pos (Nat.div_pos hle (by omega)).ne', ih, numeral_of_le hb hle]
      simp only [List.length_append, List.length_singleton, Nat.add_le_add_iff_right, List.map_append, List.map_cons,
        List.map_nil, List.reverse_append, List.reverse_singleton, List.append_assoc]

/-! ## A number with a sign -/

/-- The digits of `x` and the sign, printed from a buffer of `size` characters; nothing if they do not fit. -/
def printThrough (digit : ℕ → α) (minus : α) (size b x : ℕ) (neg : Bool) : Option (List α) := do
  let buf ← fill digit b size x []
  if neg then if buf.length < size then some (minus :: buf.reverse) else none
  else some buf.reverse

def signed (digit : ℕ → α) (minus : α) (b x : ℕ) (neg : Bool) : List α :=
  (if neg then [minus] else []) ++ (numeral b x).map digit

theorem printThrough_eq (digit : ℕ → α) (minus : α) {size : ℕ} (hb : 1 < b) (x : ℕ) (neg : Bool) :
    printThrough digit minus size b x neg =
      if (signed digit minus b x neg).length ≤ size then some (signed digit minus b x neg) else none := by
  rw [printThrough, fill_eq digit hb]
  by_cases hlen : (numeral b x).length ≤ size
  · rw [if_pos hlen]
    cases neg with
    | false => simp [signed, hlen]
    | true => simp [signed]
  · rw [if_neg hlen, if_neg]
    · rfl
    · rw [signed, List.length_append, List.length_map]
      omega

/-! ## Two printers

`R` relates a digit of one printer to the same digit of the other only, and the signs to each other only.
-/

variable {β : Type} {R : α → β → Prop} {d : ℕ → α} {d' : ℕ → β} {minus : α} {minus' : β} {x y : ℕ} {s t : Bool}

theorem forall₂_signed (hdigit : ∀ i < b, R (d i) (d' i)) (hminus : R minus minus') (hb : 1 < b) :
    List.Forall₂ R (signed d minus b x s) (signed d' minus' b x s) := by
  have hmap : List.Forall₂ R ((numeral b x).map d) ((numeral b x).map d') := by
    rw [List.forall₂_map_left_iff, List.forall₂_map_right_iff, List.forall₂_same]
    exact fun i hi => hdigit i (numeral_lt hb hi)
  cases s with
  | false => exact hmap
  | true => exact hmap.cons hminus

theorem forall₂_split {l₁ l₂ : List α} {r₁ r₂ : List β} (hlen : l₁.length = r₁.length)
    (h : List.Forall₂ R (l₁ ++ l₂) (r₁ ++ r₂)) : List.Forall₂ R l₁ r₁ ∧ List.Forall₂ R l₂ r₂ := by
  have htake := List.forall₂_take_append _ _ _ h
  have hdrop := List.forall₂_drop_append _ _ _ h
  rw [← hlen] at htake hdrop
  rw [List.take_left] at htake
  rw [List.drop_left] at hdrop
  exact ⟨htake, hdrop⟩

theorem eq_of_forall₂_digits {l : List α} {l' : List β} (hdigit : ∀ i < b, ∀ j < b, R (d i) (d' j) → i = j)
    (hb : 1 < b) (hlen : (numeral b x).length = (numeral b y).length)
    (h : List.Forall₂ R ((numeral b x).map d ++ l) ((numeral b y).map d' ++ l')) : x = y := by
  have hfirst := (forall₂_split (by simpa using hlen) h).1
  rw [List.forall₂_map_left_iff, List.forall₂_map_right_iff] at hfirst
  refine numeral_inj (List.ext_get hlen fun n hn hn' => ?_)
  exact hdigit _ (numeral_lt hb (List.get_mem _ _)) _ (numeral_lt hb (List.get_mem _ _)) (hfirst.get hn hn')

theorem eq_of_forall₂_signed {l : List α} {l' : List β} (hdigit : ∀ i < b, ∀ j < b, R (d i) (d' j) → i = j)
    (hleft : ∀ j < b, ¬R minus (d' j)) (hright : ∀ i < b, ¬R (d i) minus') (hb : 1 < b)
    (hlen : (numeral b x).length = (numeral b y).length)
    (h : List.Forall₂ R (signed d minus b x s ++ l) (signed d' minus' b y t ++ l')) : x = y ∧ s = t := by
  obtain ⟨i, is, hx⟩ := List.exists_cons_of_ne_nil (numeral_ne_nil b x)
  obtain ⟨j, js, hy⟩ := List.exists_cons_of_ne_nil (numeral_ne_nil b y)
  have hi : i < b := numeral_lt hb (hx ▸ List.mem_cons_self)
  have hj : j < b := numeral_lt hb (hy ▸ List.mem_cons_self)
  cases s <;> cases t
  case false.false => exact ⟨eq_of_forall₂_digits hdigit hb hlen h, rfl⟩
  case true.true => exact ⟨eq_of_forall₂_digits hdigit hb hlen (List.forall₂_cons.mp h).2, rfl⟩
  case false.true =>
    rw [signed, hx] at h
    exact absurd (List.forall₂_cons.mp h).1 (hright i hi)
  case true.false =>
    rw [signed, signed, hy] at h
    exact absurd (List.forall₂_cons.mp h).1 (hleft j hj)

end Xv6Boot.Numeral
