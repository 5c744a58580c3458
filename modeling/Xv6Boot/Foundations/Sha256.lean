import Mathlib

/-! # SHA-256 on byte strings

The hash function of FIPS 180-4 for messages that are whole bytes: the six logical functions, the
constants, the message schedule, one compression, the padding and the digest. `chain P b` is the hash
value after the first `b` blocks of the byte string `P`; it reads `P` below position `64 * b` only
(`chain_congr`), which is what a streaming implementation rests on.
-/

namespace Xv6Boot.Sha256

abbrev Byte := BitVec 8
abbrev Word := BitVec 32

/-! ## Functions and constants -/

def rotr (n : ℕ) (x : Word) : Word := x.rotateRight n
def ch (x y z : Word) : Word := (x &&& y) ^^^ (~~~x &&& z)
def maj (x y z : Word) : Word := (x &&& y) ^^^ (x &&& z) ^^^ (y &&& z)
def bigSigma0 (x : Word) : Word := rotr 2 x ^^^ rotr 13 x ^^^ rotr 22 x
def bigSigma1 (x : Word) : Word := rotr 6 x ^^^ rotr 11 x ^^^ rotr 25 x
def smallSigma0 (x : Word) : Word := rotr 7 x ^^^ rotr 18 x ^^^ x >>> 3
def smallSigma1 (x : Word) : Word := rotr 17 x ^^^ rotr 19 x ^^^ x >>> 10

def constants : List Word :=
  [0x428a2f98, 0x71374491, 0xb5c0fbcf, 0xe9b5dba5, 0x3956c25b, 0x59f111f1, 0x923f82a4, 0xab1c5ed5,
   0xd807aa98, 0x12835b01, 0x243185be, 0x550c7dc3, 0x72be5d74, 0x80deb1fe, 0x9bdc06a7, 0xc19bf174,
   0xe49b69c1, 0xefbe4786, 0x0fc19dc6, 0x240ca1cc, 0x2de92c6f, 0x4a7484aa, 0x5cb0a9dc, 0x76f988da,
   0x983e5152, 0xa831c66d, 0xb00327c8, 0xbf597fc7, 0xc6e00bf3, 0xd5a79147, 0x06ca6351, 0x14292967,
   0x27b70a85, 0x2e1b2138, 0x4d2c6dfc, 0x53380d13, 0x650a7354, 0x766a0abb, 0x81c2c92e, 0x92722c85,
   0xa2bfe8a1, 0xa81a664b, 0xc24b8b70, 0xc76c51a3, 0xd192e819, 0xd6990624, 0xf40e3585, 0x106aa070,
   0x19a4c116, 0x1e376c08, 0x2748774c, 0x34b0bcb5, 0x391c0cb3, 0x4ed8aa4a, 0x5b9cca4f, 0x682e6ff3,
   0x748f82ee, 0x78a5636f, 0x84c87814, 0x8cc70208, 0x90befffa, 0xa4506ceb, 0xbef9a3f7, 0xc67178f2]

def K (t : ℕ) : Word := constants.getD t 0

/-- Eight words: a hash value, or the working variables `a` … `h`. -/
structure Work where
  a : Word
  b : Word
  c : Word
  d : Word
  e : Word
  f : Word
  g : Word
  h : Word
  deriving DecidableEq

def Work.get (v : Work) (j : ℕ) : Word := [v.a, v.b, v.c, v.d, v.e, v.f, v.g, v.h].getD j 0

def Work.add (v w : Work) : Work :=
  ⟨v.a + w.a, v.b + w.b, v.c + w.c, v.d + w.d, v.e + w.e, v.f + w.f, v.g + w.g, v.h + w.h⟩

def initial : Work :=
  ⟨0x6a09e667, 0xbb67ae85, 0x3c6ef372, 0xa54ff53a, 0x510e527f, 0x9b05688c, 0x1f83d9ab, 0x5be0cd19⟩

theorem Work.ext_get {v w : Work} (h : ∀ j < 8, v.get j = w.get j) : v = w := by
  cases v
  cases w
  have h0 := h 0 (by decide)
  have h1 := h 1 (by decide)
  have h2 := h 2 (by decide)
  have h3 := h 3 (by decide)
  have h4 := h 4 (by decide)
  have h5 := h 5 (by decide)
  have h6 := h 6 (by decide)
  have h7 := h 7 (by decide)
  simp only [Work.get, List.getD_cons_zero, List.getD_cons_succ] at h0 h1 h2 h3 h4 h5 h6 h7
  simp only [h0, h1, h2, h3, h4, h5, h6, h7]

theorem Work.add_get (v w : Work) {j : ℕ} (hj : j < 8) : (v.add w).get j = v.get j + w.get j := by
  interval_cases j <;> rfl

/-! ## One compression -/

/-- The schedule word `W_t` of a block with words `M 0`, …, `M 15`. -/
def schedule (M : ℕ → Word) (t : ℕ) : Word :=
  if t < 16 then M t
  else smallSigma1 (schedule M (t - 2)) + schedule M (t - 7) + smallSigma0 (schedule M (t - 15)) +
    schedule M (t - 16)
termination_by t
decreasing_by all_goals omega

variable {t i : ℕ}

theorem schedule_of_lt (M : ℕ → Word) (h : t < 16) : schedule M t = M t := by
  rw [schedule, if_pos h]

theorem schedule_of_le (M : ℕ → Word) (h : 16 ≤ t) :
    schedule M t = smallSigma1 (schedule M (t - 2)) + schedule M (t - 7) +
      smallSigma0 (schedule M (t - 15)) + schedule M (t - 16) := by
  rw [schedule, if_neg (by omega)]

theorem schedule_congr {M N : ℕ → Word} (h : ∀ t < 16, M t = N t) (t : ℕ) : schedule M t = schedule N t := by
  induction t using Nat.strong_induction_on with
  | _ t ih =>
    by_cases ht : t < 16
    · rw [schedule_of_lt M ht, schedule_of_lt N ht, h t ht]
    · have hle : 16 ≤ t := by omega
      rw [schedule_of_le M hle, schedule_of_le N hle, ih (t - 2) (by omega), ih (t - 7) (by omega),
        ih (t - 15) (by omega), ih (t - 16) (by omega)]

def round (k w : Word) (v : Work) : Work :=
  let t1 := v.h + bigSigma1 v.e + ch v.e v.f v.g + k + w
  let t2 := bigSigma0 v.a + maj v.a v.b v.c
  ⟨t1 + t2, v.a, v.b, v.c, v.d + t1, v.e, v.f, v.g⟩

/-- The working variables after the first `n` rounds. -/
def rounds (W : ℕ → Word) (v : Work) : ℕ → Work
  | 0 => v
  | t + 1 => round (K t) (W t) (rounds W v t)

theorem rounds_congr {W W' : ℕ → Word} (v : Work) {n : ℕ} (h : ∀ t < n, W t = W' t) : rounds W v n = rounds W' v n := by
  induction n with
  | zero => rfl
  | succ n ih => rw [rounds, rounds, ih (fun t ht => h t (by omega)), h n (Nat.lt_succ_self n)]

def compress (H : Work) (M : ℕ → Word) : Work := H.add (rounds (schedule M) H 64)

theorem compress_congr (H : Work) {M N : ℕ → Word} (h : ∀ t < 16, M t = N t) : compress H M = compress H N := by
  rw [compress, compress, rounds_congr H fun t _ => schedule_congr h t]

/-! ## Byte strings -/

def word (b0 b1 b2 b3 : Byte) : Word := b0 ++ b1 ++ b2 ++ b3

/-- Word `t` of the block that starts at byte `s` of `f`. -/
def blockWord (f : ℕ → Byte) (s t : ℕ) : Word :=
  word (f (s + 4 * t)) (f (s + 4 * t + 1)) (f (s + 4 * t + 2)) (f (s + 4 * t + 3))

theorem blockWord_congr {f g : ℕ → Byte} {s s' : ℕ} (h : ∀ i < 64, f (s + i) = g (s' + i)) (ht : t < 16) :
    blockWord f s t = blockWord g s' t := by
  simp only [blockWord, Nat.add_assoc]
  rw [h (4 * t) (by omega), h (4 * t + 1) (by omega), h (4 * t + 2) (by omega), h (4 * t + 3) (by omega)]

/-- The hash value after the first `b` blocks of `P`. -/
def chain (P : List Byte) : ℕ → Work
  | 0 => initial
  | b + 1 => compress (chain P b) (blockWord (fun i => P.getD i 0) (64 * b))

theorem chain_congr {P Q : List Byte} {b : ℕ} (h : ∀ i < 64 * b, P.getD i 0 = Q.getD i 0) : chain P b = chain Q b := by
  induction b with
  | zero => rfl
  | succ b ih =>
    rw [chain, chain, ih (fun i hi => h i (by omega))]
    exact compress_congr _ fun t ht => blockWord_congr (fun i hi => h _ (by omega)) ht

theorem chain_append (P Q : List Byte) {b : ℕ} (h : 64 * b ≤ P.length) : chain (P ++ Q) b = chain P b :=
  chain_congr fun _ hi => List.getD_append _ _ _ _ (by omega)

def lengthByte (n i : ℕ) : Byte := BitVec.ofNat 8 (n / 256 ^ (7 - i))

/-- The zero bytes that complete `n` message bytes, the marker and the length to whole blocks. -/
def zeros (n : ℕ) : ℕ := (119 - n % 64) % 64

/-- The message, the bit `1` (as the byte `0x80`), zeros, and the bit length in 64 bits. -/
def pad (msg : List Byte) : List Byte :=
  msg ++ 0x80#8 :: (List.replicate (zeros msg.length) 0#8 ++
    (List.range 8).map (lengthByte (8 * msg.length)))

theorem pad_length (msg : List Byte) : (pad msg).length = 64 * ((msg.length + 8) / 64 + 1) := by
  simp only [pad, zeros, List.length_append, List.length_cons, List.length_replicate, List.length_map,
    List.length_range]
  omega

/-- Output byte `i` of a hash value: its words one after the other, most significant byte first. -/
def outByte (v : Work) (i : ℕ) : Byte := (v.get (i / 4) >>> (24 - 8 * (i % 4))).setWidth 8

def digest (msg : List Byte) : List Byte :=
  (List.range 32).map (outByte (chain (pad msg) ((pad msg).length / 64)))

@[simp] theorem digest_length (msg : List Byte) : (digest msg).length = 32 := by simp [digest]

/-! ## The padded message by position -/

theorem pad_getD_message (msg : List Byte) (h : i < msg.length) :
    (pad msg).getD i 0 = msg.getD i 0 := List.getD_append _ _ _ _ h

theorem pad_getD_marker (msg : List Byte) : (pad msg).getD msg.length 0 = 0x80#8 := by
  rw [pad, List.getD_append_right _ _ _ _ le_rfl, Nat.sub_self, List.getD_cons_zero]

theorem pad_getD_zero (msg : List Byte) (h : msg.length < i) (h' : i < 64 * ((msg.length + 8) / 64 + 1) - 8) :
    (pad msg).getD i 0 = 0 := by
  obtain ⟨j, rfl⟩ : ∃ j, i = msg.length + (j + 1) := ⟨i - msg.length - 1, by omega⟩
  have hj : j < zeros msg.length := by
    simp only [zeros]
    omega
  rw [pad, List.getD_append_right _ _ _ _ (by omega), Nat.add_sub_cancel_left, List.getD_cons_succ,
    List.getD_append _ _ _ _ (by simpa using hj)]
  exact List.getD_replicate 0 hj

theorem pad_getD_length (msg : List Byte) (h : i < 8) :
    (pad msg).getD (64 * ((msg.length + 8) / 64 + 1) - 8 + i) 0 = lengthByte (8 * msg.length) i := by
  have he : 64 * ((msg.length + 8) / 64 + 1) - 8 + i = msg.length + (zeros msg.length + i + 1) := by
    simp only [zeros]
    omega
  rw [he, pad, List.getD_append_right _ _ _ _ (by omega), Nat.add_sub_cancel_left, List.getD_cons_succ,
    List.getD_append_right _ _ _ _ (by simp), List.length_replicate, Nat.add_sub_cancel_left]
  simp [List.getD_eq_getElem?_getD, h]

theorem digest_getD (msg : List Byte) (h : i < 32) :
    (digest msg).getD i 0 = outByte (chain (pad msg) ((msg.length + 8) / 64 + 1)) i := by
  rw [digest, pad_length, Nat.mul_div_cancel_left _ (by decide : 0 < 64)]
  simp [List.getD_eq_getElem?_getD, h]

end Xv6Boot.Sha256
