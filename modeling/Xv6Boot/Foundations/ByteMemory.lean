import Mathlib

/-! # Flat byte memory

A memory is a total function from 64-bit addresses to bytes. Every store of this development is a
`put`: it replaces the bytes of one span and nothing else. Address arithmetic wraps at `2^64`, and so
does `span`: a span is described by the distance from its base, so no statement needs a side
condition against wrapping.

* `span a n`: the `n` addresses from `a` on.
* `Frame s m m'`: only addresses of `s` differ.
* `put m a n f`: byte `k < n` of the span becomes `f k`; `blit` is the simultaneous copy.
* `load w`/`store`: little-endian access of any width `w = 8 * n`.
-/

namespace Xv6Boot.ByteMemory
open Function

abbrev Byte := BitVec 8
abbrev Addr := BitVec 64
abbrev Mem := Addr → Byte

/-- The address `k` bytes after `a`. -/
def off (a : Addr) (k : ℕ) : Addr := a + BitVec.ofNat 64 k

@[simp] theorem off_zero (a : Addr) : off a 0 = a := by simp [off]

theorem off_off (a : Addr) (j k : ℕ) : off (off a j) k = off a (j + k) := by
  simp only [off, BitVec.add_assoc, ← BitVec.ofNat_add]

theorem off_succ (a : Addr) (k : ℕ) : off (a + 1) k = off a (k + 1) := by
  rw [Nat.add_comm k 1, ← off_off]
  rfl

theorem off_sub (a : Addr) (k : ℕ) (hk : k < 2 ^ 64) : (off a k - a).toNat = k := by
  simp only [off]
  bv_omega

theorem off_toNat_sub (a x : Addr) : off a (x - a).toNat = x := by
  simp only [off, BitVec.ofNat_toNat, BitVec.setWidth_eq]
  bv_omega

theorem off_toNat (a : Addr) (k : ℕ) (h : a.toNat + k < 2 ^ 64) : (off a k).toNat = a.toNat + k := by
  simp only [off, BitVec.toNat_add, BitVec.toNat_ofNat]
  omega

variable {k j n n' w : ℕ} {a x : Addr} {m' m : Mem} {s : Set Addr}

theorem off_injective (a : Addr) (hj : j < 2 ^ 64) (hk : k < 2 ^ 64) (h : off a j = off a k) : j = k := by
  rw [← off_sub a j hj, h, off_sub a k hk]

/-! ## Spans -/

/-- The addresses `a`, `a + 1`, …, `a + n - 1`. -/
def span (a : Addr) (n : ℕ) : Set Addr := {x | (x - a).toNat < n}

instance (a : Addr) (n : ℕ) (x : Addr) : Decidable (x ∈ span a n) :=
  inferInstanceAs (Decidable ((x - a).toNat < n))

theorem mem_span : x ∈ span a n ↔ (x - a).toNat < n := Iff.rfl

theorem off_mem_span (a : Addr) (hk : k < n) (hk' : k < 2 ^ 64) : off a k ∈ span a n := by
  rw [mem_span, off_sub a k hk']
  exact hk

theorem exists_off (h : x ∈ span a n) : ∃ k, k < n ∧ k < 2 ^ 64 ∧ x = off a k :=
  ⟨(x - a).toNat, h, BitVec.isLt _, (off_toNat_sub a x).symm⟩

theorem span_mono (a : Addr) (h : n ≤ n') : span a n ⊆ span a n' :=
  fun _ hx => lt_of_lt_of_le (mem_span.mp hx) h

theorem span_off_subset (a : Addr) (h : j + n ≤ n') (hn : n' ≤ 2 ^ 64) : span (off a j) n ⊆ span a n' := by
  intro x hx
  obtain ⟨k, hk, -, rfl⟩ := exists_off hx
  rw [off_off]
  exact off_mem_span a (by omega) (by omega)

theorem span_subset_of_toNat {b : Addr} (h : b.toNat ≤ a.toNat) (h' : a.toNat + n ≤ b.toNat + n')
    (hn : a.toNat + n ≤ 2 ^ 64) : span a n ⊆ span b n' := by
  intro x hx
  obtain ⟨k, hk, -, rfl⟩ := exists_off hx
  rw [mem_span, BitVec.toNat_sub, off_toNat a k (by omega)]
  omega

theorem span_disjoint {b : Addr} (h : a.toNat + n ≤ b.toNat) (hb : b.toNat + n' ≤ 2 ^ 64) :
    Disjoint (span a n) (span b n') := by
  rw [Set.disjoint_left]
  intro x hx hx'
  obtain ⟨k, hk, -, rfl⟩ := exists_off hx
  rw [mem_span, BitVec.toNat_sub, off_toNat a k (by omega)] at hx'
  omega

theorem span_off_disjoint (a : Addr) (h : j + n ≤ k) (hk : k + n' ≤ 2 ^ 64) :
    Disjoint (span (off a j) n) (span (off a k) n') := by
  rw [Set.disjoint_left]
  intro x hx hx'
  obtain ⟨i, hi, -, rfl⟩ := exists_off hx
  obtain ⟨i', hi', -, he⟩ := exists_off hx'
  rw [off_off, off_off] at he
  have := off_injective a (by omega) (by omega) he
  omega

theorem mem_span_toNat (h : a.toNat + n ≤ 2 ^ 64) : x ∈ span a n ↔ a.toNat ≤ x.toNat ∧ x.toNat < a.toNat + n := by
  rw [mem_span, BitVec.toNat_sub]
  have hx := x.isLt
  omega

/-! ## Frames -/

/-- `Frame s m m'`: going from `m` to `m'`, only addresses of `s` may have changed. -/
def Frame (s : Set Addr) (m m' : Mem) : Prop := ∀ x, x ∉ s → m' x = m x

theorem Frame.refl (s : Set Addr) (m : Mem) : Frame s m m := fun _ _ => rfl

theorem Frame.mono {t : Set Addr} (h : Frame s m m') (hst : s ⊆ t) : Frame t m m' :=
  fun x hx => h x (fun hs => hx (hst hs))

theorem Frame.trans {m'' : Mem} (h : Frame s m m') (h' : Frame s m' m'') :
    Frame s m m'' := fun x hx => (h' x hx).trans (h x hx)

theorem Frame.symm (h : Frame s m m') : Frame s m' m :=
  fun x hx => (h x hx).symm

theorem Frame.trans_union {t : Set Addr} {m'' : Mem} (h : Frame s m m') (h' : Frame t m' m'') : Frame (s ∪ t) m m'' :=
  (h.mono Set.subset_union_left).trans (h'.mono Set.subset_union_right)

theorem Frame.byte (h : Frame s m m') (hd : Disjoint (span a n) s) (hk : k < n) (hk' : k < 2 ^ 64) :
    m' (off a k) = m (off a k) :=
  h _ (Set.disjoint_left.mp hd (off_mem_span a hk hk'))

/-! ## Writing one span -/

/-- Replace byte `k` of the span `[a, a + n)` by `f k`, for every `k < n`. -/
def put (m : Mem) (a : Addr) (n : ℕ) (f : ℕ → Byte) : Mem :=
  fun x => if (x - a).toNat < n then f (x - a).toNat else m x

theorem put_off (m : Mem) (a : Addr) (f : ℕ → Byte) (hk : k < n) (hk' : k < 2 ^ 64) : put m a n f (off a k) = f k := by
  simp only [put, off_sub a k hk', hk, if_true]

theorem put_frame (m : Mem) (a : Addr) (n : ℕ) (f : ℕ → Byte) : Frame (span a n) m (put m a n f) := by
  intro x hx
  rw [mem_span] at hx
  simp only [put, hx, if_false]

@[simp] theorem put_zero (m : Mem) (a : Addr) (f : ℕ → Byte) : put m a 0 f = m := by
  funext x
  simp [put]

theorem put_succ (m : Mem) (a : Addr) (n : ℕ) (f : ℕ → Byte) (hn : n < 2 ^ 64) :
    update (put m a n f) (off a n) (f n) = put m a (n + 1) f := by
  funext x
  by_cases hx : x = off a n
  · subst hx
    rw [update_self, put_off m a f (Nat.lt_succ_self n) hn]
  · rw [update_of_ne hx]
    have hne : (x - a).toNat ≠ n := fun h => hx (by rw [← h, off_toNat_sub])
    simp only [put]
    by_cases h : (x - a).toNat < n
    · rw [if_pos h, if_pos (by omega)]
    · rw [if_neg h, if_neg (by omega)]

theorem put_congr (m : Mem) (a : Addr) {f g : ℕ → Byte} (h : ∀ k < n, f k = g k) : put m a n f = put m a n g := by
  funext x
  simp only [put]
  split
  · next hx => exact h _ hx
  · rfl

/-! ## Copying -/

/-- The simultaneous copy of `n` bytes from `src` to `dst`. -/
def blit (m : Mem) (dst src : Addr) (n : ℕ) : Mem := put m dst n (fun k => m (off src k))

theorem blit_off (m : Mem) (dst src : Addr) (hk : k < n) (hk' : k < 2 ^ 64) :
    blit m dst src n (off dst k) = m (off src k) := put_off m dst _ hk hk'

theorem blit_frame (m : Mem) (dst src : Addr) (n : ℕ) : Frame (span dst n) m (blit m dst src n) :=
  put_frame m dst n _

def bytesAt (m : Mem) (a : Addr) (n : ℕ) : List Byte := (List.range n).map fun k => m (off a k)

@[simp] theorem bytesAt_length (m : Mem) (a : Addr) (n : ℕ) : (bytesAt m a n).length = n := by
  simp [bytesAt]

theorem bytesAt_getD (m : Mem) (a : Addr) (hk : k < n) (d : Byte) : (bytesAt m a n).getD k d = m (off a k) := by
  simp [bytesAt, List.getD_eq_getElem?_getD, hk]

theorem bytesAt_succ (m : Mem) (a : Addr) (n : ℕ) : bytesAt m a (n + 1) = bytesAt m a n ++ [m (off a n)] := by
  simp [bytesAt, List.range_succ]

theorem bytesAt_congr {a' : Addr} (h : ∀ k < n, m (off a k) = m' (off a' k)) : bytesAt m a n = bytesAt m' a' n :=
  List.map_congr_left fun k hk => h k (List.mem_range.mp hk)

theorem bytesAt_add (m : Mem) (a : Addr) (j n : ℕ) : bytesAt m a (j + n) = bytesAt m a j ++ bytesAt m (off a j) n := by
  induction n with
  | zero => simp [bytesAt]
  | succ n ih => rw [← Nat.add_assoc, bytesAt_succ, ih, bytesAt_succ, off_off, List.append_assoc]

/-! ## Little-endian numbers -/

/-- The number whose little-endian digits to base 256 are `f 0`, …, `f (n - 1)`. -/
def leNat (f : ℕ → Byte) : ℕ → ℕ
  | 0 => 0
  | n + 1 => leNat f n + (f n).toNat * 256 ^ n

/-- Byte `k` of the little-endian representation of `v`. -/
def leByte (v k : ℕ) : Byte := BitVec.ofNat 8 (v / 256 ^ k)

theorem leNat_congr {f g : ℕ → Byte} (h : ∀ k < n, f k = g k) : leNat f n = leNat g n := by
  induction n with
  | zero => rfl
  | succ n ih =>
    rw [leNat, leNat, ih (fun k hk => h k (by omega)), h n (Nat.lt_succ_self n)]

theorem leNat_leByte (v n : ℕ) : leNat (leByte v) n = v % 256 ^ n := by
  induction n with
  | zero => simp [leNat, Nat.mod_one]
  | succ n ih =>
    have hs : v % 256 ^ (n + 1) = v % 256 ^ n + 256 ^ n * (v / 256 ^ n % 256) := by
      rw [pow_succ, Nat.mod_mul]
    rw [leNat, ih, leByte, BitVec.toNat_ofNat, hs, Nat.mul_comm]

/-- The `w`-bit little-endian number at `a`. -/
def load (w : ℕ) (m : Mem) (a : Addr) : BitVec w :=
  BitVec.ofNat w (leNat (fun k => m (off a k)) (w / 8))

/-- Store `v` at `a`, least significant byte first. -/
def store {w : ℕ} (m : Mem) (a : Addr) (v : BitVec w) : Mem := put m a (w / 8) (leByte v.toNat)

theorem load_congr {a' : Addr} (h : ∀ k < w / 8, m (off a k) = m' (off a' k)) : load w m a = load w m' a' := by
  rw [load, load, leNat_congr h]

theorem Frame.load_eq (h : Frame s m m') (hd : Disjoint (span a (w / 8)) s) (hw : w ≤ 2 ^ 64) :
    load w m' a = load w m a :=
  load_congr fun _ hk => h.byte hd hk (by omega)

theorem store_frame (m : Mem) (a : Addr) (v : BitVec w) : Frame (span a (w / 8)) m (store m a v) := put_frame m a _ _

theorem load_store (m : Mem) (a : Addr) (v : BitVec w) (hw : 8 * (w / 8) = w) (hw' : w ≤ 2 ^ 64) :
    load w (store m a v) a = v := by
  have h : leNat (fun k => store m a v (off a k)) (w / 8) = v.toNat := by
    have hb : ∀ k < w / 8, store m a v (off a k) = leByte v.toNat k :=
      fun k hk => put_off m a _ hk (by omega)
    rw [leNat_congr hb, leNat_leByte]
    apply Nat.mod_eq_of_lt
    have hv := v.isLt
    have hp : 256 ^ (w / 8) = 2 ^ w := by
      conv_rhs => rw [← hw]
      rw [pow_mul]
      norm_num
    rw [hp]
    exact hv
  rw [load, h, BitVec.ofNat_toNat, BitVec.setWidth_eq]

theorem store32_frame (m : Mem) (a : Addr) (v : BitVec 32) : Frame (span a 4) m (store m a v) :=
  store_frame m a v

theorem store64_frame (m : Mem) (a : Addr) (v : BitVec 64) : Frame (span a 8) m (store m a v) :=
  store_frame m a v

theorem load_store32 (m : Mem) (a : Addr) (v : BitVec 32) : load 32 (store m a v) a = v :=
  load_store m a v (by norm_num) (by norm_num)

theorem load_store64 (m : Mem) (a : Addr) (v : BitVec 64) : load 64 (store m a v) a = v :=
  load_store m a v (by norm_num) (by norm_num)

/-! ## Separate fields of one record -/

theorem Frame.byte_off (h : Frame (span (off a j) n) m m') (hd : j + n ≤ k ∨ k < j) (hj : j + n ≤ 2 ^ 64)
    (hk : k < 2 ^ 64) : m' (off a k) = m (off a k) := by
  apply h
  intro hx
  obtain ⟨i, hi, -, he⟩ := exists_off hx
  rw [off_off] at he
  have := off_injective a hk (by omega) he
  omega

theorem Frame.load_off (h : Frame (span (off a j) n) m m') (hd : j + n ≤ k ∨ k + w / 8 ≤ j) (hj : j + n ≤ 2 ^ 64)
    (hk : k + w / 8 ≤ 2 ^ 64) : load w m' (off a k) = load w m (off a k) := by
  apply load_congr
  intro i hi
  rw [off_off]
  exact h.byte_off (by omega) hj (by omega)

theorem update_frame (m : Mem) (a : Addr) (c : Byte) : Frame (span a 1) m (update m a c) := by
  intro x hx
  apply update_of_ne
  rintro rfl
  exact hx (by simp [mem_span])

end Xv6Boot.ByteMemory
