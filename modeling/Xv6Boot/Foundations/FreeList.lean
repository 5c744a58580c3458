import Mathlib

/-! # Blocks in address order and a list through them

Blocks that fill an interval one after another, and a singly linked path through addresses, as an allocator
keeps them. A path is followed from its first node; the node it leads to is not one of its own.
-/

namespace Xv6Boot.FreeList

/-! ## Tilings -/

section Tiles
variable {α : Type*} (addr len : α → ℕ)

/-- The blocks fill `[a, b)` in order, and none is empty. -/
def Tiles : ℕ → List α → ℕ → Prop
  | a, [], b => a = b
  | a, x :: xs, b => addr x = a ∧ 0 < len x ∧ Tiles (a + len x) xs b

variable {addr len} {a b : ℕ} {x y : α} {xs ys : List α}

theorem tiles_append : Tiles addr len a (xs ++ ys) b ↔ ∃ c, Tiles addr len a xs c ∧ Tiles addr len c ys b := by
  induction xs generalizing a with
  | nil => simp [Tiles]
  | cons x xs ih =>
    rw [List.cons_append]
    simp only [Tiles, ih]
    constructor
    · rintro ⟨h1, h2, c, h3, h4⟩
      exact ⟨c, ⟨h1, h2, h3⟩, h4⟩
    · rintro ⟨c, ⟨h1, h2, h3⟩, h4⟩
      exact ⟨h1, h2, c, h3, h4⟩

theorem Tiles.le (h : Tiles addr len a xs b) : a ≤ b := by
  induction xs generalizing a with
  | nil => exact h.le
  | cons x xs ih =>
    have := ih h.2.2
    omega

theorem Tiles.mem (h : Tiles addr len a xs b) (hx : x ∈ xs) : a ≤ addr x ∧ 0 < len x ∧ addr x + len x ≤ b := by
  induction xs generalizing a with
  | nil => cases hx
  | cons y xs ih =>
    obtain ⟨h1, h2, h3⟩ := h
    have hle := h3.le
    rcases List.mem_cons.mp hx with rfl | hx
    · exact ⟨h1.ge, h2, by omega⟩
    · have := ih h3 hx
      exact ⟨by omega, this.2⟩

theorem Tiles.pairwise (h : Tiles addr len a xs b) : xs.Pairwise fun x y => addr x + len x ≤ addr y := by
  induction xs generalizing a with
  | nil => exact List.Pairwise.nil
  | cons x xs ih =>
    obtain ⟨h1, h2, h3⟩ := h
    refine List.pairwise_cons.mpr ⟨fun y hy => ?_, ih h3⟩
    rw [h1]
    exact (h3.mem hy).1

theorem Tiles.around (h : Tiles addr len a (xs ++ x :: ys) b) :
    (∀ y ∈ xs, addr y + len y ≤ addr x) ∧ ∀ y ∈ ys, addr x + len x ≤ addr y := by
  have hp := List.pairwise_append.mp h.pairwise
  exact ⟨fun y hy => hp.2.2 y hy x List.mem_cons_self, fun y hy => List.rel_of_pairwise_cons hp.2.1 hy⟩

theorem Tiles.length_le {k : ℕ} (h : Tiles addr len a xs b) (hk : ∀ x ∈ xs, k ≤ len x) : a + k * xs.length ≤ b := by
  induction xs generalizing a with
  | nil =>
    rw [List.length_nil, Nat.mul_zero, Nat.add_zero]
    exact h.le
  | cons x xs ih =>
    have h1 := ih h.2.2 fun y hy => hk y (List.mem_cons_of_mem _ hy)
    have h2 := hk x List.mem_cons_self
    rw [List.length_cons, Nat.mul_succ]
    omega

end Tiles

/-! ## Paths -/

variable {ι : Type*} (next : ι → ι)

/-- From `a` through the nodes `xs` to `z`. -/
def Path : ι → List ι → ι → Prop
  | a, [], z => next a = z
  | a, x :: xs, z => next a = x ∧ Path x xs z

/-- From `a` through the nodes `xs`, of which `p` is the last, or `a` itself. -/
def Upto (a : ι) (xs : List ι) (p : ι) : Prop := (xs = [] ∧ p = a) ∨ ∃ ys, xs = ys ++ [p] ∧ Path next a ys p

variable {next} {next' : ι → ι} {a p y z : ι} {xs ys us : List ι}

theorem path_append : Path next a (xs ++ y :: ys) z ↔ Path next a xs y ∧ Path next y ys z := by
  induction xs generalizing a with
  | nil => rfl
  | cons x xs ih =>
    rw [List.cons_append]
    simp only [Path, ih, and_assoc]

theorem Path.congr (h : Path next a xs z) (hn : ∀ b ∈ a :: xs, next' b = next b) : Path next' a xs z := by
  induction xs generalizing a with
  | nil => exact (hn a List.mem_cons_self).trans h
  | cons x xs ih =>
    exact ⟨(hn a List.mem_cons_self).trans h.1, ih h.2 fun b hb => hn b (List.mem_cons_of_mem _ hb)⟩

theorem Path.restart {a' : ι} (h : Path next a xs z) (ha : next' a' = next a) (hn : ∀ b ∈ xs, next' b = next b) :
    Path next' a' xs z := by
  cases xs with
  | nil => exact ha.trans h
  | cons x xs => exact ⟨ha.trans h.1, h.2.congr hn⟩

theorem Path.split (h : Path next a (xs ++ ys) z) : ∃ p, Upto next a xs p ∧ Path next p ys z := by
  rcases List.eq_nil_or_concat xs with rfl | ⟨xs', p, rfl⟩
  · exact ⟨a, .inl ⟨rfl, rfl⟩, h⟩
  · rw [List.concat_eq_append, List.append_assoc, List.singleton_append, path_append] at h
    exact ⟨p, .inr ⟨xs', List.concat_eq_append, h.1⟩, h.2⟩

theorem Upto.path (h : Upto next a xs p) (hp : Path next p ys z) : Path next a (xs ++ ys) z := by
  rcases h with ⟨rfl, rfl⟩ | ⟨xs', rfl, h⟩
  · exact hp
  · rw [List.append_assoc, List.singleton_append]
    exact path_append.mpr ⟨h, hp⟩

theorem Upto.cons {x : ι} (ha : next a = x) (h : Upto next x xs p) : Upto next a (x :: xs) p := by
  rcases h with ⟨rfl, rfl⟩ | ⟨xs', rfl, h⟩
  · exact .inr ⟨[], rfl, ha⟩
  · exact .inr ⟨x :: xs', rfl, ha, h⟩

theorem Upto.concat {q : ι} (h : Upto next a (ys ++ [q]) p) : p = q ∧ Path next a ys q := by
  rcases h with ⟨h, -⟩ | ⟨xs', he, h⟩
  · simp at h
  · obtain ⟨rfl, hq⟩ := List.append_inj' he rfl
    obtain rfl := List.singleton_inj.mp hq
    exact ⟨rfl, h⟩

theorem Upto.mem (h : Upto next a xs p) : p ∈ a :: xs := by
  rcases h with ⟨-, rfl⟩ | ⟨xs', rfl, -⟩
  · exact List.mem_cons_self
  · simp

theorem Upto.congr (h : Upto next a xs p) (hd : (a :: xs).Nodup) (hn : ∀ b ∈ a :: xs, b ≠ p → next' b = next b) :
    Upto next' a xs p := by
  rcases h with h | ⟨xs', rfl, h⟩
  · exact .inl h
  · refine .inr ⟨xs', rfl, h.congr fun b hb => hn b ?_ ?_⟩
    · exact List.mem_append_left [p] hb
    · rintro rfl
      rw [← List.cons_append, List.nodup_append] at hd
      exact hd.2.2 b hb b (List.mem_singleton.mpr rfl) rfl

theorem Path.before {q : ι} (h : Path next a xs z) (he : xs ++ [z] = ys ++ q :: us) : Path next a ys q := by
  rcases List.eq_nil_or_concat us with rfl | ⟨us, w, rfl⟩
  · obtain ⟨rfl, hz⟩ := List.append_inj' he rfl
    obtain rfl := List.singleton_inj.mp hz
    exact h
  · rw [List.concat_eq_append, ← List.cons_append, ← List.append_assoc] at he
    obtain ⟨rfl, -⟩ := List.append_inj' he rfl
    exact (path_append.mp h).1

theorem Path.map_next (h : Path next a xs z) : (a :: xs).map next = xs ++ [z] := by
  induction xs generalizing a with
  | nil => exact congrArg (· :: []) h
  | cons x xs ih => rw [List.map_cons, ih h.2, h.1, List.cons_append]

theorem Path.next_inj (h : Path next a xs a) (hd : (a :: xs).Nodup) (hp : p ∈ a :: xs) (hy : y ∈ a :: xs)
    (he : next p = next y) : p = y := by
  refine List.inj_on_of_nodup_map ?_ hp hy he
  rw [h.map_next]
  exact (List.perm_append_singleton a xs).nodup_iff.mpr hd

theorem Path.rotate (h : Path next a xs a) (hp : p ∈ a :: xs) : ∃ ys, Path next p ys p ∧ (p :: ys).Perm (a :: xs) := by
  rcases List.mem_cons.mp hp with rfl | hp
  · exact ⟨xs, h, .refl _⟩
  · obtain ⟨us, vs, rfl⟩ := List.append_of_mem hp
    rw [path_append] at h
    refine ⟨vs ++ a :: us, path_append.mpr ⟨h.2, h.1⟩, ?_⟩
    rw [← List.cons_append, ← List.cons_append]
    exact List.perm_append_comm

end Xv6Boot.FreeList
