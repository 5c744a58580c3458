import Mathlib

/-! # Sequences of atomic writes

A device that performs one write at a time, in the order of issue. What is written may depend on what the
device holds, so a write is a function of the store. A crash leaves the store after some prefix of the
writes that were to be performed.
-/

namespace Xv6Boot.AtomicWrites

variable {α β : Type*} [DecidableEq α] {x : α} {k : ℕ}

/-- One write: the place and the value, computed from the store. -/
abbrev Write (α β : Type*) := (α → β) → α × β

def perform (w : Write α β) (d : α → β) : α → β := Function.update d (w d).1 (w d).2

def run (ws : List (Write α β)) (d : α → β) : α → β := ws.foldl (fun d w => perform w d) d

/-- The store after a crash that let `k` writes through. -/
def crash (k : ℕ) (ws : List (Write α β)) (d : α → β) : α → β := run (ws.take k) d

@[simp] theorem run_nil (d : α → β) : run [] d = d := rfl

@[simp] theorem run_cons (w : Write α β) (ws : List (Write α β)) (d : α → β) :
    run (w :: ws) d = run ws (perform w d) := rfl

theorem run_append (ws vs : List (Write α β)) (d : α → β) : run (ws ++ vs) d = run vs (run ws d) :=
  List.foldl_append

theorem run_singleton (w : Write α β) (d : α → β) : run [w] d = perform w d := rfl

theorem perform_ne {w : Write α β} {d : α → β} (h : (w d).1 ≠ x) : perform w d x = d x :=
  Function.update_of_ne h.symm _ _

variable {ws : List (Write α β)}

theorem run_of_untouched (h : ∀ w ∈ ws, ∀ d, (w d).1 ≠ x) (d : α → β) : run ws d x = d x := by
  induction ws generalizing d with
  | nil => rfl
  | cons w ws ih =>
    rw [run_cons, ih (fun v hv => h v (List.mem_cons_of_mem _ hv))]
    exact perform_ne (h w List.mem_cons_self d)

theorem crash_append_of_le {vs : List (Write α β)} (h : k ≤ ws.length) (d : α → β) :
    crash k (ws ++ vs) d = crash k ws d := by
  rw [crash, List.take_append_of_le_length h, crash]

theorem crash_append_of_ge {vs : List (Write α β)} (h : ws.length ≤ k) (d : α → β) :
    crash k (ws ++ vs) d = crash (k - ws.length) vs (run ws d) := by
  rw [crash, List.take_append, List.take_of_length_le h, run_append, crash]

theorem crash_of_length_le (h : ws.length ≤ k) (d : α → β) : crash k ws d = run ws d := by
  rw [crash, List.take_of_length_le h]

theorem crash_succ {w : Write α β} (h : ws[k]? = some w) (d : α → β) :
    crash (k + 1) ws d = perform w (crash k ws d) := by
  rw [crash, List.take_add_one, h, run_append]
  rfl

theorem crash_of_untouched (h : ∀ w ∈ ws, ∀ d, (w d).1 ≠ x) (d : α → β) : crash k ws d x = d x :=
  run_of_untouched (fun w hw => h w (List.mem_of_mem_take hw)) d

/-- A sequence indexed by a counter: an invariant of the store, indexed by the number of writes done, that
each write advances holds of every prefix. -/
theorem crash_range_induct (f : ℕ → Write α β) (n : ℕ) (Inv : ℕ → (α → β) → Prop) {d : α → β} (h0 : Inv 0 d)
    (hs : ∀ i < n, ∀ d, Inv i d → Inv (i + 1) (perform (f i) d)) (hk : k ≤ n) :
    Inv k (crash k ((List.range n).map f) d) := by
  rw [crash, ← List.map_take, List.take_range, Nat.min_eq_left hk]
  induction k with
  | zero => exact h0
  | succ k ih =>
    rw [List.range_succ, List.map_append, run_append]
    exact hs k (by omega) _ (ih (by omega))

end Xv6Boot.AtomicWrites
