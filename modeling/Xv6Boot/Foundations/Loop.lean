import Mathlib

/-! # Counting loops

`forLoop body lo n` runs `body lo`, `body (lo + 1)`, …, `n` times in all. `forLoopM` is the same loop
for a body that may fail to return. A loop is reasoned about through one invariant indexed by the
counter: a step lemma for the body gives a run lemma for the loop.
-/

namespace Xv6Boot.Loop

variable {σ : Type*}

def forLoop (body : ℕ → σ → σ) : ℕ → ℕ → σ → σ
  | _, 0, s => s
  | lo, n + 1, s => forLoop body (lo + 1) n (body lo s)

def forLoopM (body : ℕ → σ → Option σ) : ℕ → ℕ → σ → Option σ
  | _, 0, s => some s
  | lo, n + 1, s => (body lo s).bind (forLoopM body (lo + 1) n)

theorem forLoop_induct (body : ℕ → σ → σ) (Inv : ℕ → σ → Prop) (lo n : ℕ) (s : σ) (h0 : Inv lo s)
    (hs : ∀ i s, lo ≤ i → i < lo + n → Inv i s → Inv (i + 1) (body i s)) : Inv (lo + n) (forLoop body lo n s) := by
  induction n generalizing lo s with
  | zero => exact h0
  | succ n ih =>
    have h1 : Inv (lo + 1) (body lo s) := hs lo s le_rfl (by omega) h0
    have h2 := ih (lo + 1) (body lo s) h1 (fun i s hl hu hi => hs i s (by omega) (by omega) hi)
    rw [show lo + (n + 1) = lo + 1 + n by omega]
    exact h2

theorem forLoopM_induct (body : ℕ → σ → Option σ) (Inv : ℕ → σ → Prop) (lo n : ℕ) (s : σ) (h0 : Inv lo s)
    (hs : ∀ i s, lo ≤ i → i < lo + n → Inv i s → ∃ s', body i s = some s' ∧ Inv (i + 1) s') :
    ∃ s', forLoopM body lo n s = some s' ∧ Inv (lo + n) s' := by
  induction n generalizing lo s with
  | zero => exact ⟨s, rfl, h0⟩
  | succ n ih =>
    obtain ⟨s1, hb, h1⟩ := hs lo s le_rfl (by omega) h0
    obtain ⟨s2, hl, h2⟩ := ih (lo + 1) s1 h1 (fun i s hl hu hi => hs i s (by omega) (by omega) hi)
    refine ⟨s2, ?_, ?_⟩
    · simp only [forLoopM, hb, Option.bind_some, hl]
    · rw [show lo + (n + 1) = lo + 1 + n by omega]
      exact h2

theorem forLoopM_inv (body : ℕ → σ → Option σ) (Inv : ℕ → σ → Prop) (lo n : ℕ) {s s' : σ}
    (h : forLoopM body lo n s = some s') (h0 : Inv lo s)
    (hs : ∀ i s s', lo ≤ i → i < lo + n → Inv i s → body i s = some s' → Inv (i + 1) s') : Inv (lo + n) s' := by
  induction n generalizing lo s with
  | zero =>
    cases h
    exact h0
  | succ n ih =>
    rw [forLoopM, Option.bind_eq_some_iff] at h
    obtain ⟨s1, hb, hl⟩ := h
    have h1 : Inv (lo + 1) s1 := hs lo s s1 le_rfl (by omega) h0 hb
    have h2 := ih (lo + 1) hl h1 (fun i s s' hl hu hi => hs i s s' (by omega) (by omega) hi)
    rw [show lo + (n + 1) = lo + 1 + n by omega]
    exact h2

theorem forLoopM_eq_none (body : ℕ → σ → Option σ) {lo n i : ℕ} (hl : lo ≤ i) (hu : i < lo + n)
    (hb : ∀ s, body i s = none) (s : σ) : forLoopM body lo n s = none := by
  induction n generalizing lo s with
  | zero => omega
  | succ n ih =>
    rw [forLoopM]
    by_cases he : lo = i
    · subst he
      rw [hb s, Option.bind_none]
    · cases h : body lo s with
      | none => rfl
      | some s1 => exact ih (by omega) (by omega) s1

end Xv6Boot.Loop
