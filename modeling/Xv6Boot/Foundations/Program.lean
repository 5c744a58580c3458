import Mathlib

/-! # Programs that change a state and may panic

`wp m Q E s`: run from `s`, the program returns a value and a state in `Q`, or stops with a message in `E`.
A caller uses a function through one lemma of this form and the rules below.
-/

namespace Xv6Boot.Program

abbrev Prog (σ α : Type) := StateT σ (Except String) α

variable {σ α β γ : Type} {a : α} {msg : String} {s' : σ} {f : α → Prog σ β}

def stop (msg : String) : Prog σ α := fun _ => .error msg

def wp (m : Prog σ α) (Q : α → σ → Prop) (E : String → Prop) (s : σ) : Prop :=
  match m s with
  | .ok (a, s') => Q a s'
  | .error e => E e

variable {m : Prog σ α} {Q Q' : α → σ → Prop} {E E' : String → Prop} {s : σ}

@[simp] theorem wp_pure : wp (pure a : Prog σ α) Q E s ↔ Q a s := Iff.rfl

@[simp] theorem wp_get {Q : σ → σ → Prop} : wp (get : Prog σ σ) Q E s ↔ Q s s := Iff.rfl

@[simp] theorem wp_set {Q : PUnit → σ → Prop} : wp (set s' : Prog σ PUnit) Q E s ↔ Q ⟨⟩ s' := Iff.rfl

@[simp] theorem wp_modify {Q : PUnit → σ → Prop} {f : σ → σ} : wp (modify f : Prog σ PUnit) Q E s ↔ Q ⟨⟩ (f s) :=
  Iff.rfl

theorem wp_bind {Q : β → σ → Prop} : wp (m >>= f) Q E s ↔ wp m (fun a s' => wp (f a) Q E s') E s := by
  simp only [wp, bind, StateT.bind, Except.bind]
  cases m s <;> rfl

theorem bind_of_ok (hm : m s = .ok (a, s')) : (m >>= f) s = f a s' := by
  change (m s >>= fun r => f r.1 r.2) = f a s'
  rw [hm]
  rfl

theorem wp.imp (h : wp m Q E s) (hq : ∀ a s', Q a s' → Q' a s') (he : ∀ e, E e → E' e) : wp m Q' E' s := by
  unfold wp at h ⊢
  split at h
  · exact hq _ _ h
  · exact he _ h

theorem wp.bind {Q' : β → σ → Prop} (h : wp m Q E s) (hf : ∀ a s', Q a s' → wp (f a) Q' E s') : wp (m >>= f) Q' E s :=
  wp_bind.mpr (h.imp hf fun _ he => he)

theorem wp.mono (h : wp m Q E s) (hq : ∀ a s', Q a s' → Q' a s') : wp m Q' E s := h.imp hq fun _ he => he

theorem wp.and (h : wp m Q E s) (h' : wp m Q' E s) : wp m (fun a s' => Q a s' ∧ Q' a s') E s := by
  unfold wp at h h' ⊢
  cases hm : m s with
  | ok r =>
    rw [hm] at h h'
    exact ⟨h, h'⟩
  | error e =>
    rw [hm] at h
    exact h

theorem wp.of_ok (h : wp m Q E s) (hm : m s = .ok (a, s')) : Q a s' := by
  rw [wp, hm] at h
  exact h

theorem wp.of_error {e : String} (h : wp m Q E s) (hm : m s = .error e) : E e := by
  rw [wp, hm] at h
  exact h

theorem wp_of_error {e : String} (hm : m s = .error e) (he : E e) : wp m Q E s := by
  rw [wp, hm]
  exact he

theorem wp.eq_error (h : wp m (fun _ _ => False) (fun e => e = msg) s) : m s = .error msg := by
  unfold wp at h
  cases hm : m s with
  | ok r =>
    rw [hm] at h
    exact h.elim
  | error e =>
    rw [hm] at h
    exact congrArg _ h

theorem wp.exists_ok (h : wp m Q (fun _ => False) s) : ∃ a s', m s = .ok (a, s') ∧ Q a s' := by
  unfold wp at h
  split at h
  · next a s' hm => exact ⟨a, s', hm, h⟩
  · exact h.elim

theorem wp_map {f : α → β} {Q : β → σ → Prop} : wp (f <$> m) Q E s ↔ wp m (fun a s' => Q (f a) s') E s := by
  rw [← bind_pure_comp, wp_bind]
  rfl

theorem map_bind_congr {δ : Type} {g : α → Prog σ γ} {u : β → δ} {v : γ → δ} (h : ∀ a, u <$> f a = v <$> g a) :
    u <$> (m >>= f) = v <$> (m >>= g) := by
  rw [map_bind, map_bind]
  exact congrArg (m >>= ·) (funext h)

theorem wp_forM {f : γ → Prog σ PUnit} (I : List γ → σ → Prop) {l : List γ} (h0 : I l s)
    (hs : ∀ x xs s, I (x :: xs) s → wp (f x) (fun _ s' => I xs s') E s) : wp (l.forM f) (fun _ s' => I [] s') E s := by
  induction l generalizing s with
  | nil => exact h0
  | cons x xs ih => exact (hs x xs s h0).bind fun _ s' h => ih h

/-! ## Messages -/

/-- From any state, the program returns or stops with a message in `E`. The instances follow the program's text. -/
class Stops (m : Prog σ α) (E : String → Prop) : Prop where
  out : ∀ s, wp m (fun _ _ => True) E s

instance : Stops (pure a : Prog σ α) E := ⟨fun _ => trivial⟩

instance : Stops (get : Prog σ σ) E := ⟨fun _ => trivial⟩

instance {f : σ → σ} : Stops (modify f : Prog σ PUnit) E := ⟨fun _ => trivial⟩

theorem Stops.stop (h : E msg) : Stops (stop msg : Prog σ α) E := ⟨fun _ => h⟩

theorem Stops.bind [hm : Stops m E] (hf : ∀ a, Stops (f a) E) : Stops (m >>= f) E :=
  ⟨fun s => (hm.out s).bind fun a s' _ => (hf a).out s'⟩

instance [Stops m E] [hf : ∀ a, Stops (f a) E] : Stops (m >>= f) E := .bind hf

theorem Stops.ite {c : Prop} [Decidable c] {m' : Prog σ α} [h : Stops m E] (h' : Stops m' E) :
    Stops (if c then m else m') E := by
  split
  · exact h
  · exact h'

instance {c : Prop} [Decidable c] {m' : Prog σ α} [Stops m E] [h' : Stops m' E] : Stops (if c then m else m') E :=
  .ite h'

instance {f : γ → Prog σ PUnit} {l : List γ} [hf : ∀ x, Stops (f x) E] : Stops (l.forM f) E :=
  ⟨fun _ => wp_forM (fun _ _ => True) trivial fun x _ s _ => (hf x).out s⟩

end Xv6Boot.Program
