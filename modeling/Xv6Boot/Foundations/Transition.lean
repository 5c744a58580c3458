import Mathlib

/-! # Machines that take one atomic action after another

An action is disabled in a state, stops the machine with a message, or leads to a next state. Invariants
are proved by one step lemma and hold along every run; they may speak of the actions taken so far.
-/

namespace Xv6Boot.Transition

inductive Outcome (σ : Type*) where
  | disabled
  | panic (msg : String)
  | next (s : σ)
  deriving DecidableEq

def Outcome.map {σ τ : Type*} (f : σ → τ) : Outcome σ → Outcome τ
  | .disabled => .disabled
  | .panic msg => .panic msg
  | .next s => .next (f s)

def Outcome.bind {σ τ : Type*} (o : Outcome σ) (f : σ → Outcome τ) : Outcome τ :=
  match o with
  | .disabled => .disabled
  | .panic msg => .panic msg
  | .next s => f s

theorem Outcome.map_eq_next {σ τ : Type*} {f : σ → τ} {o : Outcome σ} {t : τ} (h : o.map f = .next t) :
    ∃ s, o = .next s ∧ f s = t := by
  cases o with
  | next s =>
    cases h
    exact ⟨s, rfl, rfl⟩
  | _ => cases h

variable {σ ε : Type*} {step : σ → ε → Outcome σ} {ok : σ → ε → Prop} {s₀ : σ} {es : List ε} {s s' : σ}

/-- A run whose actions all satisfy `ok` in the state they are taken in. -/
inductive Run (step : σ → ε → Outcome σ) (ok : σ → ε → Prop) (s₀ : σ) : List ε → σ → Prop
  | nil : Run step ok s₀ [] s₀
  | snoc {es : List ε} {s s' : σ} {e : ε} :
      Run step ok s₀ es s → ok s e → step s e = .next s' → Run step ok s₀ (es ++ [e]) s'

def anyAction (_ : σ) (_ : ε) : Prop := True

@[elab_as_elim]
theorem Run.stateInvariant {Inv : σ → Prop} (h : Run step ok s₀ es s) (h0 : Inv s₀)
    (hs : ∀ s e s', Inv s → ok s e → step s e = .next s' → Inv s') : Inv s := by
  induction h with
  | nil => exact h0
  | snoc _ hok hstep ih => exact hs _ _ _ ih hok hstep

def exec (step : σ → ε → Outcome σ) : List ε → σ → Outcome σ
  | [], s => .next s
  | e :: es, s =>
    match step s e with
    | .disabled => .disabled
    | .panic msg => .panic msg
    | .next s' => exec step es s'

def Admitted (step : σ → ε → Outcome σ) (ok : σ → ε → Prop) : List ε → σ → Prop
  | [], _ => True
  | e :: es, s => ok s e ∧ ∀ s', step s e = .next s' → Admitted step ok es s'

theorem Run.exec_append {es' : List ε} (h : Run step ok s₀ es s) (hok : Admitted step ok es' s)
    (he : exec step es' s = .next s') : Run step ok s₀ (es ++ es') s' := by
  induction es' generalizing es s with
  | nil =>
    cases he
    simpa using h
  | cons e es' ih =>
    cases hst : step s e with
    | disabled => simp [exec, hst] at he
    | panic msg => simp [exec, hst] at he
    | next s1 =>
      rw [exec, hst] at he
      have h1 := h.snoc hok.1 hst
      have h2 := ih h1 (hok.2 s1 hst) he
      simpa using h2

theorem Run.of_exec (hok : Admitted step ok es s₀) (he : exec step es s₀ = .next s) :
    Run step ok s₀ es s := Run.nil.exec_append hok he

theorem admitted_anyAction (es : List ε) (s : σ) : Admitted step anyAction es s := by
  induction es generalizing s with
  | nil => trivial
  | cons e es ih => exact ⟨trivial, fun s' _ => ih s'⟩

theorem Run.unique {ok' : σ → ε → Prop} (h : Run step ok s₀ es s) (h' : Run step ok' s₀ es s') : s = s' := by
  induction h generalizing s' with
  | nil =>
    generalize hes : ([] : List ε) = es at h'
    cases h' with
    | nil => rfl
    | snoc _ _ _ => simp at hes
  | @snoc es s s1 e _ _ hst ih =>
    generalize hes : es ++ [e] = es' at h'
    cases h' with
    | nil => simp at hes
    | snoc hrun _ hst' =>
      obtain ⟨rfl, he⟩ := List.append_inj' hes rfl
      obtain rfl : e = _ := List.singleton_inj.mp he
      rw [ih hrun, hst'] at hst
      exact (Outcome.next.inj hst).symm

theorem Run.snoc_iff {ok' : σ → ε → Prop} {e : ε} (h : Run step ok s₀ es s) (hst : step s e = .next s') :
    Run step ok' s₀ (es ++ [e]) s' ↔ Run step ok' s₀ es s ∧ ok' s e := by
  refine ⟨fun h' => ?_, fun h' => h'.1.snoc h'.2 hst⟩
  generalize hes : es ++ [e] = es' at h'
  cases h' with
  | nil => simp at hes
  | snoc hrun hok _ =>
    obtain ⟨rfl, he⟩ := List.append_inj' hes rfl
    obtain rfl : e = _ := List.singleton_inj.mp he
    obtain rfl := h.unique hrun
    exact ⟨hrun, hok⟩

theorem exists_exec_replicate {e : ε} (h : Relation.ReflTransGen (fun s s' => step s e = .next s') s s') :
    ∃ n, exec step (List.replicate n e) s = .next s' := by
  induction h using Relation.ReflTransGen.head_induction_on with
  | refl => exact ⟨0, rfl⟩
  | head hst _ ih =>
    obtain ⟨n, hn⟩ := ih
    refine ⟨n + 1, ?_⟩
    rw [List.replicate_succ, exec, hst]
    exact hn

def Outcome.check (p : σ → Bool) : Outcome σ → Bool
  | .next s => p s
  | _ => false

theorem Outcome.next_of_check {o : Outcome σ} {p : σ → Bool} (h : o.check p = true) : ∃ s, o = .next s ∧ p s = true := by
  cases o with
  | next s => exact ⟨s, rfl, h⟩
  | _ => cases h

theorem exists_of_check (step : σ → ε → Outcome σ) (es : List ε) (s₀ : σ) (p : σ → Bool)
    (h : (exec step es s₀).check p = true) : ∃ s, exec step es s₀ = .next s ∧ p s = true := Outcome.next_of_check h

/-- The machine that takes no action that is not `ok`. -/
def guarded (step : σ → ε → Outcome σ) (ok : σ → ε → Prop) [∀ s e, Decidable (ok s e)] (s : σ) (e : ε) : Outcome σ :=
  if ok s e then step s e else .disabled

theorem Run.of_guarded [∀ s e, Decidable (ok s e)] (h : Run (guarded step ok) anyAction s₀ es s) :
    Run step ok s₀ es s := by
  induction h with
  | nil => exact .nil
  | snoc _ _ hst ih =>
    unfold guarded at hst
    split at hst
    · rename_i hok
      exact .snoc ih hok hst
    · cases hst

theorem exists_run_of_check [∀ s e, Decidable (ok s e)] (es : List ε) (p : σ → Bool)
    (h : (exec (guarded step ok) es s₀).check p = true) : ∃ s, Run step ok s₀ es s ∧ p s = true := by
  obtain ⟨s, hs, hp⟩ := exists_of_check _ _ _ _ h
  exact ⟨s, (Run.of_exec (admitted_anyAction _ _) hs).of_guarded, hp⟩

end Xv6Boot.Transition
