import Xv6Boot.Foundations.Transition
import Xv6Boot.Kernel.Log

/-! # What `log.lock` protects

`begin_op`, `log_write` and `end_op` on the fields of `struct log`, for any number of processes. `ι` is what a
process carries through its operation, `κ` the places in `commit`. `sleep` gives the lock up and leaves the
process to `wakeup`.
-/

namespace Xv6Boot.Kernel.Log
open Function Transition

/-- Where a process is with respect to the log. -/
inductive Loc (ι κ : Type) where
  | idle
  | entering
  | asleep
  | inOp (op : ι)
  | committing (pc : κ)
  deriving DecidableEq

structure Gate (P ι κ : Type) where
  outstanding : ℤ
  committing : Bool
  lh : List BlockNo
  loc : P → Loc ι κ

def absorb (lh : List BlockNo) (b : BlockNo) : List BlockNo := if b ∈ lh then lh else lh ++ [b]

variable {P ι κ : Type}

def wakeup (loc : P → Loc ι κ) : P → Loc ι κ := fun q =>
  match loc q with
  | .asleep => .entering
  | l => l

namespace Gate

/-- The first branches of `log_write`, and the header after it. -/
def logWrite (a : Area) (g : Gate P ι κ) (b : BlockNo) : Outcome (Gate P ι κ) :=
  if g.lh.length ≥ LOGSIZE ∨ (g.lh.length : ℤ) ≥ a.size - 1 then .panic "too big a transaction"
  else if g.outstanding < 1 then .panic "log_write outside of trans"
  else .next { g with lh := absorb g.lh b }

variable [DecidableEq P] (g : Gate P ι κ) (p : P)

def goto (l : Loc ι κ) : Gate P ι κ := { g with loc := update g.loc p l }

/-- The body of the loop of `begin_op`: nothing if the process has to sleep. -/
def enter (op : ι) : Option (Gate P ι κ) :=
  if g.committing then none
  else if g.lh.length + (g.outstanding + 1) * MAXOPBLOCKS > (LOGSIZE : ℤ) then none
  else some { g.goto p (.inOp op) with outstanding := g.outstanding + 1 }

def endOp (start : κ) : Outcome (Gate P ι κ) :=
  if g.committing then .panic "log.committing"
  else if g.outstanding - 1 = 0 then
    .next { g.goto p (.committing start) with outstanding := g.outstanding - 1, committing := true }
  else .next { g with outstanding := g.outstanding - 1, loc := update (wakeup g.loc) p .idle }

variable {g p} {g' : Gate P ι κ} {a : Area} {b : BlockNo} {op : ι} {start : κ}

theorem enter_eq_none (h : g.enter p op = none) :
    g.committing = true ∨ g.lh.length + (g.outstanding + 1) * MAXOPBLOCKS > (LOGSIZE : ℤ) := by
  unfold enter at h
  split at h
  · exact .inl ‹_›
  · split at h
    · exact .inr ‹_›
    · cases h

theorem enter_eq_some (h : g.enter p op = some g') : g.committing = false ∧
    g.lh.length + (g.outstanding + 1) * MAXOPBLOCKS ≤ (LOGSIZE : ℤ) ∧
    g' = { g with outstanding := g.outstanding + 1, loc := update g.loc p (.inOp op) } := by
  unfold enter at h
  split at h
  · cases h
  · rename_i hc
    split at h
    · cases h
    · cases h
      exact ⟨by simpa using hc, by omega, rfl⟩

omit [DecidableEq P] in
theorem logWrite_eq_next (h : g.logWrite a b = .next g') :
    g.lh.length < LOGSIZE ∧ (g.lh.length : ℤ) < a.size - 1 ∧ g' = { g with lh := absorb g.lh b } := by
  unfold logWrite at h
  split at h
  · cases h
  · split at h
    · cases h
    · cases h
      exact ⟨by omega, by omega, rfl⟩

/-- The last operation to end goes on to commit. -/
theorem endOp_eq_next (h : g.endOp p start = .next g') : g.committing = false ∧
    (g.outstanding = 1 ∧ g' = ⟨0, true, g.lh, update g.loc p (.committing start)⟩ ∨
      g.outstanding ≠ 1 ∧ g' = ⟨g.outstanding - 1, false, g.lh, update (wakeup g.loc) p .idle⟩) := by
  unfold endOp at h
  split at h
  · cases h
  · rename_i hc
    have hc : g.committing = false := by simpa using hc
    refine ⟨hc, ?_⟩
    split at h
    · rename_i ho
      cases h
      exact .inl ⟨by omega, by rw [ho]; rfl⟩
    · cases h
      exact .inr ⟨by omega, by rw [hc]⟩

end Gate

section Wakeup
variable {loc : P → Loc ι κ} {q : P} {op : ι} {pc : κ}

theorem wakeup_eq_inOp : wakeup loc q = .inOp op ↔ loc q = .inOp op := by
  unfold wakeup
  split <;> simp_all

theorem wakeup_eq_committing : wakeup loc q = .committing pc ↔ loc q = .committing pc := by
  unfold wakeup
  split <;> simp_all

theorem wakeup_ne_asleep (loc : P → Loc ι κ) (q : P) : wakeup loc q ≠ .asleep := by
  unfold wakeup
  split <;> simp_all

end Wakeup

theorem mem_absorb {lh : List BlockNo} {b c : BlockNo} : c ∈ absorb lh b ↔ c = b ∨ c ∈ lh := by
  unfold absorb
  split
  · constructor
    · exact .inr
    · rintro (rfl | h)
      · assumption
      · exact h
  · rw [List.mem_append, List.mem_singleton, or_comm]

theorem nodup_absorb {lh : List BlockNo} (h : lh.Nodup) (b : BlockNo) : (absorb lh b).Nodup := by
  unfold absorb
  split
  · exact h
  · rename_i hb
    rw [List.nodup_append]
    exact ⟨h, List.nodup_singleton b, fun x hx y hy => by rintro rfl; exact hb (List.mem_singleton.mp hy ▸ hx)⟩

theorem length_absorb (lh : List BlockNo) (b : BlockNo) :
    (absorb lh b).length = if b ∈ lh then lh.length else lh.length + 1 := by
  unfold absorb
  split <;> simp

theorem length_absorb_le (lh : List BlockNo) (b : BlockNo) : (absorb lh b).length ≤ lh.length + 1 := by
  rw [length_absorb]
  split <;> omega

/-! ## The books -/

def Loc.outside : Loc ι κ → Bool
  | .idle | .entering | .asleep => true
  | _ => false

/-- `cleared` holds where `log.lh.n = 0` has been executed. -/
structure Books (cleared : κ → Bool) (outstanding : ℤ) (committing : Bool) (lh : List BlockNo)
    (loc : P → Loc ι κ) : Prop where
  outs : ∃ ops : Finset P, (∀ p, p ∈ ops ↔ ∃ op, loc p = .inOp op) ∧ outstanding = ops.card
  quiet : committing = true → ∀ p op, loc p ≠ .inOp op
  one : ∀ p q pc pc', loc p = .committing pc → loc q = .committing pc' → p = q
  busy : committing = true ↔ ∃ p pc, loc p = .committing pc
  cleared : ∀ p pc, loc p = .committing pc → cleared pc = true → lh = []
  empty : committing = false → (∀ p op, loc p ≠ .inOp op) → lh = []

namespace Books
variable {cleared : κ → Bool} {outstanding : ℤ} {committing : Bool} {lh : List BlockNo} {loc : P → Loc ι κ} {p : P}
  {op : ι}

theorem init : Books cleared 0 false [] fun _ : P => (.idle : Loc ι κ) := by
  refine ⟨⟨∅, by simp⟩, ?_, ?_, ?_, ?_, ?_⟩ <;> simp

variable (h : Books cleared outstanding committing lh loc)
include h

theorem not_busy (hc : committing = false) (p : P) (pc : κ) : loc p ≠ .committing pc := by
  intro hp
  have := h.busy.mpr ⟨p, pc, hp⟩
  rw [hc] at this
  cases this

theorem one_le (hp : loc p = .inOp op) : 1 ≤ outstanding := by
  obtain ⟨ops, hops, rfl⟩ := h.outs
  exact_mod_cast Finset.card_pos.mpr ⟨p, (hops p).mpr ⟨op, hp⟩⟩

theorem not_committing (hp : loc p = .inOp op) : committing = false := by
  by_contra hc
  exact h.quiet (by simpa using hc) p op hp

theorem wrote (hp : loc p = .inOp op) (lh' : List BlockNo) : Books cleared outstanding committing lh' loc := by
  refine ⟨h.outs, h.quiet, h.one, h.busy, fun q pc hq => ?_, fun _ hno => absurd hp (hno p op)⟩
  exact absurd hp (h.quiet (h.busy.mpr ⟨q, pc, hq⟩) p op)

variable [DecidableEq P]

theorem moved {l : Loc ι κ} (hp : (loc p).outside = true) (hl : l.outside = true) :
    Books cleared outstanding committing lh (update loc p l) := by
  have hop : ∀ q op, update loc p l q = .inOp op ↔ loc q = .inOp op := by
    grind [update_apply, Loc.outside]
  have hcm : ∀ q pc, update loc p l q = .committing pc ↔ loc q = .committing pc := by
    grind [update_apply, Loc.outside]
  refine ⟨?_, ?_, ?_, ?_, ?_, ?_⟩ <;> simp only [ne_eq, hop, hcm]
  exacts [h.outs, h.quiet, h.one, h.busy, h.cleared, h.empty]

theorem entered (hp : loc p = .entering) (hc : committing = false) (op : ι) :
    Books cleared (outstanding + 1) committing lh (update loc p (.inOp op)) := by
  have hnot := h.not_busy hc
  obtain ⟨⟨ops, hops, rfl⟩, quiet, one, busy, cleared, empty⟩ := h
  refine ⟨⟨insert p ops, fun q => ?_, ?_⟩, ?_, ?_, ?_, ?_, fun _ hno => absurd (update_self p _ loc) (hno p op)⟩
  · by_cases hq : q = p
    · simp [hq]
    · simp [hq, hops]
  · rw [Finset.card_insert_of_notMem (by simp [hops, hp])]
    push_cast
    rfl
  · exact fun h0 => by simp [hc] at h0
  · grind [update_apply]
  · grind [update_apply]
  · grind [update_apply]

theorem last (hp : loc p = .inOp op) (hc : committing = false) (ho : outstanding = 1) {start : κ}
    (hs : cleared start = false) : Books cleared 0 true lh (update loc p (.committing start)) := by
  have hnot := h.not_busy hc
  obtain ⟨ops, hops, hcard⟩ := h.outs
  obtain ⟨x, rfl⟩ := Finset.card_eq_one.mp (by exact_mod_cast hcard.symm.trans ho)
  have hx : ∀ q op, loc q = .inOp op → q = x := fun q op hq => Finset.mem_singleton.mp ((hops q).mpr ⟨op, hq⟩)
  have hno : ∀ q op, update loc p (.committing start) q ≠ .inOp op := by grind [update_apply]
  refine ⟨⟨∅, by simp [hno]⟩, fun _ => hno, ?_, ?_, ?_, fun h0 => (by cases h0)⟩
  · grind [update_apply]
  · exact ⟨fun _ => ⟨p, start, update_self _ _ _⟩, fun _ => rfl⟩
  · grind [update_apply]

theorem left (hp : loc p = .inOp op) (hc : committing = false) (ho : outstanding ≠ 1) :
    Books cleared (outstanding - 1) committing lh (update (wakeup loc) p .idle) := by
  have hnot := h.not_busy hc
  obtain ⟨⟨ops, hops, rfl⟩, quiet, one, busy, cleared, empty⟩ := h
  have hmem : p ∈ ops := (hops p).mpr ⟨op, hp⟩
  have hcard := Finset.card_erase_add_one hmem
  obtain ⟨q, hq⟩ : (ops.erase p).Nonempty := by
    rw [← Finset.card_pos]
    omega
  refine ⟨⟨ops.erase p, ?_, by omega⟩, ?_, ?_, ?_, ?_, ?_⟩
  · grind [update_apply, wakeup_eq_inOp]
  · exact fun h0 => by simp [hc] at h0
  · grind [update_apply, wakeup_eq_committing]
  · grind [update_apply, wakeup_eq_committing]
  · grind [update_apply, wakeup_eq_committing]
  · intro _ hno
    obtain ⟨hne, hm⟩ := Finset.mem_erase.mp hq
    obtain ⟨op', hop⟩ := (hops q).mp hm
    exact absurd (by rw [update_of_ne hne, wakeup_eq_inOp.mpr hop]) (hno q op')

theorem jump {pc pc' : κ} {lh' : List BlockNo} (hp : loc p = .committing pc)
    (hlh : cleared pc' = true → lh' = []) : Books cleared outstanding committing lh' (update loc p (.committing pc')) := by
  have hbusy := h.busy.mpr ⟨p, pc, hp⟩
  have hno := h.quiet hbusy
  have hop : ∀ q op, update loc p (.committing pc') q = .inOp op ↔ loc q = .inOp op := by grind [update_apply]
  obtain ⟨outs, quiet, one, busy, cleared, empty⟩ := h
  refine ⟨?_, ?_, ?_, ?_, ?_, fun h0 => by simp [hbusy] at h0⟩
  · simpa only [hop] using outs
  · simpa only [ne_eq, hop] using quiet
  · grind [update_apply]
  · exact ⟨fun _ => ⟨p, pc', update_self _ _ _⟩, fun _ => hbusy⟩
  · grind [update_apply]

theorem finish {pc : κ} (hp : loc p = .committing pc) (hpc : cleared pc = true) :
    Books cleared outstanding false lh (update (wakeup loc) p .idle) := by
  have hlh := h.cleared p pc hp hpc
  have hop : ∀ q op, update (wakeup loc) p .idle q = .inOp op ↔ loc q = .inOp op := by
    grind [update_apply, wakeup_eq_inOp]
  obtain ⟨outs, quiet, one, busy, cleared, empty⟩ := h
  refine ⟨?_, fun h0 => (by cases h0), ?_, ?_, fun _ _ _ _ => hlh, fun _ _ => hlh⟩
  · simpa only [hop] using outs
  · grind [update_apply, wakeup_eq_committing]
  · grind [update_apply, wakeup_eq_committing]

end Books

end Xv6Boot.Kernel.Log
