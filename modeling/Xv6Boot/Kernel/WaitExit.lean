import Xv6Boot.Kernel.Proc

/-! # `fork`, `exit`, `wait`: parents and zombies

`exit` wakes the parent before the process is a zombie. What makes this safe is that `wait` needs
`wait_lock` to go back to sleep: the facts a holder of the lock has established stay true, since the
sections outside it neither add children, nor make zombies, nor put a process to sleep in `wait`.
-/

namespace Xv6Boot.Kernel.ProcTable
open Transition

def Proc.Live (p : Proc) : Prop := p.state = .sleeping ∨ p.state = .runnable ∨ p.state = .running

def SleepsInWait (s : State) (r : Slot) : Prop :=
  (s.proc r).state = .sleeping ∧ (s.proc r).chan = some (.proc r)

/-- Nobody sleeps in `wait` beside a zombie child. -/
def NoSleeper (s : State) : Prop :=
  ∀ r c, SleepsInWait s r → (s.proc c).parent = some r → (s.proc c).state ≠ .zombie

/-! ## The invariants -/

/-- What the holder of `wait_lock` has established so far. -/
def CritFacts (s : State) (p : Slot) : Crit → Prop
  | .reparent st i => s.pc p = .exitEnter st ∧ (∀ k, k.val < i → (s.proc k).parent ≠ some p) ∧ NoSleeper s
  | .wakeInit st i j => s.pc p = .exitEnter st ∧ (∀ k, k.val < i + 1 → (s.proc k).parent ≠ some p) ∧
      ∀ r c, SleepsInWait s r → (s.proc c).parent = some r → (s.proc c).state = .zombie →
        r = initproc ∧ j ≤ r.val
  | .wakeParent st j => s.pc p = .exitEnter st ∧ (∀ k, (s.proc k).parent ≠ some p) ∧ NoSleeper s ∧
      ∀ r, (s.proc p).parent = some r → r.val < j → ¬ SleepsInWait s r
  | .zombify st => s.pc p = .exitEnter st ∧ (∀ k, (s.proc k).parent ≠ some p) ∧ NoSleeper s ∧
      ∀ r, (s.proc p).parent = some r → ¬ SleepsInWait s r
  | .waitScan i _ => s.pc p = .waitEnter ∧ NoSleeper s ∧
      ∀ c, c.val < i → (s.proc c).parent = some p → (s.proc c).state ≠ .zombie
  | .waitCheck _ | .waitSleep => s.pc p = .waitEnter ∧ NoSleeper s ∧
      ∀ c, (s.proc c).parent = some p → (s.proc c).state ≠ .zombie

/-- The process is in `fork`, between `allocproc` and the end, with that child. -/
def Forks (s : State) (p np : Slot) : Prop := s.pc p = .forkLink np ∨ s.pc p = .forkStart np

/-- Parents are alive, and a child that `fork` has not finished is its own. -/
structure Family (s : State) : Prop where
  init : (s.proc initproc).Live
  parentLive : ∀ q r, (s.proc q).parent = some r → (s.proc r).Live
  hasParent : ∀ q, q ≠ initproc → (s.proc q).Live ∨ (s.proc q).state = .zombie → (s.proc q).parent ≠ none
  exiting : ∀ p st, s.pc p = .exitEnter st → p ≠ initproc
  forks : ∀ p np, Forks s p np → (s.proc np).state = .used
  linked : ∀ p np, s.pc p = .forkStart np → (s.proc np).parent = some p
  one : ∀ p q np, Forks s p np → Forks s q np → p = q

/-- What `wait_lock` protects. -/
structure Guarded (s : State) : Prop where
  free : s.holder = none → NoSleeper s
  held : ∀ p c, s.holder = some (p, c) → (s.proc p).state = .running ∧ CritFacts s p c

theorem boot_parent (q : Slot) : (boot.proc q).parent = none := by
  by_cases hq : q = initproc
  · rw [hq, boot_proc_init]
  · rw [boot_proc_ne hq]

theorem boot_family : Family boot := by
  have hpc : ∀ q, boot.pc q = .user := fun _ => rfl
  refine ⟨?_, ?_, ?_, ?_, ?_, ?_, ?_⟩
  · rw [boot_proc_init]
    exact .inr (.inl rfl)
  · intro q r h
    simp [boot_parent] at h
  · intro q hq h
    simp [boot_proc_ne hq, Proc.Live] at h
  · intro p st h
    simp [hpc] at h
  · intro p np h
    simp [Forks, hpc] at h
  · intro p np h
    simp [hpc] at h
  · intro p q np h
    simp [Forks, hpc] at h

theorem boot_guarded : Guarded boot := by
  refine ⟨fun _ r c _ h => ?_, fun p c h => ?_⟩
  · simp [boot_parent] at h
  · cases h

variable {f : Proc → Proc} {np : Slot} {c : Crit}

/-! ## Changes of the table -/

section Table
variable {s : State} {p q : Slot}

theorem running_live {x : Proc} (h : x.state = .running) : x.Live := .inr (.inr h)

theorem forks_goto {c : Pc} (hlink : ∀ np, c ≠ .forkLink np) (hstart : ∀ np, c ≠ .forkStart np) {r m : Slot}
    (h : Forks (s.goto p c) r m) : Forks s r m := by
  simp only [Forks, State.goto_pc] at h ⊢
  split at h
  · rcases h with h | h
    · exact absurd h (hlink m)
    · exact absurd h (hstart m)
  · exact h

theorem Family.goto (h : Family s) {c : Pc} (hexit : ∀ st, c = .exitEnter st → p ≠ initproc)
    (hlink : ∀ np, c ≠ .forkLink np) (hstart : ∀ np, c ≠ .forkStart np) : Family (s.goto p c) := by
  refine ⟨h.init, h.parentLive, h.hasParent, ?_, ?_, ?_, ?_⟩
  · intro r st hr
    rw [State.goto_pc] at hr
    split at hr
    · rename_i he
      exact he ▸ hexit st hr
    · exact h.exiting r st hr
  · exact fun r m hf => h.forks r m (forks_goto hlink hstart hf)
  · intro r m hr
    rw [State.goto_pc] at hr
    split at hr
    · exact absurd hr (hstart m)
    · exact h.linked r m hr
  · exact fun r r' m hf hf' => h.one r r' m (forks_goto hlink hstart hf) (forks_goto hlink hstart hf')

theorem Family.modProc (h : Family s) (hinit : q = initproc → (f (s.proc q)).Live)
    (hpar : ∀ r, (f (s.proc q)).parent = some r → ((s.modProc q f).proc r).Live)
    (hdown : (f (s.proc q)).Live ∨ ∀ c, ((s.modProc q f).proc c).parent ≠ some q)
    (hup : q ≠ initproc → (f (s.proc q)).Live ∨ (f (s.proc q)).state = .zombie → (f (s.proc q)).parent ≠ none)
    (hforks : ∀ r, Forks s r q → (f (s.proc q)).state = .used)
    (hlinked : ∀ r, s.pc r = .forkStart q → (f (s.proc q)).parent = some r) : Family (s.modProc q f) := by
  have hself := s.modProc_self q f
  have hold : ∀ r, r ≠ q → (s.modProc q f).proc r = s.proc r := fun r hr => by rw [s.modProc_proc, if_neg hr]
  refine ⟨?_, ?_, ?_, h.exiting, ?_, ?_, h.one⟩
  · by_cases he : q = initproc
    · rw [← he, hself]
      exact hinit he
    · rw [hold _ (Ne.symm he)]
      exact h.init
  · intro r t hr
    by_cases he : r = q
    · subst he
      rw [hself] at hr
      exact hpar t hr
    · have ht := h.parentLive r t (hold r he ▸ hr)
      by_cases hq : t = q
      · subst hq
        rw [hself]
        exact hdown.resolve_right fun hd => hd r hr
      · rw [hold t hq]
        exact ht
  · intro r hr hl
    by_cases he : r = q
    · subst he
      rw [hself] at hl ⊢
      exact hup hr hl
    · rw [hold r he] at hl ⊢
      exact h.hasParent r hr hl
  · intro r m hf
    by_cases he : m = q
    · subst he
      rw [hself]
      exact hforks r hf
    · rw [hold m he]
      exact h.forks r m hf
  · intro r m hr
    by_cases he : m = q
    · subst he
      rw [hself]
      exact hlinked r hr
    · rw [hold m he]
      exact h.linked r m hr

/-- A change of a slot that keeps the process alive, its parent, and out of the sleep of `wait`. -/
structure Gentle (q : Slot) (x y : Proc) : Prop where
  parent : y.parent = x.parent
  live : x.Live ↔ y.Live
  zombie : x.state = .zombie ↔ y.state = .zombie
  used : x.state = .used → y.state = .used
  asleep : y.state = .sleeping → y.chan = some (.proc q) → x.state = .sleeping ∧ x.chan = some (.proc q)

theorem Gentle.refl (q : Slot) (x : Proc) : Gentle q x x := ⟨rfl, Iff.rfl, Iff.rfl, id, fun h1 h2 => ⟨h1, h2⟩⟩

theorem Gentle.modProc (hf : Gentle q (s.proc q) (f (s.proc q))) (r : Slot) :
    Gentle r (s.proc r) ((s.modProc q f).proc r) := by
  rw [s.modProc_proc]
  split
  · rename_i he
    exact he ▸ hf
  · exact .refl r _

theorem Family.gentle (h : Family s) (hf : Gentle q (s.proc q) (f (s.proc q))) : Family (s.modProc q f) := by
  have hg := hf.modProc
  refine ⟨(hg _).live.mp h.init, fun r t ht => ?_, fun r hr hl => ?_, h.exiting, fun r m hm => ?_, fun r m hm => ?_,
    h.one⟩
  · exact (hg t).live.mp (h.parentLive r t ((hg r).parent ▸ ht))
  · rw [(hg r).parent]
    exact h.hasParent r hr (hl.imp (hg r).live.mpr (hg r).zombie.mpr)
  · exact (hg m).used (h.forks r m hm)
  · rw [(hg m).parent]
    exact h.linked r m hm

theorem gentle_wakeup (q : Slot) (chan : Option Chan) (x : Proc) : Gentle q x (wakeupProc chan x) := by
  rw [wakeupProc_eq]
  split
  · rename_i hx
    constructor <;> simp [Proc.Live, hx.1]
  · exact .refl q x

theorem gentle_kill (q : Slot) (x : Proc) : Gentle q x (killProc x) := by
  unfold killProc Sched.kill
  by_cases hx : x.state = .sleeping
  · constructor <;> simp [Proc.Live, hx]
  · rw [if_neg hx]
    exact ⟨rfl, Iff.rfl, Iff.rfl, id, fun h1 h2 => ⟨h1, h2⟩⟩

section
variable (h : Family s)
include h

theorem Family.wakeupSlot (chan : Option Chan) : Family (s.wakeupSlot p q chan) := by
  unfold State.wakeupSlot
  split
  · exact h.gentle (gentle_wakeup q chan _)
  · exact h

theorem Family.fill (hun : (s.proc q).state = .unused)
    (hf : (f (s.proc q)).state = .used ∨ (f (s.proc q)).state = .unused)
    (hpar : ∀ r, (f (s.proc q)).parent = some r → (s.proc q).parent = some r) :
    Family ((s.modProc q f).goto q .user) := by
  have hdead : ¬ (s.proc q).Live := by simp [Proc.Live, hun]
  have hnot : ∀ r, ¬ Forks s r q := by
    intro r hr
    have := h.forks r q hr
    rw [hun] at this
    cases this
  have hlive : ∀ c r, ((s.modProc q f).proc c).parent = some r → (s.proc r).Live := by
    intro c r hc
    rw [s.modProc_proc] at hc
    split at hc
    · exact h.parentLive q r (hpar r hc)
    · exact h.parentLive c r hc
  have hne : ∀ r, (s.proc r).Live → r ≠ q := by
    rintro r hr rfl
    exact hdead hr
  refine Family.goto (h.modProc ?_ ?_ ?_ ?_ ?_ ?_) (by simp) (by simp) (by simp)
  · rintro rfl
    exact absurd h.init hdead
  · intro r hr
    have hr' := h.parentLive q r (hpar r hr)
    rw [s.modProc_proc, if_neg (hne r hr')]
    exact hr'
  · exact .inr fun c hc => hdead (hlive c q hc)
  · intro _ hl
    rcases hf with hf | hf <;> simp [Proc.Live, hf] at hl
  · exact fun r hr => absurd hr (hnot r)
  · exact fun r hr => absurd (.inr hr) (hnot r)

theorem Family.forkLink (hused : (s.proc np).state = .used) (hnone : ∀ q, ¬ Forks s q np) :
    Family (s.goto p (.forkLink np)) := by
  have hforks : ∀ q m, Forks (s.goto p (.forkLink np)) q m → q = p ∧ m = np ∨ Forks s q m := by
    intro q m hf
    simp only [Forks, State.goto_pc] at hf ⊢
    split at hf
    · rename_i he
      rcases hf with hf | hf
      · exact .inl ⟨he, (Pc.forkLink.inj hf).symm⟩
      · cases hf
    · exact .inr hf
  refine ⟨h.init, h.parentLive, h.hasParent, ?_, ?_, ?_, ?_⟩
  · intro q st hq
    rw [State.goto_pc] at hq
    split at hq
    · cases hq
    · exact h.exiting q st hq
  · intro q m hf
    rcases hforks q m hf with ⟨-, rfl⟩ | hf
    · exact hused
    · exact h.forks q m hf
  · intro q m hq
    rw [State.goto_pc] at hq
    split at hq
    · cases hq
    · exact h.linked q m hq
  · intro q r m hq hr
    rcases hforks q m hq with ⟨rfl, rfl⟩ | hq'
    · rcases hforks r m hr with ⟨rfl, -⟩ | hr'
      · rfl
      · exact absurd hr' (hnone r)
    · rcases hforks r m hr with ⟨rfl, rfl⟩ | hr'
      · exact absurd hq' (hnone q)
      · exact h.one q r m hq' hr'

theorem Family.linkedTo (hpc : s.pc p = .forkLink np) (hpar : (s.proc np).parent = some p) :
    Family (s.goto p (.forkStart np)) := by
  have hforks : ∀ q m, Forks (s.goto p (.forkStart np)) q m → Forks s q m := by
    intro q m hf
    simp only [Forks, State.goto_pc] at hf ⊢
    split at hf
    · rename_i he
      rcases hf with hf | hf
      · cases hf
      · rw [he, hpc, Pc.forkStart.inj hf]
        exact .inl rfl
    · exact hf
  refine ⟨h.init, h.parentLive, h.hasParent, ?_, fun q m hf => h.forks q m (hforks q m hf), ?_,
    fun q r m hq hr => h.one q r m (hforks q m hq) (hforks r m hr)⟩
  · intro q st hq
    rw [State.goto_pc] at hq
    split at hq
    · cases hq
    · exact h.exiting q st hq
  · intro q m hq
    rw [State.goto_pc] at hq
    split at hq
    · rename_i he
      cases hq
      rw [he]
      exact hpar
    · exact h.linked q m hq

/-- `np->parent = p` -/
theorem Family.forkParent (hrun : (s.proc p).state = .running) (hpc : s.pc p = .forkLink np) :
    Family ((s.modProc np fun q => { q with parent := some p }).goto p (.forkStart np)) := by
  have hused := h.forks p np (.inl hpc)
  have hpnp : p ≠ np := by
    rintro rfl
    rw [hrun] at hused
    cases hused
  have hlive : ∀ r, (s.proc r).Live → ((s.modProc np fun q => { q with parent := some p }).proc r).Live := by
    intro r hr
    rw [State.modProc_proc]
    split
    · rename_i he
      exact he ▸ hr
    · exact hr
  refine Family.linkedTo (h.modProc ?_ ?_ ?_ ?_ ?_ ?_) hpc (by rw [State.modProc_self])
  · rintro rfl
    exact absurd h.init (by simp [Proc.Live, hused])
  · rintro r hr
    cases hr
    exact hlive p (running_live hrun)
  · refine .inr fun c hc => ?_
    have hdead : ¬ (s.proc np).Live := by simp [Proc.Live, hused]
    rw [State.modProc_proc] at hc
    split at hc
    · exact hpnp (Option.some.inj hc)
    · exact hdead (h.parentLive c np hc)
  · exact fun _ _ => Option.some_ne_none p
  · exact fun r hr => hused
  · intro r hr
    rw [h.one r p np (.inr hr) (.inl hpc)]

/-- `np->state = RUNNABLE` -/
theorem Family.forkStart (hpc : s.pc p = .forkStart np) :
    Family ((s.goto p .user).modProc np fun q => { q with state := .runnable }) := by
  have hpar := h.linked p np hpc
  have hnone : ∀ r, ¬ Forks (s.goto p .user) r np := by
    intro r hr
    have hr' := forks_goto (by simp) (by simp) hr
    have hrp := h.one r p np hr' (.inr hpc)
    rw [hrp] at hr
    simp [Forks, State.goto] at hr
  have hlive : ∀ r, (s.proc r).Live → (((s.goto p .user).modProc np fun q => { q with state := .runnable }).proc r).Live := by
    intro r hr
    rw [State.modProc_proc]
    split
    · exact .inr (.inl rfl)
    · exact hr
  refine Family.modProc (h.goto (by simp) (by simp) (by simp)) ?_ ?_ ?_ ?_ ?_ ?_
  · exact fun _ => .inr (.inl rfl)
  · exact fun r hr => hlive r (h.parentLive np r hr)
  · exact .inl (.inr (.inl rfl))
  · intro _ _
    show (s.proc np).parent ≠ none
    rw [hpar]
    exact Option.some_ne_none p
  · exact fun r hr => absurd hr (hnone r)
  · exact fun r hr => absurd (.inr hr) (hnone r)

/-- `pp->parent = initproc`, for a child of a process that is not in `fork`. -/
theorem Family.reparent (hpar : (s.proc q).parent = some p) (hp : s.pc p ≠ .forkStart q) :
    Family (s.modProc q fun pp => { pp with parent := some initproc }) := by
  have hlive : ∀ r, (s.proc r).Live → ((s.modProc q fun pp => { pp with parent := some initproc }).proc r).Live := by
    intro r hr
    rw [State.modProc_proc]
    split
    · rename_i he
      exact he ▸ hr
    · exact hr
  have hdown : ¬ (s.proc q).Live → ∀ c, ((s.modProc q fun pp => { pp with parent := some initproc }).proc c).parent ≠ some
    q := by
    intro hd c hc
    rw [State.modProc_proc] at hc
    split at hc
    · exact hd (Option.some.inj hc ▸ h.init)
    · exact hd (h.parentLive c q hc)
  refine h.modProc ?_ ?_ ?_ ?_ ?_ ?_
  · rintro rfl
    exact h.init
  · intro r hr
    cases hr
    exact hlive _ h.init
  · exact (em (s.proc q).Live).imp id hdown
  · exact fun _ _ => Option.some_ne_none _
  · exact fun r hr => h.forks r q hr
  · intro r hr
    have := h.linked r q hr
    rw [hpar, Option.some.injEq] at this
    exact absurd (this ▸ hr) hp

theorem Family.zombify (hinit : p ≠ initproc) (hrun : (s.proc p).state = .running)
    (hless : ∀ k, (s.proc k).parent ≠ some p) (st : BitVec 32) :
    Family (s.modProc p fun q => { q with xstate := st, state := .zombie }) := by
  have hpar : ∀ c, ((s.modProc p fun q => { q with xstate := st, state := .zombie }).proc c).parent =
      (s.proc c).parent := by
    intro c
    rw [State.modProc_proc]
    split
    · rename_i he
      rw [he]
    · rfl
  refine h.modProc ?_ ?_ ?_ ?_ ?_ ?_
  · exact fun he => absurd he hinit
  · intro r hr
    have hrp : r ≠ p := by
      rintro rfl
      exact hless r hr
    rw [State.modProc_proc, if_neg hrp]
    exact h.parentLive p r hr
  · exact .inr fun c hc => hless c (hpar c ▸ hc)
  · exact fun hp _ => h.hasParent p hp (.inl (running_live hrun))
  · intro r hr
    have := h.forks r p hr
    rw [hrun] at this
    cases this
  · exact fun r hr => h.linked r p hr

theorem Family.reap (hz : (s.proc q).state = .zombie) : Family (s.modProc q freeproc) := by
  have hdead : ¬ (s.proc q).Live := by simp [Proc.Live, hz]
  have hnot : ∀ r, ¬ Forks s r q := by
    intro r hr
    have := h.forks r q hr
    rw [hz] at this
    cases this
  refine h.modProc ?_ ?_ ?_ ?_ ?_ ?_
  · rintro rfl
    exact absurd h.init hdead
  · intro r hr
    cases hr
  · refine .inr fun c hc => ?_
    rw [State.modProc_proc] at hc
    split at hc
    · cases hc
    · exact hdead (h.parentLive c q hc)
  · intro _ hl
    simp [freeproc, Proc.Live] at hl
  · exact fun r hr => absurd hr (hnot r)
  · exact fun r hr => absurd (.inr hr) (hnot r)

theorem Family.waitSleep (hrun : (s.proc p).state = .running) :
    Family (s.modProc p fun q => { q with chan := some (.proc p), state := .sleeping }) := by
  have hlive : ∀ r, (s.proc r).Live →
      ((s.modProc p fun q => { q with chan := some (.proc p), state := .sleeping }).proc r).Live := by
    intro r hr
    rw [State.modProc_proc]
    split
    · exact .inl rfl
    · exact hr
  refine h.modProc ?_ ?_ ?_ ?_ ?_ ?_
  · exact fun _ => .inl rfl
  · exact fun r hr => hlive r (h.parentLive p r hr)
  · exact .inl (.inl rfl)
  · exact fun hp _ => h.hasParent p hp (.inl (running_live hrun))
  · intro r hr
    have := h.forks r p hr
    rw [hrun] at this
    cases this
  · exact fun r hr => h.linked r p hr

end

end Table

/-! ## Sections outside `wait_lock` -/

/-- What such a section leaves alone. -/
structure Calm (s s' : State) : Prop where
  holder : s'.holder = s.holder
  parent : ∀ q r, (s'.proc q).parent = some r → (s.proc q).parent = some r
  zombie : ∀ q, (s'.proc q).state = .zombie → (s.proc q).state = .zombie
  asleep : ∀ q, SleepsInWait s' q → SleepsInWait s q
  held : ∀ p c, s.holder = some (p, c) → (s.proc p).state = .running →
    (s'.proc p).state = .running ∧ s'.pc p = s.pc p

theorem Calm.noSleeper {s s' : State} (h : Calm s s') (hn : NoSleeper s) : NoSleeper s' :=
  fun r c hr hc hz => hn r c (h.asleep r hr) (h.parent c r hc) (h.zombie c hz)

theorem Calm.critFacts {s s' : State} (h : Calm s s') {p : Slot} (hpc : s'.pc p = s.pc p) (hf : CritFacts s p c) :
    CritFacts s' p c := by
  cases c with
  | reparent st i =>
    exact ⟨hpc.trans hf.1, fun k hk hp => hf.2.1 k hk (h.parent k p hp), h.noSleeper hf.2.2⟩
  | wakeInit st i j =>
    exact ⟨hpc.trans hf.1, fun k hk hp => hf.2.1 k hk (h.parent k p hp),
      fun r c hr hc hz => hf.2.2 r c (h.asleep r hr) (h.parent c r hc) (h.zombie c hz)⟩
  | wakeParent st j =>
    exact ⟨hpc.trans hf.1, fun k hp => hf.2.1 k (h.parent k p hp), h.noSleeper hf.2.2.1,
      fun r hr hj ha => hf.2.2.2 r (h.parent p r hr) hj (h.asleep r ha)⟩
  | zombify st =>
    exact ⟨hpc.trans hf.1, fun k hp => hf.2.1 k (h.parent k p hp), h.noSleeper hf.2.2.1,
      fun r hr ha => hf.2.2.2 r (h.parent p r hr) (h.asleep r ha)⟩
  | waitScan i hk =>
    exact ⟨hpc.trans hf.1, h.noSleeper hf.2.1, fun c hc hp hz => hf.2.2 c hc (h.parent c p hp) (h.zombie c hz)⟩
  | waitCheck hk =>
    exact ⟨hpc.trans hf.1, h.noSleeper hf.2.1, fun c hp hz => hf.2.2 c (h.parent c p hp) (h.zombie c hz)⟩
  | waitSleep =>
    exact ⟨hpc.trans hf.1, h.noSleeper hf.2.1, fun c hp hz => hf.2.2 c (h.parent c p hp) (h.zombie c hz)⟩

theorem Guarded.calm {s s' : State} (h : Guarded s) (hc : Calm s s') : Guarded s' := by
  refine ⟨fun h0 => hc.noSleeper (h.free (hc.holder ▸ h0)), fun p c hp => ?_⟩
  rw [hc.holder] at hp
  obtain ⟨hrun, hfacts⟩ := h.held p c hp
  obtain ⟨hrun', hpc'⟩ := hc.held p c hp hrun
  exact ⟨hrun', hc.critFacts hpc' hfacts⟩

section Outside
variable {s : State} {p q : Slot}

theorem calm_goto (hp : ¬ s.Holds p) (c : Pc) : Calm s (s.goto p c) := by
  refine ⟨rfl, fun _ _ => id, fun _ => id, fun _ => id, fun q k hq hrun => ⟨hrun, ?_⟩⟩
  rw [State.goto_pc, if_neg]
  rintro rfl
  exact hp ⟨k, hq⟩

theorem calm_modProc (hpar : ∀ r, (f (s.proc q)).parent = some r → (s.proc q).parent = some r)
    (hz : (f (s.proc q)).state = .zombie → (s.proc q).state = .zombie)
    (hsl : (f (s.proc q)).state = .sleeping → (f (s.proc q)).chan = some (.proc q) → SleepsInWait s q)
    (hheld : s.Holds q → (s.proc q).state = .running → (f (s.proc q)).state = .running) : Calm s (s.modProc q f) := by
  refine ⟨rfl, fun r t ht => ?_, fun r hr => ?_, fun r hr => ?_, fun r c hr hrun => ⟨?_, rfl⟩⟩
  · rw [s.modProc_proc] at ht
    split at ht
    · rename_i he
      exact he ▸ hpar t ht
    · exact ht
  · rw [s.modProc_proc] at hr
    split at hr
    · rename_i he
      exact he ▸ hz hr
    · exact hr
  · simp only [SleepsInWait, s.modProc_proc] at hr
    split at hr
    · rename_i he
      subst he
      exact hsl hr.1 hr.2
    · exact hr
  · rw [s.modProc_proc]
    split
    · rename_i he
      subst he
      exact hheld ⟨c, hr⟩ hrun
    · exact hrun

theorem calm_gentle (hf : Gentle q (s.proc q) (f (s.proc q)))
    (hheld : s.Holds q → (s.proc q).state = .running → (f (s.proc q)).state = .running) : Calm s (s.modProc q f) :=
  calm_modProc (fun _ hr => hf.parent ▸ hr) hf.zombie.mpr hf.asleep hheld

theorem Calm.trans {s' s'' : State} (h : Calm s s') (h' : Calm s' s'') : Calm s s'' := by
  refine ⟨h'.holder.trans h.holder, fun q r hq => h.parent q r (h'.parent q r hq),
    fun q hq => h.zombie q (h'.zombie q hq), fun q hq => h.asleep q (h'.asleep q hq), fun p c hp hrun => ?_⟩
  obtain ⟨h1, h2⟩ := h.held p c hp hrun
  obtain ⟨h3, h4⟩ := h'.held p c (h.holder ▸ hp) h1
  exact ⟨h3, h4.trans h2⟩

theorem calm_wakeupSlot (chan : Option Chan) : Calm s (s.wakeupSlot p q chan) := by
  unfold State.wakeupSlot
  split
  · refine calm_gentle (gentle_wakeup q chan _) fun _ hrun => ?_
    simp [wakeupProc_eq, hrun]
  · exact ⟨rfl, fun _ _ => id, fun _ => id, fun _ => id, fun _ _ _ hrun => ⟨hrun, rfl⟩⟩

end Outside

/-! ## The steps -/

structure Inv (s : State) : Prop extends Family s, Guarded s

theorem boot_inv : Inv boot := ⟨boot_family, boot_guarded⟩

variable {s s' : State} {p : Slot}

theorem Inv.goto (h : Inv s) {c : Pc} (hp : ¬ s.Holds p) (hexit : ∀ st, c = .exitEnter st → p ≠ initproc)
    (hlink : ∀ np, c ≠ .forkLink np) (hstart : ∀ np, c ≠ .forkStart np) : Inv (s.goto p c) :=
  ⟨h.toFamily.goto hexit hlink hstart, h.toGuarded.calm (calm_goto hp c)⟩

theorem Inv.call (h : Inv s) {c : Call} (hrun : (s.proc p).state = .running) (hpc : s.pc p = .user)
    (hst : callStep p s c = .next s') : Inv s' := by
  have hp : ¬ s.Holds p := by
    rintro ⟨k, hk⟩
    have := (h.held p k hk).2
    cases k <;> simp [CritFacts, hpc] at this
  cases c with
  | fork =>
    cases hst
    exact h.goto hp (by simp) (by simp) (by simp)
  | exit st =>
    simp only [callStep] at hst
    split at hst
    · cases hst
    · rename_i hne
      cases hst
      exact h.goto hp (fun _ _ => hne) (by simp) (by simp)
  | wait =>
    cases hst
    exact h.goto hp (by simp) (by simp) (by simp)
  | sleep chan =>
    cases hst
    have hg : Gentle p (s.proc p) { s.proc p with chan := some (.addr chan), state := .sleeping } := by
      constructor <;> simp [Proc.Live, hrun]
    have hm : Inv (s.modProc p fun q => { q with chan := some (.addr chan), state := .sleeping }) :=
      ⟨h.toFamily.gentle hg, h.toGuarded.calm (calm_gentle hg fun hh => absurd hh hp)⟩
    exact hm.goto hp (by simp) (by simp) (by simp)
  | wakeup chan =>
    cases hst
    exact h.goto hp (by simp) (by simp) (by simp)
  | kill pid =>
    cases hst
    exact h.goto hp (by simp) (by simp) (by simp)

theorem Family.enter (h : Family s) (hrun : (s.proc p).state = .running) (hf : CritFacts s p c) :
    Inv (s.enter p c) := by
  refine ⟨⟨h.init, h.parentLive, h.hasParent, h.exiting, h.forks, h.linked, h.one⟩, ⟨(fun h0 => by cases h0), ?_⟩⟩
  intro q k hk
  cases hk
  refine ⟨hrun, ?_⟩
  cases c <;> exact hf

theorem Family.release (h : Family s) (hno : NoSleeper s) : Inv s.release :=
  ⟨⟨h.init, h.parentLive, h.hasParent, h.exiting, h.forks, h.linked, h.one⟩, fun _ => hno, fun q c hq => by cases hq⟩

theorem Inv.create (h : Inv s) (hun : (s.proc np).state = .unused)
    (hf : (f (s.proc np)).state = .used ∨ (f (s.proc np)).state = .unused)
    (hpar : ∀ r, (f (s.proc np)).parent = some r → (s.proc np).parent = some r) :
    Inv ((s.modProc np f).goto np .user) := by
  have hnp : ¬ s.Holds np := by
    rintro ⟨c, hc⟩
    have := (h.held np c hc).1
    rw [hun] at this
    cases this
  have hcalm : Calm s (s.modProc np f) → Calm s ((s.modProc np f).goto np .user) :=
    fun hm => hm.trans (calm_goto (s := s.modProc np f) hnp _)
  refine ⟨h.toFamily.fill hun hf hpar, h.toGuarded.calm (hcalm (calm_modProc hpar ?_ ?_ ?_))⟩
  · intro hz
    rcases hf with hf | hf <;> rw [hf] at hz <;> cases hz
  · intro hs
    rcases hf with hf | hf <;> rw [hf] at hs <;> cases hs
  · exact fun hh => absurd hh hnp

theorem Inv.forkLink (h : Inv s) (hp : ¬ s.Holds p) (hused : (s.proc np).state = .used) (hnone : ∀ q, ¬ Forks s q np) :
    Inv (s.goto p (.forkLink np)) :=
  ⟨h.toFamily.forkLink hused hnone, h.toGuarded.calm (calm_goto hp _)⟩

theorem Inv.congr (h : Inv s) (hproc : s'.proc = s.proc) (hpc : s'.pc = s.pc) (hh : s'.holder = s.holder) : Inv s' := by
  have hf : Family s' := by
    refine ⟨?_, ?_, ?_, ?_, ?_, ?_, ?_⟩ <;> simp only [Forks, hproc, hpc]
    exacts [h.init, h.parentLive, h.hasParent, h.exiting, h.forks, h.linked, h.one]
  refine ⟨hf, h.toGuarded.calm ⟨hh, ?_, ?_, ?_, ?_⟩⟩ <;> simp only [SleepsInWait, hproc, hpc] <;> grind

theorem Inv.go (h : Inv s) {fail : Bool} (hrun : (s.proc p).state = .running) (hp : ¬ s.Holds p)
    (hst : pcStep p fail s (s.pc p) = .next s') : Inv s' := by
  cases hpc : s.pc p with
  | forkScan i =>
    rw [hpc] at hst
    simp only [pcStep] at hst
    split at hst
    · rename_i hi
      split at hst
      · rename_i hun
        split at hst
        · cases hst
          have hfill : Inv ((s.modProc ⟨i, hi⟩ freeproc).goto ⟨i, hi⟩ .user) :=
            h.create hun (.inr rfl) (by simp [freeproc])
          refine (hfill.goto hp (by simp) (by simp) (by simp)).congr ?_ rfl rfl
          simp [State.modProc, State.create, State.goto, freeproc]
        · cases hst
          have hfill : Inv ((s.modProc ⟨i, hi⟩ fun q => { q with pid := s.nextpid, state := .used }).goto ⟨i, hi⟩ .user) :=
            h.create hun (.inl rfl) (fun r hr => hr)
          have hnone : ∀ q, ¬ Forks ((s.modProc ⟨i, hi⟩ fun q => { q with pid := s.nextpid, state := .used }).goto ⟨i, hi⟩
            .user) q ⟨i, hi⟩ := by
            intro q hq
            have := h.forks q ⟨i, hi⟩ (forks_goto (s := s) (by simp) (by simp) hq)
            rw [hun] at this
            cases this
          have hlink := hfill.forkLink (p := p) hp (by simp) hnone
          exact hlink.congr rfl rfl rfl
      · cases hst
        exact h.goto hp (by simp) (by simp) (by simp)
    · cases hst
      exact h.goto hp (by simp) (by simp) (by simp)
  | forkLink np =>
    rw [hpc] at hst
    simp only [pcStep] at hst
    split at hst
    · rename_i hfree
      cases hst
      refine ⟨h.toFamily.forkParent hrun hpc, ⟨fun _ r c hr hc hz => ?_, fun q c hq => ?_⟩⟩
      · -- The new edge is to a slot that is `USED`, not to a zombie.
        have hused := h.forks p np (.inl hpc)
        simp only [SleepsInWait, State.goto_proc, State.modProc_proc] at hr hc hz
        grind [h.free hfree r c, SleepsInWait]
      · rw [State.goto_holder, State.modProc_holder, hfree] at hq
        cases hq
    · cases hst
  | forkStart np =>
    rw [hpc] at hst
    cases hst
    have hused := h.forks p np (.inr hpc)
    have hcalm : Calm s (s.modProc np fun q => { q with state := .runnable }) := by
      refine calm_modProc (fun r hr => hr) (by simp) (by simp) fun _ hr => ?_
      rw [hused] at hr
      cases hr
    exact ⟨h.toFamily.forkStart hpc,
      h.toGuarded.calm (hcalm.trans (calm_goto (s := s.modProc np fun q => { q with state := .runnable }) hp _))⟩
  | exitEnter st =>
    rw [hpc] at hst
    simp only [pcStep] at hst
    split at hst
    · rename_i hfree
      cases hst
      exact h.toFamily.enter hrun ⟨hpc, fun k hk => absurd hk (Nat.not_lt_zero _), h.free hfree⟩
    · cases hst
  | waitEnter =>
    rw [hpc] at hst
    simp only [pcStep] at hst
    split at hst
    · rename_i hfree
      cases hst
      exact h.toFamily.enter hrun ⟨hpc, h.free hfree, fun c hc => absurd hc (Nat.not_lt_zero _)⟩
    · cases hst
  | wakeScan chan j =>
    rw [hpc] at hst
    simp only [pcStep] at hst
    split at hst
    · rename_i hj
      cases hst
      have hw : Inv (s.wakeupSlot p ⟨j, hj⟩ (some (.addr chan))) :=
        ⟨h.toFamily.wakeupSlot _, h.toGuarded.calm (calm_wakeupSlot _)⟩
      have hp' : ¬ (s.wakeupSlot p ⟨j, hj⟩ (some (.addr chan))).Holds p := by
        unfold State.wakeupSlot
        split <;> exact hp
      exact hw.goto hp' (by simp) (by simp) (by simp)
    · cases hst
      exact h.goto hp (by simp) (by simp) (by simp)
  | killScan pid i =>
    rw [hpc] at hst
    simp only [pcStep] at hst
    split at hst
    · rename_i hi
      split at hst
      · cases hst
        have hkill : Inv (s.modProc ⟨i, hi⟩ killProc) := by
          refine ⟨h.toFamily.gentle (gentle_kill _ _), h.toGuarded.calm (calm_gentle (gentle_kill _ _) fun _ hr => ?_)⟩
          simp [killProc, Sched.kill, hr]
        exact (hkill.goto hp (by simp) (by simp) (by simp)).congr rfl rfl rfl
      · cases hst
        exact h.goto hp (by simp) (by simp) (by simp)
    · cases hst
      exact h.goto hp (by simp) (by simp) (by simp)
  | _ =>
    rw [hpc] at hst
    cases hst

theorem Inv.schedule (h : Inv s) (hst : (s.proc p).state = .runnable) :
    Inv ((s.modProc p fun q => { q with chan := none, state := .running }).goto p (s.pc p).resume) := by
  have hp : ¬ s.Holds p := by
    rintro ⟨k, hk⟩
    have := (h.held p k hk).1
    rw [hst] at this
    cases this
  have hg : Gentle p (s.proc p) { s.proc p with chan := none, state := .running } := by
    constructor <;> simp [Proc.Live, hst]
  have hm : Inv (s.modProc p fun q => { q with chan := none, state := .running }) :=
    ⟨h.toFamily.gentle hg, h.toGuarded.calm (calm_gentle hg fun hh => absurd hh hp)⟩
  cases hpc : s.pc p with
  | inSleep => exact hm.goto hp (by simp [Pc.resume]) (by simp [Pc.resume]) (by simp [Pc.resume])
  | inWait => exact hm.goto hp (by simp [Pc.resume]) (by simp [Pc.resume]) (by simp [Pc.resume])
  | _ =>
    refine hm.congr rfl ?_ rfl
    simp [State.goto, Pc.resume, ← hpc]

theorem Inv.yield (h : Inv s) (hrun : (s.proc p).state = .running) (hp : ¬ s.Holds p) :
    Inv (s.modProc p fun q => { q with state := .runnable }) := by
  have hg : Gentle p (s.proc p) { s.proc p with state := .runnable } := by
    constructor <;> simp [Proc.Live, hrun]
  exact ⟨h.toFamily.gentle hg, h.toGuarded.calm (calm_gentle hg fun hh => absurd hh hp)⟩

theorem not_sleepsInWait_wakeupSlot {q : Slot} (hqp : q ≠ p) : ¬ SleepsInWait (s.wakeupSlot p q (some (.proc q))) q := by
  rintro ⟨h1, h2⟩
  simp only [State.wakeupSlot, if_pos hqp, State.modProc_self, wakeupProc_eq] at h1 h2
  split at h1
  · cases h1
  · rename_i hn
    rw [if_neg hn] at h2
    exact hn ⟨h1, h2⟩

theorem Inv.crit (h : Inv s) (fail : Bool) (hh : s.holder = some (p, c)) : Inv (critStep p fail s c) := by
  obtain ⟨hrun, hf⟩ := h.held p c hh
  cases c with
  | reparent st i =>
    obtain ⟨hpc, hless, hno⟩ := hf
    have hlt : ∀ k : Slot, k.val < i + 1 → k.val = i ∨ (s.proc k).parent ≠ some p := by
      intro k hk
      by_cases he : k.val = i
      · exact .inl he
      · exact .inr (hless k (by omega))
    simp only [critStep]
    split
    · rename_i hi
      split
      · rename_i hpar
        refine (h.toFamily.reparent hpar (by simp [hpc])).enter ?_ ⟨hpc, fun k hk => ?_, fun r c hr hc hz => ?_⟩
        · rw [State.modProc_proc]
          split
          · rename_i he
            exact he ▸ hrun
          · exact hrun
        · rw [State.modProc_proc]
          split
          · exact fun he => h.exiting p st hpc (Option.some.inj he).symm
          · rename_i hne
            exact (hlt k hk).resolve_left fun he => hne (Fin.ext he)
        · -- Only `init` may now sleep beside a zombie, until the `wakeup` below.
          simp only [SleepsInWait, State.modProc_proc] at hr hc hz
          by_cases he : c = ⟨i, hi⟩
          · rw [if_pos he] at hc
            exact ⟨(Option.some.inj hc).symm, Nat.zero_le _⟩
          · rw [if_neg he] at hc hz
            refine absurd hz (hno r c ?_ hc)
            split at hr
            · rename_i he'
              exact he' ▸ hr
            · exact hr
      · rename_i hpar
        refine h.toFamily.enter hrun ⟨hpc, fun k hk => ?_, hno⟩
        rcases hlt k hk with he | hk'
        · rw [show k = ⟨i, hi⟩ from Fin.ext he]
          exact hpar
        · exact hk'
    · rename_i hi
      refine h.toFamily.enter hrun ⟨hpc, fun k => hless k ?_, hno, fun r _ hj => absurd hj (Nat.not_lt_zero _)⟩
      have := k.isLt
      omega
  | wakeInit st i j =>
    obtain ⟨hpc, hless, hsl⟩ := hf
    simp only [critStep]
    split
    · rename_i hj
      have hcalm : Calm s (s.wakeupSlot p ⟨j, hj⟩ (some (.proc initproc))) := calm_wakeupSlot _
      obtain ⟨hrun1, hpc1, hless1, hsl1⟩ := (h.toGuarded.calm hcalm).held p _ (hcalm.holder.trans hh)
      refine (h.toFamily.wakeupSlot _).enter hrun1 ⟨hpc1, hless1, fun r c hr hc hz => ?_⟩
      obtain ⟨rfl, hle⟩ := hsl1 r c hr hc hz
      refine ⟨rfl, lt_of_le_of_ne hle ?_⟩
      rintro rfl
      exact not_sleepsInWait_wakeupSlot (h.exiting p st hpc).symm hr
    · rename_i hj
      refine h.toFamily.enter hrun ⟨hpc, hless, fun r c hr hc hz => ?_⟩
      have := (hsl r c hr hc hz).2
      have := r.isLt
      omega
  | wakeParent st j =>
    obtain ⟨hpc, hless, hno, hpar⟩ := hf
    simp only [critStep]
    split
    · rename_i hj
      have hcalm : Calm s (s.wakeupSlot p ⟨j, hj⟩ ((s.proc p).parent.map .proc)) := calm_wakeupSlot _
      obtain ⟨hrun1, hpc1, hless1, hno1, hpar1⟩ := (h.toGuarded.calm hcalm).held p _ (hcalm.holder.trans hh)
      refine (h.toFamily.wakeupSlot _).enter hrun1 ⟨hpc1, hless1, hno1, fun r hr hlt => ?_⟩
      by_cases he : r = ⟨j, hj⟩
      · subst he
        have hr' := hcalm.parent p _ hr
        have hrp : (⟨j, hj⟩ : Slot) ≠ p := fun hrp => hless p (hrp ▸ hr')
        rw [hr']
        exact not_sleepsInWait_wakeupSlot hrp
      · have hne : r.val ≠ j := fun hr' => he (Fin.ext hr')
        exact hpar1 r hr (by omega)
    · rename_i hj
      refine h.toFamily.enter hrun ⟨hpc, hless, hno, fun r hr => hpar r hr ?_⟩
      have := r.isLt
      omega
  | zombify st =>
    obtain ⟨hpc, hless, hno, hpar⟩ := hf
    have hfam := (h.toFamily.zombify (h.exiting p st hpc) hrun hless st).goto (p := p) (c := .exited) (by simp) (by simp)
      (by simp)
    refine (hfam.release fun r c hr hc hz => ?_).congr rfl rfl rfl
    simp only [SleepsInWait, State.goto_proc, State.modProc_proc] at hr hc hz
    grind [hno r c, hpar r, SleepsInWait]
  | waitScan i havekids =>
    obtain ⟨hpc, hno, hkids⟩ := hf
    simp only [critStep]
    split
    · rename_i hi
      have hnext : ∀ hk, ((s.proc ⟨i, hi⟩).parent = some p → (s.proc ⟨i, hi⟩).state ≠ .zombie) →
          CritFacts s p (.waitScan (i + 1) hk) := by
        refine fun hk hthis => ⟨hpc, hno, fun c hc hpar => ?_⟩
        by_cases he : c = ⟨i, hi⟩
        · subst he
          exact hthis hpar
        · have hne : c.val ≠ i := fun hc' => he (Fin.ext hc')
          exact hkids c (by omega) hpar
      split
      · split
        · rename_i hz
          split
          · exact (h.toFamily.goto (by simp) (by simp) (by simp)).release hno
          · have hfam := (h.toFamily.reap hz).goto (p := p) (c := .user) (by simp) (by simp) (by simp)
            refine (hfam.release fun r c hr hc hz => ?_).congr rfl rfl rfl
            simp only [SleepsInWait, State.goto_proc, State.modProc_proc] at hr hc hz
            grind [hno r c, SleepsInWait, freeproc]
        · rename_i hz
          exact h.toFamily.enter hrun (hnext true fun _ => hz)
      · rename_i hpar
        exact h.toFamily.enter hrun (hnext havekids fun hp => absurd hp hpar)
    · rename_i hi
      refine h.toFamily.enter hrun ⟨hpc, hno, fun c => hkids c ?_⟩
      have := c.isLt
      omega
  | waitCheck havekids =>
    simp only [critStep]
    split
    · exact (h.toFamily.goto (by simp) (by simp) (by simp)).release hf.2.1
    · exact h.toFamily.enter hrun hf
  | waitSleep =>
    obtain ⟨hpc, hno, hkids⟩ := hf
    refine ((h.toFamily.waitSleep hrun).goto (by simp) (by simp) (by simp)).release fun r c hr hc hz => ?_
    simp only [SleepsInWait, State.goto_proc, State.modProc_proc] at hr hc hz
    grind [hno r c, hkids c, SleepsInWait]

theorem Inv.step {e : Action} (h : Inv s) (hst : StepCases s e s') : Inv s' := by
  cases hst with
  | call p c _ hrun hpc hst => exact h.call hrun hpc hst
  | crit p fail c hrun hh => exact h.crit fail hh
  | go p fail _ hrun hh hst => exact h.go hrun hh hst
  | schedule p hst => exact h.schedule hst
  | yield p hrun hh => exact h.yield hrun hh

end Xv6Boot.Kernel.ProcTable
