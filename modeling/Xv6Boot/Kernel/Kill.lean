import Xv6Boot.Kernel.WaitExit

/-! # `kill`: whom it reaches

`kill` compares pids and does not look at the state of the slot. Free slots have pid 0.
-/

namespace Xv6Boot.Kernel.ProcTable
open Transition

/-- No free slot is marked, and a process is marked only if a `kill` has found it since it was created. -/
structure KilledExact (s : State) : Prop where
  free : ∀ q, (s.proc q).state = .unused → (s.proc q).killed = false
  named : ∀ q, (s.proc q).state ≠ .unused → (s.proc q).killed = true → s.named q = true

/-- A `kill` that returns 0 has a process to reach. -/
def KillHonest (s : State) : Action → Prop
  | .go p _ => ∀ pid i, ∀ h : i < NPROC, s.pc p = .killScan pid i → (s.proc ⟨i, h⟩).pid = pid →
      ∃ q, (s.proc q).state ≠ .unused ∧ (s.proc q).pid = pid
  | _ => True

/-- A `kill(0)` does not get to a free slot. -/
def KillCareful (s : State) : Action → Prop
  | .go p _ => ∀ i, ∀ h : i < NPROC, s.pc p = .killScan 0 i → (s.proc ⟨i, h⟩).state ≠ .unused
  | _ => True

def FreePid (s : State) : Prop := ∀ q, (s.proc q).state = .unused → (s.proc q).pid = 0

theorem boot_freePid : FreePid boot := by
  intro q hq
  by_cases he : q = initproc
  · rw [he, boot_proc_init] at hq
    cases hq
  · rw [boot_proc_ne he]

theorem boot_killedExact : KilledExact boot := by
  have hk : ∀ q, (boot.proc q).killed = false := by
    intro q
    by_cases he : q = initproc
    · rw [he, boot_proc_init]
    · rw [boot_proc_ne he]
  refine ⟨fun q _ => hk q, fun q _ h => ?_⟩
  rw [hk] at h
  cases h

/-! ## Steps other than the hit of a `kill` -/

/-- Every slot keeps its mark and its use, or is clean, or was free. -/
structure Unmarked (s s' : State) : Prop where
  pid : ∀ q, (s'.proc q).state = .unused → (s.proc q).state = .unused ∧ (s'.proc q).pid = (s.proc q).pid ∨
    (s'.proc q).pid = 0
  mark : ∀ q, (s'.proc q).killed = false ∨
    (s'.proc q).killed = (s.proc q).killed ∧ (s.proc q).state = .unused ∨
    (s'.proc q).killed = (s.proc q).killed ∧ s'.named q = s.named q ∧
      ((s'.proc q).state = .unused ↔ (s.proc q).state = .unused)

theorem Unmarked.freePid {s s' : State} (h : Unmarked s s') (hs : FreePid s) : FreePid s' := by
  intro q hq
  rcases h.pid q hq with ⟨hu, hp⟩ | hp
  · rw [hp]
    exact hs q hu
  · exact hp

theorem Unmarked.killedExact {s s' : State} (h : Unmarked s s') (hs : KilledExact s) : KilledExact s' := by
  constructor
  · intro q hq
    rcases h.mark q with hk | ⟨hk, hu⟩ | ⟨hk, -, hu⟩
    · exact hk
    · rw [hk]
      exact hs.free q hu
    · rw [hk]
      exact hs.free q (hu.mp hq)
  · intro q hq hkill
    rcases h.mark q with hk | ⟨hk, hu⟩ | ⟨hk, hn, hu⟩
    · rw [hk] at hkill
      cases hkill
    · rw [hk, hs.free q hu] at hkill
      cases hkill
    · rw [hn]
      exact hs.named q (fun h0 => hq (hu.mpr h0)) (hk ▸ hkill)

section Unmarked
variable {s s' : State} {p q : Slot}

theorem unmarked_modProc {f : Proc → Proc} (hpid : (f (s.proc q)).pid = (s.proc q).pid)
    (hk : (f (s.proc q)).killed = (s.proc q).killed)
    (hu : (f (s.proc q)).state = .unused ↔ (s.proc q).state = .unused) : Unmarked s (s.modProc q f) := by
  refine ⟨fun r hr => .inl ?_, fun r => .inr (.inr ?_)⟩
  · by_cases he : r = q
    · subst he
      rw [s.modProc_self] at hr ⊢
      exact ⟨hu.mp hr, hpid⟩
    · rw [s.modProc_proc, if_neg he] at hr ⊢
      exact ⟨hr, rfl⟩
  · by_cases he : r = q
    · subst he
      rw [s.modProc_self]
      exact ⟨hk, rfl, hu⟩
    · rw [s.modProc_proc, if_neg he]
      exact ⟨rfl, rfl, Iff.rfl⟩

theorem Unmarked.refl (s : State) : Unmarked s s :=
  ⟨fun _ hq => .inl ⟨hq, rfl⟩, fun _ => .inr (.inr ⟨rfl, rfl, Iff.rfl⟩)⟩

theorem Unmarked.moved {s'' : State} (h : Unmarked s s') (hproc : s''.proc = s'.proc) (hn : s''.named = s'.named) :
    Unmarked s s'' := by
  constructor <;> simp only [hproc, hn]
  exacts [h.pid, h.mark]

theorem unmarked_goto (c : Pc) : Unmarked s (s.goto p c) := (Unmarked.refl s).moved rfl rfl

theorem unmarked_enter (c : Crit) : Unmarked s (s.enter p c) := (Unmarked.refl s).moved rfl rfl

theorem unmarked_freeproc (q : Slot) : Unmarked s (s.modProc q freeproc) := by
  refine ⟨fun r hr => ?_, fun r => ?_⟩
  · rw [s.modProc_proc] at hr ⊢
    split at hr
    · rename_i he
      rw [if_pos he]
      exact .inr rfl
    · rename_i he
      rw [if_neg he]
      exact .inl ⟨hr, rfl⟩
  · rw [s.modProc_proc]
    split
    · exact .inl rfl
    · exact .inr (.inr ⟨rfl, rfl, Iff.rfl⟩)

theorem unmarked_wakeupSlot (chan : Option Chan) : Unmarked s (s.wakeupSlot p q chan) := by
  unfold State.wakeupSlot
  split
  · refine unmarked_modProc ?_ ?_ ?_ <;> rw [wakeupProc_eq] <;> split <;> simp_all
  · exact .refl s

theorem unmarked_create (hun : (s.proc q).state = .unused) : Unmarked s (s.create q) := by
  refine ⟨fun r hr => ?_, fun r => .inr ?_⟩
  · by_cases he : r = q
    · subst he
      simp [State.create] at hr
    · left
      simpa [State.create, he] using hr
  · by_cases he : r = q
    · subst he
      left
      simpa [State.create] using hun
    · right
      simp [State.create, he]

theorem unmarked_create_freeproc (q : Slot) : Unmarked s ((s.create q).modProc q freeproc) := by
  refine ⟨fun r hr => ?_, fun r => ?_⟩
  · by_cases he : r = q
    · subst he
      right
      rw [State.modProc_self]
      rfl
    · left
      rw [State.modProc_proc, if_neg he] at hr ⊢
      simpa [State.create, he] using hr
  · by_cases he : r = q
    · subst he
      left
      rw [State.modProc_self]
      rfl
    · right
      right
      rw [State.modProc_proc, if_neg he]
      simp [State.create, State.modProc, he]

theorem unmarked_call {c : Call} (hrun : (s.proc p).state = .running) (hst : callStep p s c = .next s') :
    Unmarked s s' := by
  cases c with
  | exit st =>
    simp only [callStep] at hst
    split at hst
    · cases hst
    · cases hst
      exact unmarked_goto _
  | sleep chan =>
    cases hst
    refine Unmarked.moved (unmarked_modProc (f := fun q => { q with chan := some (.addr chan), state := .sleeping })
      (q := p) rfl rfl ?_) rfl rfl
    simp [hrun]
  | _ =>
    cases hst
    exact unmarked_goto _

theorem unmarked_crit {c : Crit} (fail : Bool) (hrun : (s.proc p).state = .running) :
    Unmarked s (critStep p fail s c) := by
  cases c with
  | reparent st i =>
    simp only [critStep]
    split
    · rename_i hi
      split
      · exact (unmarked_modProc (q := ⟨i, hi⟩) (f := fun pp => { pp with parent := some initproc }) rfl rfl
          Iff.rfl).moved rfl rfl
      · exact unmarked_enter _
    · exact unmarked_enter _
  | wakeInit st i j =>
    simp only [critStep]
    split
    · exact (unmarked_wakeupSlot _).moved rfl rfl
    · exact unmarked_enter _
  | wakeParent st j =>
    simp only [critStep]
    split
    · exact (unmarked_wakeupSlot _).moved rfl rfl
    · exact unmarked_enter _
  | zombify st =>
    refine (unmarked_modProc (q := p) (f := fun q => { q with xstate := st, state := .zombie }) rfl rfl ?_).moved rfl rfl
    simp [hrun]
  | waitScan i havekids =>
    simp only [critStep]
    split
    · split
      · split
        · split
          · exact (Unmarked.refl s).moved rfl rfl
          · exact (unmarked_freeproc _).moved rfl rfl
        · exact unmarked_enter _
      · exact unmarked_enter _
    · exact unmarked_enter _
  | waitCheck havekids =>
    simp only [critStep]
    split
    · exact (Unmarked.refl s).moved rfl rfl
    · exact unmarked_enter _
  | waitSleep =>
    refine (unmarked_modProc (q := p) (f := fun q => { q with chan := some (.proc p), state := .sleeping })
      rfl rfl ?_).moved rfl rfl
    simp [hrun]

end Unmarked

/-! ## The hit of a `kill` -/

/-- The section of a `kill` that finds its pid. -/
structure Hit (s : State) (e : Action) (s' : State) (p q : Slot) (pid : BitVec 32) : Prop where
  action : ∃ fail, e = .go p fail
  pc : s.pc p = .killScan pid q.val
  pid : (s.proc q).pid = pid
  next : s' = { ((s.modProc q killProc).goto p .user) with named := Function.update s.named q true }

section Hit
variable {s s' : State} {p q : Slot} {pid : BitVec 32} {e : Action}

theorem unmarked_go (hi : Inv s) {fail : Bool} (hst : pcStep p fail s (s.pc p) = .next s') :
    Unmarked s s' ∨ ∃ q pid, Hit s (.go p fail) s' p q pid := by
  cases hpc : s.pc p with
  | forkScan i =>
    left
    rw [hpc] at hst
    simp only [pcStep] at hst
    split at hst
    · split at hst
      · rename_i hun
        split at hst
        · cases hst
          exact (unmarked_create_freeproc _).moved rfl rfl
        · cases hst
          exact (unmarked_create hun).moved rfl rfl
      · cases hst
        exact unmarked_goto _
    · cases hst
      exact unmarked_goto _
  | forkLink np =>
    left
    rw [hpc] at hst
    simp only [pcStep] at hst
    split at hst
    · cases hst
      exact (unmarked_modProc (q := np) (f := fun q => { q with parent := some p }) rfl rfl Iff.rfl).moved rfl rfl
    · cases hst
  | forkStart np =>
    left
    rw [hpc] at hst
    cases hst
    refine (unmarked_modProc (q := np) (f := fun q => { q with state := .runnable }) rfl rfl ?_).moved rfl rfl
    simp [hi.forks p np (.inr hpc)]
  | exitEnter st =>
    left
    rw [hpc] at hst
    simp only [pcStep] at hst
    split at hst
    · cases hst
      exact unmarked_enter _
    · cases hst
  | waitEnter =>
    left
    rw [hpc] at hst
    simp only [pcStep] at hst
    split at hst
    · cases hst
      exact unmarked_enter _
    · cases hst
  | wakeScan chan j =>
    left
    rw [hpc] at hst
    simp only [pcStep] at hst
    split at hst
    · cases hst
      exact (unmarked_wakeupSlot _).moved rfl rfl
    · cases hst
      exact unmarked_goto _
  | killScan pid i =>
    rw [hpc] at hst
    simp only [pcStep] at hst
    split at hst
    · rename_i hlt
      split at hst
      · rename_i hpid
        cases hst
        exact .inr ⟨⟨i, hlt⟩, pid, ⟨fail, rfl⟩, hpc, hpid, rfl⟩
      · cases hst
        exact .inl (unmarked_goto _)
    · cases hst
      exact .inl (unmarked_goto _)
  | _ =>
    rw [hpc] at hst
    cases hst

theorem step_unmarked (hi : Inv s) (hst : StepCases s e s') : Unmarked s s' ∨ ∃ p q pid, Hit s e s' p q pid := by
  cases hst with
  | call p c _ hrun hpc hst => exact .inl (unmarked_call hrun hst)
  | crit p fail c hrun hh => exact .inl (unmarked_crit fail hrun)
  | go p fail _ hrun hh hst =>
    rcases unmarked_go hi hst with h | ⟨q, pid, h⟩
    · exact .inl h
    · exact .inr ⟨p, q, pid, h⟩
  | schedule p hst =>
    left
    refine (unmarked_modProc (q := p) (f := fun q => { q with chan := none, state := .running }) rfl rfl ?_).moved rfl rfl
    simp [hst]
  | yield p hrun hh =>
    left
    refine unmarked_modProc rfl rfl ?_
    simp [hrun]

theorem Hit.proc (h : Hit s e s' p q pid) (r : Slot) : s'.proc r = if r = q then killProc (s.proc q) else s.proc r := by
  rw [h.next]
  exact s.modProc_proc q r _

theorem killProc_unused (x : Proc) : (killProc x).state = .unused ↔ x.state = .unused := by
  simp only [killProc, Sched.kill]
  split <;> simp_all

theorem Hit.freePid (h : Hit s e s' p q pid) (hs : FreePid s) : FreePid s' := by
  intro r hr
  rw [h.proc] at hr ⊢
  split at hr
  · rename_i he
    rw [if_pos he]
    exact hs q ((killProc_unused _).mp hr)
  · rename_i he
    rw [if_neg he]
    exact hs r hr

theorem Hit.killedExact (h : Hit s e s' p q pid) (hs : KilledExact s) (hq : (s.proc q).state ≠ .unused) :
    KilledExact s' := by
  refine ⟨fun r hr => ?_, fun r hr hk => ?_⟩
  · rw [h.proc] at hr ⊢
    split at hr
    · exact absurd ((killProc_unused _).mp hr) hq
    · rename_i he
      rw [if_neg he]
      exact hs.free r hr
  · rw [h.proc] at hr hk
    rw [h.next]
    dsimp only
    by_cases he : r = q
    · rw [he, Function.update_self]
    · rw [if_neg he] at hr hk
      rw [Function.update_of_ne he]
      exact hs.named r hr hk

theorem Hit.not_killedExact (h : Hit s e s' p q pid) (hq : (s.proc q).state = .unused) : ¬ KilledExact s' := by
  intro hs
  have := hs.free q (by rw [h.proc, if_pos rfl, killProc_unused]; exact hq)
  rw [h.proc, if_pos rfl] at this
  cases this

end Hit

theorem run_freePid {ok : State → Action → Prop} {es : List Action} {s : State} (h : Run step ok boot es s) :
    Inv s ∧ FreePid s := by
  refine h.stateInvariant ?_ ?_
  · exact ⟨boot_inv, boot_freePid⟩
  · rintro s e s' ⟨hi, hf⟩ - hst
    refine ⟨hi.step (step_cases hst), ?_⟩
    rcases step_unmarked hi (step_cases hst) with h | ⟨p, q, pid, h⟩
    · exact h.freePid hf
    · exact h.freePid hf

/-- **Whom `kill` reaches.** Along a run every `kill` that returns 0 has a process to reach, no free slot is
marked and no new process is born marked, if and only if no `kill(0)` gets to a free slot. -/
theorem kill_exact_iff (es : List Action) (s : State) (h : Run step anyAction boot es s) :
    (Run step (fun s e => KilledExact s ∧ KillHonest s e) boot es s ∧ KilledExact s) ↔
      Run step KillCareful boot es s := by
  induction h with
  | nil => exact ⟨fun _ => .nil, fun _ => ⟨.nil, boot_killedExact⟩⟩
  | @snoc es s s' e hrun _ hst ih =>
    obtain ⟨hi, hf⟩ := run_freePid hrun
    rw [hrun.snoc_iff hst, hrun.snoc_iff hst]
    have hcases := step_unmarked hi (step_cases hst)
    constructor
    · rintro ⟨⟨hgood, hk, -⟩, hk'⟩
      refine ⟨ih.mp ⟨hgood, hk⟩, ?_⟩
      cases e with
      | go p fail =>
        intro i hlt hpc hun
        -- The slot is free, so its pid is 0: the `kill(0)` hits it.
        have hpid := hf _ hun
        have hhit : Hit s (.go p fail) s' p ⟨i, hlt⟩ 0 := by
          refine ⟨⟨fail, rfl⟩, hpc, hpid, ?_⟩
          cases step_cases hst with
          | crit _ _ c _ hh =>
            have := (hi.held p c hh).2
            cases c <;> simp [CritFacts, hpc] at this
          | go _ _ _ _ _ hgo =>
            rw [hpc] at hgo
            simp only [pcStep, hlt, hpid, dite_true, if_true] at hgo
            exact (Outcome.next.inj hgo).symm
        exact hhit.not_killedExact hun hk'
      | _ => trivial
    · rintro ⟨hcare, hok⟩
      obtain ⟨hgood, hk⟩ := ih.mpr hcare
      have hhonest : KillHonest s e := by
        cases e with
        | go p fail =>
          intro pid i hlt hpc hpid
          refine ⟨⟨i, hlt⟩, fun hun => ?_, hpid⟩
          have h0 := hf _ hun
          rw [hpid] at h0
          subst h0
          exact hok i hlt hpc hun
        | _ => trivial
      refine ⟨⟨hgood, hk, hhonest⟩, ?_⟩
      rcases hcases with hu | ⟨p, q, pid, hhit⟩
      · exact hu.killedExact hk
      · refine hhit.killedExact hk fun hun => ?_
        obtain ⟨fail, rfl⟩ := hhit.action
        have h0 := hf q hun
        rw [hhit.pid] at h0
        subst h0
        exact hok q.val q.isLt hhit.pc hun

def killChild : List Action :=
  [.schedule initproc, .call initproc .fork, .go initproc false, .go initproc false, .go initproc false,
    .go initproc false, .call initproc (.kill 2), .go initproc false, .go initproc false]

theorem killChild_runs : (exec step killChild boot).check (fun s => (s.proc firstChild).killed) = true := by
  decide +kernel

theorem killChild_exact :
    ∃ s, exec step killChild boot = .next s ∧ (s.proc firstChild).killed = true ∧
      ((Run step (fun s e => KilledExact s ∧ KillHonest s e) boot killChild s ∧ KilledExact s) ↔
        Run step KillCareful boot killChild s) := by
  obtain ⟨s, hs, hcheck⟩ := exists_of_check step killChild boot _ killChild_runs
  exact ⟨s, hs, hcheck, kill_exact_iff killChild s (Run.of_exec (admitted_anyAction _ _) hs)⟩

/-- `init` calls `kill(0)` and forks a child. -/
def killZero : List Action :=
  [.schedule initproc, .call initproc (.kill 0), .go initproc false, .go initproc false, .call initproc .fork,
    .go initproc false, .go initproc false, .go initproc false, .go initproc false]

theorem killZero_runs : (exec step killZero boot).check (fun s => (s.proc firstChild).state == .runnable &&
    (s.proc firstChild).pid == 2 && (s.proc firstChild).killed && !s.named firstChild) = true := by
  decide +kernel

/-- The `kill(0)` was made before the child was created and names no process; the child is born marked. -/
theorem killZero_born_killed :
    ∃ s, exec step killZero boot = .next s ∧ (s.proc firstChild).state = .runnable ∧ (s.proc firstChild).pid = 2 ∧
      (s.proc firstChild).killed = true ∧ s.named firstChild = false := by
  obtain ⟨s, hs, hcheck⟩ := exists_of_check step killZero boot _ killZero_runs
  simp only [Bool.and_eq_true, beq_iff_eq, Bool.not_eq_true'] at hcheck
  exact ⟨s, hs, hcheck.1.1.1, hcheck.1.1.2, hcheck.1.2, hcheck.2⟩

end Xv6Boot.Kernel.ProcTable
