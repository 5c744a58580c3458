import Xv6Boot.Kernel.Proc

/-! # `sleeplock.c`

Sleep locks with the `sleep`, `wakeup` and `kill` they rest on. An action is one step of one process between
taking or giving up spinlocks: `sleep` takes `p->lock` while it still holds `lk->lk`, so these two are taken
and released separately; a section of `wakeup` or `kill` under another process' `p->lock` is one action.
Processes also sleep on and wake other channels; the spinlocks they hold there are left out.
-/

namespace Xv6Boot.Kernel.Sleeplock
open Function Transition ProcTable
/-- The address of a sleep lock, or another one. -/
inductive Chan (L : Type) where
  | lock (l : L)
  | other (a : BitVec 64)
  deriving DecidableEq

/-- `lock` is `p->lock`; between actions only the process itself, or the scheduler for it, holds it. -/
structure Proc (L : Type) extends Sched (Chan L) where
  lock : Bool
  deriving DecidableEq

structure SleepLock where
  lk : Option Slot
  locked : Bool
  pid : BitVec 32
  deriving DecidableEq

def initsleeplock : SleepLock := ⟨none, false, 0⟩

/-- What a process does next. -/
inductive Pc (L : Type) where
  | user
  /-- `acquiresleep`: `acquire(&lk->lk)`, at the start and at the end of `sleep` -/
  | acquire (l : L)
  | test (l : L)
  | taken (l : L)
  /-- `sleep`: `acquire(&p->lock)` -/
  | sleepLock (c : Chan L)
  | sleepRelease (c : Chan L)
  | sleepMark (c : Chan L)
  | sched (c : Chan L)
  | asleep (c : Chan L)
  | tidy (c : Chan L)
  /-- `releasesleep`: `acquire(&lk->lk)` -/
  | release (l : L)
  | clear (l : L)
  | wakeup (c : Chan L) (i : ℕ)
  | kill (pid : BitVec 32) (i : ℕ)
  deriving DecidableEq

/-- `holds p l`: process `p` has returned from `acquiresleep(l)` and not yet given the lock up. -/
structure State (L : Type) where
  proc : Slot → Proc L
  lock : L → SleepLock
  pc : Slot → Pc L
  holds : Slot → L → Bool

inductive Call (L : Type) where
  | acquiresleep (l : L)
  | releasesleep (l : L)
  | sleep (a : BitVec 64)
  | wakeup (a : BitVec 64)
  | kill (pid : BitVec 32)

inductive Action (L : Type) where
  | call (p : Slot) (c : Call L)
  | go (p : Slot)
  | schedule (p : Slot)
  | yield (p : Slot)

variable {L : Type}

namespace Pc

/-- Inside `lk->lk` of `l`. -/
def inside [DecidableEq L] (l : L) : Pc L → Bool
  | .test l' | .taken l' | .clear l' => l = l'
  | .sleepLock c | .sleepRelease c | .wakeup c _ => .lock l = c
  | _ => false

/-- Inside its own `p->lock`. -/
def ownLock : Pc L → Bool
  | .sleepRelease _ | .sleepMark _ | .sched _ | .tidy _ => true
  | _ => false

def preemptible : Pc L → Bool
  | .user | .acquire _ | .release _ | .wakeup (.other _) _ | .kill _ _ => true
  | _ => false

end Pc

namespace State
variable (s : State L)

def goto (p : Slot) (pc : Pc L) : State L := { s with pc := update s.pc p pc }

def modProc (q : Slot) (f : Proc L → Proc L) : State L :=
  { s with proc := update s.proc q (f (s.proc q)) }

def setLk [DecidableEq L] (l : L) (o : Option Slot) : State L :=
  { s with lock := update s.lock l { s.lock l with lk := o } }

/-- `lk->locked` and `lk->pid` -/
def setLocked [DecidableEq L] (l : L) (b : Bool) (pid : BitVec 32) : State L :=
  { s with lock := update s.lock l { s.lock l with locked := b, pid } }

def setHolds [DecidableEq L] (p : Slot) (l : L) (b : Bool) : State L :=
  { s with holds := update s.holds p (update (s.holds p) l b) }

variable {s} {p q : Slot} {l l' : L} {b : Bool} {pid : BitVec 32} {o : Option Slot} {pc : Pc L} {f : Proc L → Proc L}

@[simp] theorem goto_pc : (s.goto p pc).pc q = if q = p then pc else s.pc q := update_apply ..
@[simp] theorem goto_proc : (s.goto p pc).proc = s.proc := rfl
@[simp] theorem goto_lock : (s.goto p pc).lock = s.lock := rfl
@[simp] theorem goto_holds : (s.goto p pc).holds = s.holds := rfl

@[simp] theorem modProc_proc : (s.modProc p f).proc q = if q = p then f (s.proc p) else s.proc q :=
  update_apply ..
@[simp] theorem modProc_pc : (s.modProc p f).pc = s.pc := rfl
@[simp] theorem modProc_lock : (s.modProc p f).lock = s.lock := rfl
@[simp] theorem modProc_holds : (s.modProc p f).holds = s.holds := rfl

variable [DecidableEq L]

@[simp] theorem setLk_lk : ((s.setLk l o).lock l').lk = if l' = l then o else (s.lock l').lk := by
  simp only [setLk, update_apply]
  split <;> rfl

@[simp] theorem setLk_locked : ((s.setLk l o).lock l').locked = (s.lock l').locked := by
  simp only [setLk, update_apply]
  split
  · next h => rw [h]
  · rfl

@[simp] theorem setLk_pc : (s.setLk l o).pc = s.pc := rfl
@[simp] theorem setLk_proc : (s.setLk l o).proc = s.proc := rfl
@[simp] theorem setLk_holds : (s.setLk l o).holds = s.holds := rfl

@[simp] theorem setLocked_lk : ((s.setLocked l b pid).lock l').lk = (s.lock l').lk := by
  simp only [setLocked, update_apply]
  split
  · next h => rw [h]
  · rfl

@[simp] theorem setLocked_locked :
    ((s.setLocked l b pid).lock l').locked = if l' = l then b else (s.lock l').locked := by
  simp only [setLocked, update_apply]
  split <;> rfl

@[simp] theorem setLocked_pc : (s.setLocked l b pid).pc = s.pc := rfl
@[simp] theorem setLocked_proc : (s.setLocked l b pid).proc = s.proc := rfl
@[simp] theorem setLocked_holds : (s.setLocked l b pid).holds = s.holds := rfl

@[simp] theorem setHolds_holds : (s.setHolds p l b).holds q l' = if q = p ∧ l' = l then b else s.holds q l' := by
  simp only [setHolds, update_apply]
  split
  · next h =>
    subst h
    simp only [update_apply, true_and]
  · next h => rw [if_neg fun h' => h h'.1]

@[simp] theorem setHolds_pc : (s.setHolds p l b).pc = s.pc := rfl
@[simp] theorem setHolds_proc : (s.setHolds p l b).proc = s.proc := rfl
@[simp] theorem setHolds_lock : (s.setHolds p l b).lock = s.lock := rfl

end State

variable [DecidableEq L]

def Proc.wakeup (c : Chan L) (p : Proc L) : Proc L := { p with toSched := p.toSched.wakeup (some c) }

def Proc.kill (p : Proc L) : Proc L := { p with toSched := p.toSched.kill }

def call (s : State L) (p : Slot) : Call L → Outcome (State L)
  | .acquiresleep l => .next (s.goto p (.acquire l))
  | .releasesleep l => if s.holds p l then .next (s.goto p (.release l)) else .disabled
  | .sleep a => .next (s.goto p (.sleepLock (.other a)))
  | .wakeup a => .next (s.goto p (.wakeup (.other a) 0))
  | .kill pid => .next (s.goto p (.kill pid 0))

/-- One step of the running process `p`. -/
def running (s : State L) (p : Slot) : Pc L → Outcome (State L)
  | .acquire l =>
    if (s.lock l).lk = none then .next ((s.setLk l (some p)).goto p (.test l)) else .disabled
  | .test l =>
    if (s.lock l).locked then .next (s.goto p (.sleepLock (.lock l)))
    else .next ((s.setLocked l true (s.proc p).pid).goto p (.taken l))
  | .taken l => .next (((s.setLk l none).setHolds p l true).goto p .user)
  | .sleepLock c =>
    if (s.proc p).lock then .disabled
    else .next ((s.modProc p fun q => { q with lock := true }).goto p (.sleepRelease c))
  | .sleepRelease (.lock l) => .next ((s.setLk l none).goto p (.sleepMark (.lock l)))
  | .sleepRelease (.other a) => .next (s.goto p (.sleepMark (.other a)))
  | .sleepMark c =>
    .next ((s.modProc p fun q => { q with chan := some c, state := .sleeping }).goto p (.sched c))
  | .tidy c =>
    .next ((s.modProc p fun q => { q with chan := none, lock := false }).goto p
      (match c with | .lock l => .acquire l | .other _ => .user))
  | .release l =>
    if (s.lock l).lk = none then .next ((s.setLk l (some p)).goto p (.clear l)) else .disabled
  | .clear l => .next (((s.setLocked l false 0).setHolds p l false).goto p (.wakeup (.lock l) 0))
  | .wakeup c i =>
    if h : i < NPROC then
      if (⟨i, h⟩ : Slot) = p then .next (s.goto p (.wakeup c (i + 1)))
      else if (s.proc ⟨i, h⟩).lock then .disabled
      else .next ((s.modProc ⟨i, h⟩ (.wakeup c)).goto p (.wakeup c (i + 1)))
    else
      match c with
      | .lock l => .next ((s.setLk l none).goto p .user)
      | .other _ => .next (s.goto p .user)
  | .kill pid i =>
    if h : i < NPROC then
      if (s.proc ⟨i, h⟩).lock then .disabled
      else if (s.proc ⟨i, h⟩).pid = pid then .next ((s.modProc ⟨i, h⟩ .kill).goto p .user)
      else .next (s.goto p (.kill pid (i + 1)))
    else .next (s.goto p .user)
  | .user | .sched _ | .asleep _ => .disabled

def step (s : State L) : Action L → Outcome (State L)
  | .call p c => if (s.proc p).state = .running ∧ s.pc p = .user then call s p c else .disabled
  | .go p =>
    match s.pc p with
    -- `sched` switches to the scheduler, which releases `p->lock`
    | .sched c => .next ((s.modProc p fun q => { q with lock := false }).goto p (.asleep c))
    | pc => if (s.proc p).state = .running then running s p pc else .disabled
  | .schedule p =>
    if (s.proc p).state = .runnable ∧ (s.proc p).lock = false then
      match s.pc p with
      | .asleep c => .next ((s.modProc p fun q => { q with state := .running, lock := true }).goto p (.tidy c))
      | _ => .next (s.modProc p fun q => { q with state := .running })
    else .disabled
  | .yield p =>
    if (s.proc p).state = .running ∧ (s.pc p).preemptible then
      .next (s.modProc p fun q => { q with state := .runnable })
    else .disabled

/-! ## Who holds the spinlocks -/

structure Spin (s : State L) : Prop where
  own : ∀ p, (s.proc p).lock = (s.pc p).ownLock
  holder : ∀ l p, (s.lock l).lk = some p ↔ (s.pc p).inside l = true

namespace Spin
variable {s : State L} {p : Slot} {l : L} {pc : Pc L}

theorem goto (h : Spin s) (ho : pc.ownLock = (s.pc p).ownLock) (hi : ∀ l, pc.inside l = (s.pc p).inside l) :
    Spin (s.goto p pc) := by
  constructor
  · intro q
    simp only [State.goto_pc, State.goto_proc]
    split
    · next hq => rw [ho, hq, h.own]
    · exact h.own q
  · intro l q
    simp only [State.goto_pc, State.goto_lock]
    split
    · next hq => rw [hi, hq, h.holder]
    · exact h.holder l q

theorem modProc (h : Spin s) {q : Slot} {f : Proc L → Proc L} (hf : (f (s.proc q)).lock = (s.proc q).lock) :
    Spin (s.modProc q f) := by
  refine ⟨fun p => ?_, h.holder⟩
  simp only [State.modProc_proc, State.modProc_pc]
  split
  · next hp => rw [hf, hp, h.own]
  · exact h.own p

theorem setLocked (h : Spin s) (b : Bool) (pid : BitVec 32) : Spin (s.setLocked l b pid) :=
  ⟨h.own, fun l' q => by rw [State.setLocked_lk]; exact h.holder l' q⟩

theorem setHolds (h : Spin s) (b : Bool) : Spin (s.setHolds p l b) := ⟨h.own, h.holder⟩

theorem modOwn (h : Spin s) {f : Proc L → Proc L} (ho : (f (s.proc p)).lock = pc.ownLock)
    (hi : ∀ l, pc.inside l = (s.pc p).inside l) : Spin ((s.modProc p f).goto p pc) := by
  constructor
  · intro q
    simp only [State.goto_pc, State.goto_proc, State.modProc_proc, State.modProc_pc]
    split
    · exact ho
    · exact h.own q
  · intro l q
    simp only [State.goto_pc, State.goto_lock, State.modProc_pc, State.modProc_lock]
    split
    · next hq => rw [hi, hq, h.holder]
    · exact h.holder l q

theorem acquire (h : Spin s) (hl : (s.lock l).lk = none) (ho : pc.ownLock = (s.pc p).ownLock)
    (hout : ∀ l, (s.pc p).inside l = false) (hi : ∀ l', pc.inside l' = true ↔ l' = l) :
    Spin ((s.setLk l (some p)).goto p pc) := by
  constructor
  · intro q
    simp only [State.goto_pc, State.goto_proc, State.setLk_proc, State.setLk_pc]
    split
    · next hq => rw [ho, hq, h.own]
    · exact h.own q
  · intro l' q
    have hno : ∀ q, (s.pc q).inside l ≠ true := fun q hq => by
      have := (h.holder l q).mpr hq
      rw [hl] at this
      cases this
    have hp : (s.lock l').lk ≠ some p := fun hp => by
      have := (h.holder l' p).mp hp
      rw [hout] at this
      cases this
    simp only [State.goto_pc, State.goto_lock, State.setLk_lk, State.setLk_pc]
    by_cases hq : q = p
    · subst hq
      rw [if_pos rfl, hi]
      split
      · next hl' => simp [hl']
      · next hl' => simp [hl', hp]
    · rw [if_neg hq]
      split
      · next hl' =>
        subst hl'
        simp [hno q, Ne.symm hq]
      · exact h.holder l' q

theorem release (h : Spin s) (ho : pc.ownLock = (s.pc p).ownLock) (hin : (s.pc p).inside l = true)
    (hone : ∀ l', (s.pc p).inside l' = true → l' = l) (hi : ∀ l', pc.inside l' = false) :
    Spin ((s.setLk l none).goto p pc) := by
  have hp : (s.lock l).lk = some p := (h.holder l p).mpr hin
  constructor
  · intro q
    simp only [State.goto_pc, State.goto_proc, State.setLk_proc, State.setLk_pc]
    split
    · next hq => rw [ho, hq, h.own]
    · exact h.own q
  · intro l' q
    simp only [State.goto_pc, State.goto_lock, State.setLk_lk, State.setLk_pc]
    by_cases hq : q = p
    · subst hq
      rw [if_pos rfl, hi]
      split
      · simp
      · next hl' =>
        rw [h.holder]
        simp only [Bool.false_eq_true, iff_false]
        exact fun hin' => hl' (hone l' hin')
    · rw [if_neg hq]
      split
      · next hl' =>
        subst hl'
        rw [← h.holder, hp]
        simp [Ne.symm hq]
      · exact h.holder l' q

end Spin

/-! ## Who has the sleep locks -/

/-- `p` has the lock, or is about to return with it. -/
def State.Owns (s : State L) (p : Slot) (l : L) : Prop := s.holds p l = true ∨ s.pc p = .taken l

structure Mutex (s : State L) : Prop where
  locked : ∀ p l, s.Owns p l → (s.lock l).locked = true
  unique : ∀ p q l, s.Owns p l → s.Owns q l → p = q
  giving : ∀ p l, s.pc p = .release l ∨ s.pc p = .clear l → s.holds p l = true

namespace Mutex
variable {s s' : State L} {p : Slot} {l : L} {pc : Pc L}

omit [DecidableEq L] in
theorem of_owns (h : Mutex s) (ho : ∀ q l, s'.Owns q l → s.Owns q l)
    (hl : ∀ q l, s'.Owns q l → (s'.lock l).locked = (s.lock l).locked)
    (hg : ∀ q l, s'.pc q = .release l ∨ s'.pc q = .clear l → s'.holds q l = true) : Mutex s' where
  locked q l hq := by
    rw [hl q l hq]
    exact h.locked q l (ho q l hq)
  unique q q' l hq hq' := h.unique q q' l (ho q l hq) (ho q' l hq')
  giving := hg

omit [DecidableEq L] in
theorem goto (h : Mutex s) (ht : ∀ l, pc ≠ .taken l)
    (hg : ∀ l, pc = .release l ∨ pc = .clear l → s.holds p l = true) : Mutex (s.goto p pc) := by
  refine h.of_owns (fun q l hq => ?_) (fun _ _ _ => rfl) (fun q l hq => ?_)
  · rw [State.Owns, State.goto_pc] at hq
    split at hq
    · exact hq.elim .inl fun hpc => absurd hpc (ht l)
    · exact hq
  · rw [State.goto_pc] at hq
    split at hq
    · next hqp =>
      subst hqp
      exact hg l hq
    · exact h.giving q l hq

omit [DecidableEq L] in
theorem congr (h : Mutex s) (hh : s'.holds = s.holds) (hp : s'.pc = s.pc)
    (hl : ∀ l, (s'.lock l).locked = (s.lock l).locked) : Mutex s' := by
  refine h.of_owns (fun q l hq => ?_) (fun _ l _ => hl l) (fun q l hq => ?_)
  · rwa [State.Owns, hh, hp] at hq
  · rw [hp] at hq
    rw [hh]
    exact h.giving q l hq

omit [DecidableEq L] in
theorem modProc (h : Mutex s) (f : Proc L → Proc L) : Mutex (s.modProc p f) := h.congr rfl rfl fun _ => rfl

theorem setLk (h : Mutex s) (o : Option Slot) : Mutex (s.setLk l o) :=
  h.congr rfl rfl fun _ => State.setLk_locked

theorem lock (h : Mutex s) (hl : (s.lock l).locked = false) (pid : BitVec 32) :
    Mutex ((s.setLocked l true pid).goto p (.taken l)) := by
  have hno : ∀ q, ¬s.Owns q l := fun q hq => by simpa [hl] using h.locked q l hq
  have howns : ∀ q l', ((s.setLocked l true pid).goto p (.taken l)).Owns q l' → s.Owns q l' ∨ q = p ∧ l' = l := by
    intro q l' hq
    simp only [State.Owns, State.goto_pc, State.goto_holds, State.setLocked_holds, State.setLocked_pc] at hq
    split at hq
    · next hqp => exact hq.imp .inl fun ht => ⟨hqp, (Pc.taken.inj ht).symm⟩
    · exact .inl hq
  refine ⟨fun q l' hq => ?_, fun q q' l' hq hq' => ?_, fun q l' hq => ?_⟩
  · simp only [State.goto_lock, State.setLocked_locked]
    split
    · rfl
    · next hl' => exact h.locked q l' ((howns q l' hq).resolve_right fun h => hl' h.2)
  · rcases howns q l' hq with ho | ⟨rfl, rfl⟩
    · rcases howns q' l' hq' with ho' | ⟨rfl, rfl⟩
      · exact h.unique q q' l' ho ho'
      · exact absurd ho (hno q)
    · rcases howns q' l' hq' with ho' | ⟨rfl, -⟩
      · exact absurd ho' (hno q')
      · rfl
  · simp only [State.goto_pc, State.setLocked_pc] at hq
    split at hq
    · simp at hq
    · exact h.giving q l' hq

theorem taken (h : Mutex s) (hpc : s.pc p = .taken l) : Mutex ((s.setHolds p l true).goto p .user) := by
  refine h.of_owns (fun q l' hq => ?_) (fun _ _ _ => rfl) (fun q l' hq => ?_)
  · simp only [State.Owns, State.goto_pc, State.goto_holds, State.setHolds_holds, State.setHolds_pc] at hq
    by_cases hql : q = p ∧ l' = l
    · obtain ⟨rfl, rfl⟩ := hql
      exact .inr hpc
    · rw [if_neg hql] at hq
      refine hq.imp id fun hq => ?_
      split at hq
      · cases hq
      · exact hq
  · simp only [State.goto_pc, State.setHolds_pc] at hq
    split at hq
    · simp at hq
    · next hqp =>
      rw [State.goto_holds, State.setHolds_holds, if_neg fun h' => hqp h'.1]
      exact h.giving q l' hq

theorem clear (h : Mutex s) (hpc : s.pc p = .clear l) :
    Mutex (((s.setLocked l false 0).setHolds p l false).goto p (.wakeup (.lock l) 0)) := by
  have howns : ∀ q l', (((s.setLocked l false 0).setHolds p l false).goto p (.wakeup (.lock l) 0)).Owns q l' →
      s.Owns q l' ∧ ¬(q = p ∧ l' = l) := by
    intro q l' hq
    simp only [State.Owns, State.goto_pc, State.goto_holds, State.setHolds_holds, State.setHolds_pc,
      State.setLocked_holds, State.setLocked_pc] at hq
    by_cases hql : q = p ∧ l' = l
    · simp [hql] at hq
    · rw [if_neg hql] at hq
      refine ⟨hq.imp id fun hq => ?_, hql⟩
      split at hq
      · cases hq
      · exact hq
  have hp : s.Owns p l := .inl (h.giving p l (.inr hpc))
  refine h.of_owns (fun q l' hq => (howns q l' hq).1) (fun q l' hq => ?_) (fun q l' hq => ?_)
  · obtain ⟨ho, hne⟩ := howns q l' hq
    simp only [State.goto_lock, State.setHolds_lock, State.setLocked_locked]
    rw [if_neg]
    rintro rfl
    exact hne ⟨h.unique q p l' ho hp, rfl⟩
  · simp only [State.goto_pc, State.setHolds_pc, State.setLocked_pc] at hq
    split at hq
    · simp at hq
    · next hqp =>
      rw [State.goto_holds, State.setHolds_holds, if_neg fun h' => hqp h'.1]
      exact h.giving q l' hq

end Mutex

/-! ## Who is owed a wakeup -/

namespace State
variable (s : State L)

/-- `p` has seen the lock taken and is on its way to sleep, still inside `lk->lk`. -/
def Going (p : Slot) (l : L) : Prop := s.pc p = .sleepLock (.lock l) ∨ s.pc p = .sleepRelease (.lock l)

/-- `p` sleeps on the lock, or has given `lk->lk` up to do so. -/
def Sleeper (p : Slot) (l : L) : Prop :=
  s.pc p = .sleepMark (.lock l) ∨ (s.proc p).state = .sleeping ∧ (s.proc p).chan = some (.lock l)

/-- The scan of a `releasesleep` has not passed slot `p` yet. -/
def Coming (p : Slot) (l : L) : Prop := ∃ r i, s.pc r = .wakeup (.lock l) i ∧ i ≤ p.val

end State

structure Owed (s : State L) : Prop where
  going : ∀ p l, s.Going p l → (s.lock l).locked = true
  sleeper : ∀ p l, s.Sleeper p l → (s.lock l).locked = true ∨ s.Coming p l

namespace Owed
variable {s s' : State L} {p : Slot} {l : L} {pc : Pc L}

omit [DecidableEq L] in
theorem goto (h : Owed s)
    (hw : ∀ q l i, s.pc p = .wakeup (.lock l) i → i ≤ q.val → s.Sleeper q l → ∃ j ≤ q.val, pc = .wakeup (.lock l) j)
    (hm : ∀ l, pc = .sleepMark (.lock l) → s.Going p l)
    (hg : ∀ l, pc = .sleepLock (.lock l) ∨ pc = .sleepRelease (.lock l) → s.Going p l ∨ (s.lock l).locked = true) :
    Owed (s.goto p pc) := by
  have hs : ∀ q l, (s.goto p pc).Sleeper q l → s.Sleeper q l ∨ s.Going q l := by
    intro q l hq
    rw [State.Sleeper, State.goto_pc] at hq
    split at hq
    · next hqp =>
      subst hqp
      exact hq.elim (fun hpc => .inr (hm l hpc)) fun hq => .inl (.inr hq)
    · exact .inl hq
  refine ⟨fun q l hq => ?_, fun q l hq => ?_⟩
  · rw [State.Going, State.goto_pc] at hq
    split at hq
    · exact (hg l hq).elim (h.going p l) id
    · exact h.going q l hq
  · rcases hs q l hq with hq' | hq'
    · refine (h.sleeper q l hq').imp id fun ⟨r, i, hr, hi⟩ => ?_
      by_cases hrp : r = p
      · subst hrp
        obtain ⟨j, hj, rfl⟩ := hw q l i hr hi hq'
        exact ⟨r, j, by simp, hj⟩
      · exact ⟨r, i, by rw [State.goto_pc, if_neg hrp, hr], hi⟩
    · exact .inl (h.going q l hq')

omit [DecidableEq L] in
theorem modProc (h : Owed s) {f : Proc L → Proc L}
    (hf : ∀ l, (f (s.proc p)).state = .sleeping ∧ (f (s.proc p)).chan = some (.lock l) → s.Sleeper p l) :
    Owed (s.modProc p f) := by
  refine ⟨h.going, fun q l hq => h.sleeper q l ?_⟩
  rw [State.Sleeper, State.modProc_proc] at hq
  split at hq
  · next hqp =>
    subst hqp
    exact hq.elim .inl (hf l)
  · exact hq

theorem setLk (h : Owed s) (o : Option Slot) : Owed (s.setLk l o) where
  going q l' hq := State.setLk_locked.trans (h.going q l' hq)
  sleeper q l' hq := by
    rw [State.setLk_locked]
    exact h.sleeper q l' hq

theorem setHolds (h : Owed s) (b : Bool) : Owed (s.setHolds p l b) := ⟨h.going, h.sleeper⟩

theorem lock (h : Owed s) (pid : BitVec 32) : Owed (s.setLocked l true pid) where
  going q l' hq := by simp [h.going q l' hq]
  sleeper q l' hq := by
    rw [State.setLocked_locked]
    split
    · exact .inl rfl
    · exact h.sleeper q l' hq

theorem clear (h : Owed s) (hs : Spin s) (hpc : s.pc p = .clear l) :
    Owed ((s.setLocked l false 0).goto p (.wakeup (.lock l) 0)) where
  going q l' hq := by
    simp only [State.Going, State.goto_pc, State.setLocked_pc] at hq
    split at hq
    · simp at hq
    · next hqp =>
      simp only [State.goto_lock, State.setLocked_locked]
      split
      · next hl =>
        -- only one process is inside `lk->lk`
        subst hl
        have hp : (s.lock l').lk = some p := (hs.holder l' p).mpr (by simp [hpc, Pc.inside])
        have hq : (s.lock l').lk = some q := (hs.holder l' q).mpr (by rcases hq with hq | hq <;> simp [hq, Pc.inside])
        rw [hp] at hq
        exact absurd (Option.some.inj hq).symm hqp
      · exact h.going q l' hq
  sleeper q l' hq := by
    have hq' : s.Sleeper q l' := by
      simp only [State.Sleeper, State.goto_pc, State.setLocked_pc] at hq
      split at hq
      · exact hq.elim (fun hq => by simp at hq) .inr
      · exact hq
    simp only [State.goto_lock, State.setLocked_locked]
    split
    · next hl =>
      subst hl
      exact .inr ⟨p, 0, by simp, Nat.zero_le _⟩
    · refine (h.sleeper q l' hq').imp id fun ⟨r, i, hr, hi⟩ => ⟨r, i, ?_, hi⟩
      have hrp : r ≠ p := by
        rintro rfl
        rw [hpc] at hr
        cases hr
      rw [State.goto_pc, if_neg hrp]
      exact hr

end Owed

structure Inv (s : State L) : Prop where
  spin : Spin s
  mutex : Mutex s
  owed : Owed s

namespace Inv
variable {s s' : State L} {p : Slot} {l : L} {pc pc' : Pc L}

theorem goto (h : Inv s) (hpc : s.pc p = pc) (ho : pc'.ownLock = pc.ownLock) (hi : ∀ l, pc'.inside l = pc.inside l)
    (ht : ∀ l, pc' ≠ .taken l) (hg : ∀ l, pc' = .release l ∨ pc' = .clear l → s.holds p l = true)
    (hw : ∀ l i, pc ≠ .wakeup (.lock l) i) (hm : ∀ l, pc' ≠ .sleepMark (.lock l))
    (hb : ∀ l, pc' = .sleepLock (.lock l) ∨ pc' = .sleepRelease (.lock l) → (s.lock l).locked = true) :
    Inv (s.goto p pc') := by
  subst hpc
  exact ⟨h.spin.goto ho hi, h.mutex.goto ht hg,
    h.owed.goto (fun _ l i hi => absurd hi (hw l i)) (fun l hl => absurd hl (hm l)) fun l hl => .inr (hb l hl)⟩

theorem modProc (h : Inv s) {f : Proc L → Proc L} (hf : (f (s.proc p)).lock = (s.proc p).lock)
    (hs : (f (s.proc p)).state = .sleeping → f (s.proc p) = s.proc p) : Inv (s.modProc p f) := by
  refine ⟨h.spin.modProc hf, h.mutex.modProc f, h.owed.modProc fun l hl => .inr ?_⟩
  rwa [hs hl.1] at hl

theorem wakeup {c : Chan L} {i : ℕ} (h : Inv s) (hpc : s.pc p = .wakeup c i)
    (hno : ∀ q l, c = .lock l → q.val = i → ¬s.Sleeper q l) : Inv (s.goto p (.wakeup c (i + 1))) := by
  refine ⟨h.spin.goto ?_ ?_, h.mutex.goto ?_ ?_, h.owed.goto (fun q l j hj hjq hq => ?_) ?_ ?_⟩
  case refine_5 =>
    rw [hpc] at hj
    cases hj
    have hne : q.val ≠ i := fun he => hno q l rfl he hq
    exact ⟨i + 1, by omega, rfl⟩
  all_goals simp [hpc, Pc.ownLock, Pc.inside]

theorem wakeupSlot {c : Chan L} {q : Slot} (h : Inv s) (hpc : s.pc p = .wakeup c q) (hq : (s.proc q).lock = false) :
    Inv ((s.modProc q (.wakeup c)).goto p (.wakeup c (q + 1))) := by
  refine (h.modProc ?_ ?_).wakeup hpc fun r l hc hr => ?_
  · unfold Proc.wakeup Sched.wakeup
    split <;> rfl
  · unfold Proc.wakeup Sched.wakeup
    split
    · rintro ⟨⟩
    · exact fun _ => rfl
  · obtain rfl : r = q := Fin.ext hr
    rintro (hm | ⟨hs, hch⟩)
    · have := h.spin.own r
      rw [hq, show s.pc r = .sleepMark (.lock l) from hm] at this
      cases this
    · rw [State.modProc_proc, if_pos rfl, Proc.wakeup, Sched.wakeup] at hs hch
      split at hs
      · cases hs
      · next hne =>
        rw [if_neg hne] at hch
        exact hne ⟨hs, hc ▸ hch⟩

theorem running (h : Inv s) (hpc : s.pc p = pc) (hr : (s.proc p).state = .running)
    (hst : running s p pc = .next s') : Inv s' := by
  cases pc with
  | user | sched c | asleep c => cases hst
  | acquire l | release l =>
    simp only [Sleeplock.running] at hst
    split at hst
    · next hl =>
      cases hst
      refine ⟨h.spin.acquire hl ?_ ?_ ?_, (h.mutex.setLk _).goto ?_ ?_, (h.owed.setLk _).goto ?_ ?_ ?_⟩
      all_goals simp [hpc, Pc.ownLock, Pc.inside, h.mutex.giving p l]
    · cases hst
  | test l =>
    simp only [Sleeplock.running] at hst
    split at hst
    · next hl =>
      cases hst
      refine h.goto hpc rfl ?_ ?_ ?_ ?_ ?_ ?_ <;> simp [Pc.inside, hl]
    · next hl =>
      cases hst
      refine ⟨(h.spin.setLocked _ _).goto ?_ ?_, h.mutex.lock (by simpa using hl) _, (h.owed.lock _).goto ?_ ?_ ?_⟩
      all_goals simp [hpc, Pc.ownLock, Pc.inside]
  | taken l =>
    cases hst
    refine ⟨(h.spin.release ?_ ?_ ?_ ?_).setHolds true, (h.mutex.setLk none).taken hpc,
      ((h.owed.setLk none).setHolds true).goto ?_ ?_ ?_⟩
    all_goals simp [hpc, Pc.ownLock, Pc.inside]
  | sleepLock c =>
    simp only [Sleeplock.running] at hst
    split at hst
    · cases hst
    · cases hst
      refine ⟨h.spin.modOwn rfl ?_, (h.mutex.modProc _).goto ?_ ?_, (h.owed.modProc ?_).goto ?_ ?_ ?_⟩
      all_goals simp +contextual [hpc, Pc.inside, hr, State.Going]
  | sleepRelease c =>
    cases c with
    | lock l =>
      cases hst
      refine ⟨h.spin.release ?_ ?_ ?_ ?_, (h.mutex.setLk none).goto ?_ ?_, (h.owed.setLk none).goto ?_ ?_ ?_⟩
      all_goals simp [hpc, Pc.ownLock, Pc.inside, State.Going]
    | other a =>
      cases hst
      refine h.goto hpc rfl ?_ ?_ ?_ ?_ ?_ ?_ <;> simp [Pc.inside]
  | sleepMark c =>
    cases hst
    refine ⟨h.spin.modOwn ?_ ?_, (h.mutex.modProc _).goto ?_ ?_, (h.owed.modProc ?_).goto ?_ ?_ ?_⟩
    all_goals simp +contextual [hpc, Pc.inside, Pc.ownLock, State.Sleeper, h.spin.own]
  | tidy c =>
    cases c <;> cases hst <;>
      refine ⟨h.spin.modOwn ?_ ?_, (h.mutex.modProc _).goto ?_ ?_, (h.owed.modProc ?_).goto ?_ ?_ ?_⟩ <;>
      simp [hpc, Pc.inside, Pc.ownLock]
  | clear l =>
    cases hst
    refine ⟨((h.spin.setLocked _ _).setHolds _).goto ?_ ?_, h.mutex.clear hpc,
      (h.owed.clear h.spin hpc).setHolds false⟩
    all_goals simp [hpc, Pc.inside, Pc.ownLock]
  | wakeup c i =>
    simp only [Sleeplock.running] at hst
    split at hst
    · next hi =>
      split at hst
      · next hip =>
        cases hst
        refine h.wakeup hpc fun q l _ hq => ?_
        obtain rfl : q = p := by
          rw [← hip]
          exact Fin.ext hq
        simp [State.Sleeper, hpc, hr]
      · split at hst
        · cases hst
        · next hlock =>
          cases hst
          exact h.wakeupSlot hpc (by simpa using hlock)
    · next hi =>
      cases c with
      | lock l =>
        cases hst
        refine ⟨h.spin.release ?_ ?_ ?_ ?_, (h.mutex.setLk none).goto ?_ ?_,
          (h.owed.setLk none).goto (fun q l' j hj hjq => ?_) ?_ ?_⟩
        case refine_7 =>
          simp only [State.setLk_pc, hpc] at hj
          cases hj
          exact absurd (hjq.trans_lt q.isLt) hi
        all_goals simp [hpc, Pc.inside, Pc.ownLock]
      | other a =>
        cases hst
        refine h.goto hpc rfl ?_ ?_ ?_ ?_ ?_ ?_ <;> simp [Pc.inside]
  | kill pid i =>
    simp only [Sleeplock.running] at hst
    split at hst
    · next hi =>
      split at hst
      · cases hst
      · split at hst
        · cases hst
          refine (h.modProc rfl fun hk => ?_).goto hpc rfl ?_ ?_ ?_ ?_ ?_ ?_
          · simp only [Proc.kill, Sched.kill] at hk
            split at hk
            · cases hk
            · next hne => exact absurd hk hne
          all_goals simp [Pc.inside]
        · cases hst
          refine h.goto hpc rfl ?_ ?_ ?_ ?_ ?_ ?_ <;> simp [Pc.inside]
    · cases hst
      refine h.goto hpc rfl ?_ ?_ ?_ ?_ ?_ ?_ <;> simp [Pc.inside]

theorem call (h : Inv s) (hpc : s.pc p = .user) {c : Call L} (hst : call s p c = .next s') : Inv s' := by
  cases c with
  | releasesleep l =>
    simp only [Sleeplock.call] at hst
    split at hst
    · next hl =>
      cases hst
      refine h.goto hpc rfl ?_ ?_ ?_ ?_ ?_ ?_ <;> simp [Pc.inside, hl]
    · cases hst
  | _ =>
    cases hst
    refine h.goto hpc rfl ?_ ?_ ?_ ?_ ?_ ?_ <;> simp [Pc.inside]

theorem sched {c : Chan L} (h : Inv s) (hpc : s.pc p = .sched c) :
    Inv ((s.modProc p fun q => { q with lock := false }).goto p (.asleep c)) := by
  refine ⟨h.spin.modOwn ?_ ?_, (h.mutex.modProc _).goto ?_ ?_, (h.owed.modProc ?_).goto ?_ ?_ ?_⟩
  all_goals simp +contextual [hpc, Pc.inside, Pc.ownLock, State.Sleeper]

theorem step {e : Action L} (h : Inv s) (hst : step s e = .next s') : Inv s' := by
  cases e with
  | call p c =>
    simp only [Sleeplock.step] at hst
    split at hst
    · next hp => exact h.call hp.2 hst
    · cases hst
  | go p =>
    simp only [Sleeplock.step] at hst
    split at hst
    · next c hpc =>
      cases hst
      exact h.sched hpc
    · split at hst
      · next hr => exact h.running rfl hr hst
      · cases hst
  | schedule p =>
    simp only [Sleeplock.step] at hst
    split at hst
    · next hp =>
      split at hst
      · next c hpc =>
        cases hst
        refine ⟨h.spin.modOwn ?_ ?_, (h.mutex.modProc _).goto ?_ ?_, (h.owed.modProc ?_).goto ?_ ?_ ?_⟩
        all_goals simp [hpc, Pc.inside, Pc.ownLock]
      · cases hst
        exact h.modProc rfl fun hs => by cases hs
    · cases hst
  | yield p =>
    simp only [Sleeplock.step] at hst
    split at hst
    · cases hst
      exact h.modProc rfl fun hs => by cases hs
    · cases hst

end Inv

/-! ## Whole runs -/

/-- After `initsleeplock`: every process is outside these functions, and nobody has a lock or sleeps on one. -/
structure Start (s : State L) : Prop where
  user : ∀ p, s.pc p = .user
  lock : ∀ l, s.lock l = initsleeplock
  own : ∀ p, (s.proc p).lock = false
  holds : ∀ p l, s.holds p l = false
  awake : ∀ p l, (s.proc p).state = .sleeping → (s.proc p).chan ≠ some (.lock l)

theorem Start.inv {s : State L} (h : Start s) : Inv s where
  spin := ⟨fun p => by rw [h.own, h.user]; rfl, fun l p => by simp [h.lock, h.user, initsleeplock, Pc.inside]⟩
  mutex :=
    have hno : ∀ p l, ¬s.Owns p l := fun p l hp => by simp [State.Owns, h.holds, h.user] at hp
    ⟨fun p l hp => absurd hp (hno p l), fun p _ l hp => absurd hp (hno p l), fun p l hp => by simp [h.user] at hp⟩
  owed := ⟨fun p l hp => by simp [State.Going, h.user] at hp, fun p l hp => by
    simp only [State.Sleeper, h.user, reduceCtorEq, false_or] at hp
    exact absurd hp.2 (h.awake p l hp.1)⟩

theorem run_inv {s₀ s : State L} {es : List (Action L)} (h : Run step anyAction s₀ es s) (h0 : Start s₀) : Inv s := by
  refine h.stateInvariant ?_ ?_
  · exact h0.inv
  · intro s e s' hi _ hst
    exact hi.step hst

/-- Two processes are never both between a returned `acquiresleep` and its `releasesleep`, and while `lk->lk` is
free a process sleeps on the lock only if it is taken. -/
theorem run_sleeplock {s₀ s : State L} {es : List (Action L)} (h0 : Start s₀) (h : Run step anyAction s₀ es s)
    (l : L) :
    (∀ p q, s.holds p l = true → s.holds q l = true → p = q) ∧
    ((s.lock l).lk = none → ∀ p, (s.proc p).state = .sleeping → (s.proc p).chan = some (.lock l) →
      (s.lock l).locked = true) := by
  have hi := run_inv h h0
  refine ⟨fun p q hp hq => hi.mutex.unique p q l (.inl hp) (.inl hq), fun hl p hs hc => ?_⟩
  rcases hi.owed.sleeper p l (.inr ⟨hs, hc⟩) with hl' | ⟨r, i, hr, -⟩
  · exact hl'
  · have := (hi.spin.holder l r).mpr (by rw [hr]; simp [Pc.inside])
    rw [hl] at this
    cases this

def twoRunning : State Unit where
  proc p := ⟨⟨if p.val < 2 then .running else .unused, none, false, BitVec.ofNat 32 p.val⟩, false⟩
  lock _ := initsleeplock
  pc _ := .user
  holds _ _ := false

theorem twoRunning_start : Start twoRunning :=
  ⟨fun _ => rfl, fun _ => rfl, fun _ => rfl, fun _ _ => rfl, fun _ _ _ h => by cases h⟩

def contended : List (Action Unit) :=
  [.call initproc (.acquiresleep ()), .go initproc, .go initproc, .go initproc,
    .call firstChild (.acquiresleep ())] ++ .replicate 6 (.go firstChild)

theorem contended_runs : (exec step contended twoRunning).check (fun s => s.holds initproc () &&
    (s.lock ()).lk.isNone && decide ((s.proc firstChild).state = .sleeping) &&
    decide ((s.proc firstChild).chan = some (.lock ()))) = true := by
  decide +kernel

theorem contended_waits : ∃ s, exec step contended twoRunning = .next s ∧ s.holds initproc () = true ∧
    (s.lock ()).lk = none ∧ (s.proc firstChild).state = .sleeping ∧ (s.lock ()).locked = true := by
  obtain ⟨s, hs, hcheck⟩ := exists_of_check _ _ _ _ contended_runs
  simp only [Bool.and_eq_true, decide_eq_true_eq, Option.isNone_iff_eq_none] at hcheck
  obtain ⟨⟨⟨hh, hl⟩, hst⟩, hc⟩ := hcheck
  have hrun := Run.of_exec (admitted_anyAction _ _) hs
  exact ⟨s, hs, hh, hl, hst, (run_sleeplock twoRunning_start hrun ()).2 hl firstChild hst hc⟩

end Xv6Boot.Kernel.Sleeplock
