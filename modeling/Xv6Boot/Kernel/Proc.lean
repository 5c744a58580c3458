import Xv6Boot.Foundations.Transition

/-! # `proc.c`: the process table

One action for each section under a `p->lock`, so that the loops over the table are interleaved slot by
slot. A section under `wait_lock` is a sequence of such actions of the process that holds it; `holder` says
who that is and where. Memory, files and the cpu contexts are left out. The fields of the state from
`serial` on are history: which process of all that were ever created a slot holds, the exits, what `wait`
has returned, and whether a `kill` has found the process of a slot.
-/

namespace Xv6Boot.Kernel.ProcTable
open Function Transition

def NPROC : ℕ := 64

abbrev Slot := Fin NPROC

theorem NPROC_pos : 0 < NPROC := by decide

inductive ProcState where
  | unused
  | used
  | sleeping
  | runnable
  | running
  | zombie
  deriving DecidableEq

/-- What processes sleep on: `wait` sleeps on the process itself, the rest of the kernel on other addresses. -/
inductive Chan where
  | proc (p : Slot)
  | addr (a : BitVec 64)
  deriving DecidableEq

/-- What `sleep`, `wakeup` and `kill` go by. -/
structure Sched (χ : Type) where
  state : ProcState
  chan : Option χ
  killed : Bool
  pid : BitVec 32
  deriving DecidableEq

structure Proc extends Sched Chan where
  xstate : BitVec 32
  parent : Option Slot
  deriving DecidableEq

/-- Where a process is, outside the sections under `wait_lock`. -/
inductive Pc where
  | user
  | forkScan (i : ℕ)
  | forkLink (np : Slot)
  | forkStart (np : Slot)
  | exitEnter (status : BitVec 32)
  | exited
  | waitEnter
  | inSleep
  | inWait
  | wakeScan (chan : BitVec 64) (j : ℕ)
  | killScan (pid : BitVec 32) (i : ℕ)
  deriving DecidableEq

/-- Where the holder of `wait_lock` is. -/
inductive Crit where
  | reparent (status : BitVec 32) (i : ℕ)
  | wakeInit (status : BitVec 32) (i j : ℕ)
  | wakeParent (status : BitVec 32) (j : ℕ)
  | zombify (status : BitVec 32)
  | waitScan (i : ℕ) (havekids : Bool)
  | waitCheck (havekids : Bool)
  | waitSleep
  deriving DecidableEq

structure Exit where
  serial : ℕ
  pid : BitVec 32
  status : BitVec 32

/-- What a `wait` returned, to whom, and who was the parent. -/
structure Reap extends Exit where
  reaper : Slot
  parent : Option Slot

structure State where
  proc : Slot → Proc
  pc : Slot → Pc
  holder : Option (Slot × Crit)
  nextpid : BitVec 32
  serial : Slot → ℕ
  created : ℕ
  exits : List Exit
  reaps : List Reap
  named : Slot → Bool

/-- System calls, and the two ways other kernel code uses the table. -/
inductive Call where
  | fork
  | exit (status : BitVec 32)
  | wait
  | sleep (chan : BitVec 64)
  | wakeup (chan : BitVec 64)
  | kill (pid : BitVec 32)

/-- `go` is the next section of a process; `fail` says that an allocation or a `copyout` in it fails. -/
inductive Action where
  | call (p : Slot) (c : Call)
  | go (p : Slot) (fail : Bool)
  | schedule (p : Slot)
  | yield (p : Slot)

/-! ## One slot -/

def freeproc (p : Proc) : Proc :=
  { p with pid := 0, parent := none, chan := none, killed := false, xstate := 0, state := .unused }

/-- The body of the loop of `wakeup`. -/
def Sched.wakeup {χ : Type} [DecidableEq χ] (chan : Option χ) (p : Sched χ) : Sched χ :=
  if p.state = .sleeping ∧ p.chan = chan then { p with state := .runnable } else p

/-- What `kill` does to the slot with its pid. -/
def Sched.kill {χ : Type} (p : Sched χ) : Sched χ :=
  { p with killed := true, state := if p.state = .sleeping then .runnable else p.state }

def wakeupProc (chan : Option Chan) (p : Proc) : Proc := { p with toSched := p.wakeup chan }

def killProc (p : Proc) : Proc := { p with toSched := p.kill }

theorem wakeupProc_eq (chan : Option Chan) (p : Proc) :
    wakeupProc chan p = if p.state = .sleeping ∧ p.chan = chan then { p with state := .runnable } else p := by
  unfold wakeupProc Sched.wakeup
  split <;> rfl

/-! ## The table -/

def initproc : Slot := ⟨0, NPROC_pos⟩

/-- The slot the first `fork` finds. -/
def firstChild : Slot := ⟨1, by decide⟩

namespace State
variable (s : State)

def modProc (q : Slot) (f : Proc → Proc) : State := { s with proc := update s.proc q (f (s.proc q)) }

def goto (p : Slot) (c : Pc) : State := { s with pc := update s.pc p c }

def release : State := { s with holder := none }

/-- Takes or keeps `wait_lock`. -/
def enter (p : Slot) (c : Crit) : State := { s with holder := some (p, c) }

def Holds (p : Slot) : Prop := ∃ c, s.holder = some (p, c)

instance (p : Slot) : Decidable (s.Holds p) :=
  match h : s.holder with
  | none => isFalse (by simp [Holds, h])
  | some (q, c) => decidable_of_iff (q = p) (by simp [Holds, h])

/-- `wakeup` passes over the process that calls it. -/
def wakeupSlot (p q : Slot) (chan : Option Chan) : State := if q ≠ p then s.modProc q (wakeupProc chan) else s

/-- The section of `allocproc` and `fork` that fills an unused slot. -/
def create (np : Slot) : State :=
  { s with
    proc := update s.proc np { s.proc np with pid := s.nextpid, state := .used }
    pc := update s.pc np .user
    nextpid := s.nextpid + 1
    serial := update s.serial np s.created
    created := s.created + 1
    named := update s.named np false }

end State

/-- All slots unused but that of `init`, as `userinit` leaves them. -/
def boot : State where
  proc := update (fun _ => ⟨⟨.unused, none, false, 0⟩, 0, none⟩) initproc ⟨⟨.runnable, none, false, 1⟩, 0, none⟩
  pc := fun _ => .user
  holder := none
  nextpid := 2
  serial := fun _ => 0
  created := 1
  exits := []
  reaps := []
  named := fun _ => false

section Fields
variable (s : State) (p q r : Slot) (f : Proc → Proc) (c : Pc) (k : Crit) (chan : Option Chan)

theorem State.modProc_proc : (s.modProc q f).proc r = if r = q then f (s.proc q) else s.proc r :=
  update_apply _ _ _ _

@[simp] theorem State.modProc_self : (s.modProc q f).proc q = f (s.proc q) := update_self _ _ _

@[simp] theorem State.modProc_pc : (s.modProc q f).pc = s.pc := rfl

@[simp] theorem State.modProc_holder : (s.modProc q f).holder = s.holder := rfl

@[simp] theorem State.goto_proc : (s.goto p c).proc = s.proc := rfl

theorem State.goto_pc : (s.goto p c).pc r = if r = p then c else s.pc r := update_apply _ _ _ _

@[simp] theorem State.goto_holder : (s.goto p c).holder = s.holder := rfl

@[simp] theorem State.enter_proc : (s.enter p k).proc = s.proc := rfl

@[simp] theorem State.enter_pc : (s.enter p k).pc = s.pc := rfl

@[simp] theorem State.enter_holder : (s.enter p k).holder = some (p, k) := rfl

@[simp] theorem State.release_proc : s.release.proc = s.proc := rfl

@[simp] theorem State.release_pc : s.release.pc = s.pc := rfl

@[simp] theorem State.release_holder : s.release.holder = none := rfl

end Fields

theorem boot_proc_init : boot.proc initproc = ⟨⟨.runnable, none, false, 1⟩, 0, none⟩ := by simp [boot]

theorem boot_proc_ne {q : Slot} (h : q ≠ initproc) : boot.proc q = ⟨⟨.unused, none, false, 0⟩, 0, none⟩ := by
  simp [boot, h]

/-! ## Sections under `wait_lock` -/

def critStep (p : Slot) (fail : Bool) (s : State) : Crit → State
  | .reparent st i =>
    if h : i < NPROC then
      if (s.proc ⟨i, h⟩).parent = some p then
        (s.modProc ⟨i, h⟩ fun pp => { pp with parent := some initproc }).enter p (.wakeInit st i 0)
      else s.enter p (.reparent st (i + 1))
    else s.enter p (.wakeParent st 0)
  | .wakeInit st i j =>
    if h : j < NPROC then
      (s.wakeupSlot p ⟨j, h⟩ (some (.proc initproc))).enter p (.wakeInit st i (j + 1))
    else s.enter p (.reparent st (i + 1))
  | .wakeParent st j =>
    if h : j < NPROC then
      (s.wakeupSlot p ⟨j, h⟩ ((s.proc p).parent.map .proc)).enter p (.wakeParent st (j + 1))
    else s.enter p (.zombify st)
  | .zombify st =>
    { (((s.modProc p fun q => { q with xstate := st, state := .zombie }).goto p .exited).release) with
      exits := s.exits ++ [⟨s.serial p, (s.proc p).pid, st⟩] }
  | .waitScan i havekids =>
    if h : i < NPROC then
      if (s.proc ⟨i, h⟩).parent = some p then
        if (s.proc ⟨i, h⟩).state = .zombie then
          if fail then (s.goto p .user).release
          else
            { (((s.modProc ⟨i, h⟩ freeproc).goto p .user).release) with
              reaps := s.reaps ++ [⟨⟨s.serial ⟨i, h⟩, (s.proc ⟨i, h⟩).pid, (s.proc ⟨i, h⟩).xstate⟩, p,
                (s.proc ⟨i, h⟩).parent⟩] }
        else s.enter p (.waitScan (i + 1) true)
      else s.enter p (.waitScan (i + 1) havekids)
    else s.enter p (.waitCheck havekids)
  | .waitCheck havekids =>
    if !havekids || (s.proc p).killed then (s.goto p .user).release else s.enter p .waitSleep
  | .waitSleep =>
    ((s.modProc p fun q => { q with chan := some (.proc p), state := .sleeping }).goto p .inWait).release

/-! ## Everything else -/

def pcStep (p : Slot) (fail : Bool) (s : State) : Pc → Outcome State
  | .forkScan i =>
    if h : i < NPROC then
      if (s.proc ⟨i, h⟩).state = .unused then
        if fail then .next (((s.create ⟨i, h⟩).modProc ⟨i, h⟩ freeproc).goto p .user)
        else .next ((s.create ⟨i, h⟩).goto p (.forkLink ⟨i, h⟩))
      else .next (s.goto p (.forkScan (i + 1)))
    else .next (s.goto p .user)
  | .forkLink np =>
    if s.holder = none then
      .next ((s.modProc np fun q => { q with parent := some p }).goto p (.forkStart np))
    else .disabled
  | .forkStart np => .next ((s.modProc np fun q => { q with state := .runnable }).goto p .user)
  | .exitEnter st => if s.holder = none then .next (s.enter p (.reparent st 0)) else .disabled
  | .waitEnter => if s.holder = none then .next (s.enter p (.waitScan 0 false)) else .disabled
  | .wakeScan chan j =>
    if h : j < NPROC then
      .next ((s.wakeupSlot p ⟨j, h⟩ (some (.addr chan))).goto p (.wakeScan chan (j + 1)))
    else .next (s.goto p .user)
  | .killScan pid i =>
    if h : i < NPROC then
      if (s.proc ⟨i, h⟩).pid = pid then
        .next { ((s.modProc ⟨i, h⟩ killProc).goto p .user) with named := update s.named ⟨i, h⟩ true }
      else .next (s.goto p (.killScan pid (i + 1)))
    else .next (s.goto p .user)
  | .user | .exited | .inSleep | .inWait => .disabled

def callStep (p : Slot) (s : State) : Call → Outcome State
  | .fork => .next (s.goto p (.forkScan 0))
  | .exit st => if p = initproc then .panic "init exiting" else .next (s.goto p (.exitEnter st))
  | .wait => .next (s.goto p .waitEnter)
  | .sleep chan =>
    .next ((s.modProc p fun q => { q with chan := some (.addr chan), state := .sleeping }).goto p .inSleep)
  | .wakeup chan => .next (s.goto p (.wakeScan chan 0))
  | .kill pid => .next (s.goto p (.killScan pid 0))

/-- Where `sleep` returns to when the scheduler has picked the process. -/
def Pc.resume : Pc → Pc
  | .inSleep => .user
  | .inWait => .waitEnter
  | c => c

def step (s : State) : Action → Outcome State
  | .call p c => if (s.proc p).state = .running ∧ s.pc p = .user then callStep p s c else .disabled
  | .go p fail =>
    if (s.proc p).state = .running then
      match s.holder with
      | some (q, c) => if q = p then .next (critStep p fail s c) else pcStep p fail s (s.pc p)
      | none => pcStep p fail s (s.pc p)
    else .disabled
  | .schedule p =>
    if (s.proc p).state = .runnable then
      -- `p->chan = 0` in `sleep` is in the same section.
      .next ((s.modProc p fun q => { q with chan := none, state := .running }).goto p (s.pc p).resume)
    else .disabled
  | .yield p =>
    if (s.proc p).state = .running ∧ ¬ s.Holds p then
      .next (s.modProc p fun q => { q with state := .runnable })
    else .disabled

/-! ## What a step can do -/

inductive StepCases (s : State) : Action → State → Prop
  | call (p : Slot) (c : Call) (s' : State) (hrun : (s.proc p).state = .running) (hpc : s.pc p = .user)
      (h : callStep p s c = .next s') : StepCases s (.call p c) s'
  | crit (p : Slot) (fail : Bool) (c : Crit) (hrun : (s.proc p).state = .running) (hh : s.holder = some (p, c)) :
      StepCases s (.go p fail) (critStep p fail s c)
  | go (p : Slot) (fail : Bool) (s' : State) (hrun : (s.proc p).state = .running) (hh : ¬ s.Holds p)
      (h : pcStep p fail s (s.pc p) = .next s') : StepCases s (.go p fail) s'
  | schedule (p : Slot) (hst : (s.proc p).state = .runnable) : StepCases s (.schedule p)
      ((s.modProc p fun q => { q with chan := none, state := .running }).goto p (s.pc p).resume)
  | yield (p : Slot) (hrun : (s.proc p).state = .running) (hh : ¬ s.Holds p) :
      StepCases s (.yield p) (s.modProc p fun q => { q with state := .runnable })

theorem step_cases {s s' : State} {e : Action} (h : step s e = .next s') : StepCases s e s' := by
  cases e with
  | call p c =>
    simp only [step] at h
    split at h
    · rename_i hc
      exact .call p c s' hc.1 hc.2 h
    · cases h
  | go p fail =>
    simp only [step] at h
    split at h
    · rename_i hrun
      split at h
      · rename_i q c hh
        split at h
        · rename_i hq
          subst hq
          cases h
          exact .crit q fail c hrun hh
        · rename_i hq
          exact .go p fail s' hrun (by simp [State.Holds, hh, hq]) h
      · rename_i hh
        exact .go p fail s' hrun (by simp [State.Holds, hh]) h
    · cases h
  | schedule p =>
    simp only [step] at h
    split at h
    · rename_i hst
      cases h
      exact .schedule p hst
    · cases h
  | yield p =>
    simp only [step] at h
    split at h
    · rename_i hc
      cases h
      exact .yield p hc.1 hc.2
    · cases h

end Xv6Boot.Kernel.ProcTable
