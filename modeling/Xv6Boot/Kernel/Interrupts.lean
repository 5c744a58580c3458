import Xv6Boot.Kernel.Proc

/-! # `push_off`, `pop_off` and `sched`

The kernel threads of processes and the schedulers of the CPUs. `acquire` and `release` are taken apart: an action is
`intr_get` of `push_off`, the rest of `push_off`, the end of `acquire`, the start of `release`, or `pop_off`, so that an
interrupt can come between the first two. What a process's thread does with these is not fixed; a scheduler follows its
loop, except in an interrupt handler. Returning to user space and coming back are `intr_on` and `intr_off` of the thread.
-/

namespace Xv6Boot.Kernel.Interrupts
open Function Transition ProcTable
/-! ## The state -/

/-- `struct cpu`, and the bit of `sstatus` that enables interrupts. -/
structure Hart where
  intr : Bool
  noff : ℕ
  intena : Bool
  proc : Option Slot
  deriving DecidableEq

/-- A kernel thread. `old` is the local variable of a `push_off` that has not turned interrupts off yet, `frames` are
those of the code that its interrupts have interrupted, and `resume` is `intena` of a `sched` that has just been switched
back to. `depth` counts the calls of `push_off` that no `pop_off` has undone, and `entry` is whether the first of these
has found interrupts enabled. -/
structure Task where
  old : Option Bool
  frames : List (Option Bool)
  resume : Option Bool
  depth : ℕ
  entry : Bool
  deriving DecidableEq

/-- Where a process that is not running continues: at its start, or in `sched`. -/
inductive Context where
  | forkret
  | sched (intena : Bool)
  deriving DecidableEq

/-- Where a scheduler is in its loop. -/
inductive Pc where
  | loop
  | pushed
  | chosen (p : Slot)
  | away (p : Slot)
  | returned (p : Slot)
  | dropped
  deriving DecidableEq

inductive Lock (L : Type) where
  | proc (p : Slot)
  | other (l : L)
  deriving DecidableEq

inductive Thread (C : Type) where
  | scheduler (c : C)
  | proc (p : Slot)
  deriving DecidableEq

structure State (C L : Type) where
  cpu : C → Hart
  task : Thread C → Task
  pc : C → Pc
  state : Slot → ProcState
  context : Slot → Context
  /-- `lk->cpu` while `lk->locked` -/
  held : Lock L → Option C

variable {C L : Type}

section Machine
variable [DecidableEq C]

namespace State
variable (s : State C L)

def thread (c : C) : Thread C :=
  match (s.cpu c).proc with
  | none => .scheduler c
  | some p => .proc p

def set (c : C) (h : Hart) (t : Task) : State C L :=
  { s with cpu := update s.cpu c h, task := update s.task (s.thread c) t }

def goto (c : C) (pc : Pc) : State C L := { s with pc := update s.pc c pc }

def setHeld [DecidableEq L] (l : Lock L) (o : Option C) : State C L := { s with held := update s.held l o }

def setState (p : Slot) (st : ProcState) : State C L := { s with state := update s.state p st }

def inLoop (c : C) : Bool := (s.cpu c).proc.isNone && (s.task (.scheduler c)).frames.isEmpty

end State

/-! ## What a thread does -/

/-- `push_off` after `old = intr_get()` -/
def pushOff (h : Hart) (t : Task) (old : Bool) : Hart × Task :=
  ({ h with intr := false, intena := if h.noff = 0 then old else h.intena, noff := h.noff + 1 },
    { t with old := none, depth := t.depth + 1, entry := if t.depth = 0 then h.intr else t.entry })

def popOff (h : Hart) (t : Task) : Outcome (Hart × Task) :=
  if h.intr then .panic "pop_off - interruptible"
  else if h.noff < 1 then .panic "pop_off"
  else
    let noff := h.noff - 1
    .next ({ h with noff, intr := if noff = 0 ∧ h.intena = true then true else h.intr }, { t with depth := t.depth - 1 })

/-- Neither in the middle of `push_off` nor of `sched`. -/
def Task.ready (t : Task) : Bool := t.old.isNone && t.resume.isNone

inductive Op where
  /-- `old = intr_get()` of `push_off` -/
  | getIntr
  | pushOff
  | popOff
  | intrOn
  | intrOff
  | trap
  | trapRet
  /-- `mycpu()->intena = intena` of `sched` -/
  | restore
  deriving DecidableEq

def turn (h : Hart) (t : Task) : Op → Outcome (Hart × Task)
  | .getIntr => if t.ready then .next (h, { t with old := some h.intr }) else .disabled
  | .pushOff =>
    match t.old with
    | none => .disabled
    | some old => .next (pushOff h t old)
  | .popOff => if t.ready then popOff h t else .disabled
  | .intrOn => if t.ready then .next ({ h with intr := true }, t) else .disabled
  | .intrOff => if t.ready then .next ({ h with intr := false }, t) else .disabled
  | .trap =>
    if h.intr then .next ({ h with intr := false }, { t with old := none, frames := t.old :: t.frames }) else .disabled
  | .trapRet =>
    match t.frames with
    | [] => .disabled
    | f :: fs => if t.ready then .next ({ h with intr := true }, { t with old := f, frames := fs }) else .disabled
  | .restore =>
    match t.resume with
    | none => .disabled
    | some intena => .next ({ h with intena }, { t with resume := none })

/-- Threads are balanced: no `pop_off` without a `push_off` of the same thread; interrupts are enabled and disabled by
hand, and interrupt handlers return, only outside of these. -/
def Op.Balanced (t : Task) : Op → Prop
  | .popOff => 0 < t.depth
  | .intrOn | .intrOff | .trapRet => t.depth = 0
  | _ => True

/-! ## The system -/

inductive Action (C L : Type) where
  | op (c : C) (o : Op)
  /-- The end of `acquire` -/
  | take (c : C) (l : Lock L)
  /-- `release` before `pop_off` -/
  | drop (c : C) (l : Lock L)
  /-- A process's state is changed by the holder of its lock: `allocproc`, `fork`, `wakeup` and `kill`, `freeproc`. -/
  | mark (c : C) (q : Slot) (st : ProcState)
  /-- `p->state = st; sched()` -/
  | sched (c : C) (st : ProcState)
  /-- The scheduler's `swtch` -/
  | swtch (c : C)

def Action.cpu : Action C L → C
  | .op c _ | .take c _ | .drop c _ | .mark c _ _ | .sched c _ | .swtch c => c

def mayMark : ProcState → ProcState → Bool
  | .unused, .used | .used, .runnable | .sleeping, .runnable | .used, .unused | .zombie, .unused => true
  | _, _ => false

def advance : Pc → Action C L → Option Pc
  | pc, .op _ .trap => some pc
  | .loop, .op _ .getIntr | .loop, .op _ .intrOn => some .loop
  | .loop, .op _ .pushOff => some .pushed
  | .pushed, .take _ (.proc p) => some (.chosen p)
  | .chosen p, .swtch _ => some (.away p)
  | .chosen p, .drop _ (.proc q) | .returned p, .drop _ (.proc q) => if q = p then some .dropped else none
  | .dropped, .op _ .popOff => some .loop
  | _, _ => none

def State.follow (s : State C L) (e : Action C L) : Option Pc :=
  if s.inLoop e.cpu then advance (s.pc e.cpu) e else some (s.pc e.cpu)

/-- `p->state = st; sched()`, up to `swtch` -/
def State.sched (s : State C L) (c : C) (p : Slot) (st : ProcState) : Outcome (State C L) :=
  if (s.task (.proc p)).ready = false then .disabled
  else if s.held (.proc p) ≠ some c then .panic "sched p->lock"
  else if (s.cpu c).noff ≠ 1 then .panic "sched locks"
  else if st = .running then .panic "sched running"
  else if (s.cpu c).intr then .panic "sched interruptible"
  else .next { (s.setState p st).goto c (.returned p) with
    context := update s.context p (.sched (s.cpu c).intena)
    cpu := update s.cpu c { s.cpu c with proc := none } }

def State.resumed (s : State C L) (c : C) (p : Slot) : Task :=
  match s.context p with
  | .forkret => ⟨none, [], none, 1, (s.task (.scheduler c)).entry⟩
  | .sched intena => { s.task (.proc p) with resume := some intena }

/-- `p->state = RUNNING; c->proc = p;` and `swtch` of the scheduler -/
def State.swtch (s : State C L) (c : C) (p : Slot) : Outcome (State C L) :=
  if (s.task (.scheduler c)).ready = true ∧ s.state p = .runnable then
    .next { s.setState p .running with
      cpu := update s.cpu c { s.cpu c with proc := some p }
      task := update s.task (.proc p) (s.resumed c p) }
  else .disabled

def perform [DecidableEq L] (s : State C L) : Action C L → Outcome (State C L)
  | .op c o => (turn (s.cpu c) (s.task (s.thread c)) o).map fun r => s.set c r.1 r.2
  | .take c l =>
    if (s.task (s.thread c)).ready then
      if s.held l = some c then .panic "acquire"
      else if s.held l = none then .next (s.setHeld l (some c)) else .disabled
    else .disabled
  | .drop c l =>
    if (s.task (s.thread c)).ready then
      if s.held l = some c then .next (s.setHeld l none) else .panic "release"
    else .disabled
  | .mark c q st =>
    if (s.task (s.thread c)).ready ∧ s.held (.proc q) = some c ∧ mayMark (s.state q) st then
      .next { s.setState q st with context := if st = .used then update s.context q .forkret else s.context }
    else .disabled
  | .sched c st =>
    match (s.cpu c).proc with
    | none => .disabled
    | some p => s.sched c p st
  | .swtch c =>
    match (s.cpu c).proc, s.pc c with
    | none, .away p => s.swtch c p
    | _, _ => .disabled

def step [DecidableEq L] (s : State C L) (e : Action C L) : Outcome (State C L) :=
  match s.follow e with
  | none => .disabled
  | some pc => perform (s.goto e.cpu pc) e

def Balanced (s : State C L) : Action C L → Prop
  | .op c o => o.Balanced (s.task (s.thread c))
  | _ => True

instance (t : Task) : DecidablePred (Op.Balanced t)
  | .popOff => inferInstanceAs (Decidable (_ < _))
  | .intrOn | .intrOff | .trapRet => inferInstanceAs (Decidable (_ = _))
  | .getIntr | .pushOff | .trap | .restore => .isTrue trivial

instance (s : State C L) : DecidablePred (Balanced s)
  | .op _ o => inferInstanceAs (Decidable (o.Balanced _))
  | .take _ _ | .drop _ _ | .mark _ _ _ | .sched _ _ | .swtch _ => .isTrue trivial

/-- Every CPU is at the start of `scheduler`, and `userinit` has made some processes runnable. -/
def boot (runnable : Slot → Bool) : State C L where
  cpu _ := ⟨false, 0, false, none⟩
  task _ := ⟨none, [], none, 0, false⟩
  pc _ := .loop
  state p := if runnable p then .runnable else .unused
  context _ := .forkret
  held _ := none

end Machine

/-! ## One thread on one CPU -/

/-- The CPU and the thread that runs on it agree. -/
structure Sound (h : Hart) (t : Task) : Prop where
  noff : h.noff = t.depth
  off : 0 < t.depth → h.intr = false
  old : ∀ b, t.old = some b → b = h.intr
  frames : some false ∉ t.frames

/-- A process's thread keeps what its first `push_off` has found. -/
structure Kept (h : Hart) (t : Task) : Prop where
  intena : t.resume = none → 0 < t.depth → h.intena = t.entry
  resume : ∀ b, t.resume = some b → b = t.entry ∧ t.depth = 1 ∧ t.old = none

/-- A scheduler's thread. -/
structure Loops (pc : Pc) (h : Hart) (t : Task) : Prop where
  resume : t.resume = none
  out : pc ≠ .loop → t.old = none ∧ t.frames = [] ∧ t.depth = 1
  top : pc = .loop → t.frames = [] → t.depth = 0
  intena : pc = .pushed ∨ (∃ p, pc = .chosen p) → h.intena = t.entry

section Local
variable {h h' : Hart} {t t' : Task} {pc : Pc} {b : Bool}

theorem Sound.getIntr (hs : Sound h t) : Sound h { t with old := some h.intr } :=
  ⟨hs.noff, hs.off, fun _ hb => (Option.some.inj hb).symm, hs.frames⟩

theorem Sound.pushOff (hs : Sound h t) (old : Bool) : Sound (pushOff h t old).1 (pushOff h t old).2 :=
  ⟨congrArg (· + 1) hs.noff, fun _ => rfl, fun _ hb => absurd hb (by simp [Interrupts.pushOff]), hs.frames⟩

theorem Kept.pushOff (hk : Kept h t) (hs : Sound h t) (hold : t.old = some b) :
    Kept (pushOff h t b).1 (pushOff h t b).2 := by
  have hresume : t.resume = none := by
    cases hr : t.resume with
    | none => rfl
    | some b' => rw [(hk.resume b' hr).2.2] at hold; cases hold
  refine ⟨fun _ _ => ?_, fun b' hb' => ?_⟩
  · simp only [Interrupts.pushOff, hs.noff]
    split
    · exact hs.old b hold
    · exact hk.intena hresume (by omega)
  · rw [show (Interrupts.pushOff h t b).2.resume = t.resume from rfl, hresume] at hb'
    cases hb'

theorem Sound.popOff (hs : Sound h t) (hpos : 0 < t.depth) (hold : t.old = none) :
    ∃ h', popOff h t = .next (h', { t with depth := t.depth - 1 }) ∧ Sound h' { t with depth := t.depth - 1 } ∧
      h'.intena = h.intena ∧ h'.proc = h.proc ∧ (t.depth = 1 → h'.intr = h.intena) := by
  have hoff := hs.off hpos
  have hnoff := hs.noff
  refine ⟨{ h with noff := h.noff - 1, intr := if h.noff - 1 = 0 ∧ h.intena = true then true else false }, ?_,
    ⟨congrArg (· - 1) hs.noff, ?_, ?_, hs.frames⟩, rfl, rfl, ?_⟩
  · rw [Interrupts.popOff, hoff, if_neg (by decide), if_neg (by omega)]
  · intro hdepth
    have hdepth' : 0 < t.depth - 1 := hdepth
    exact if_neg (by omega)
  · intro b hb
    rw [show ({ t with depth := t.depth - 1 } : Task).old = t.old from rfl, hold] at hb
    cases hb
  · intro hone
    have hzero : h.noff - 1 = 0 := by omega
    simp only [hzero, true_and]
    cases h.intena <;> rfl

theorem Kept.popOff (hk : Kept h t) (hresume : t.resume = none) (hintena : h'.intena = h.intena) :
    Kept h' { t with depth := t.depth - 1 } := by
  refine ⟨fun _ hpos => ?_, fun b hb => ?_⟩
  · have hpos' : 0 < t.depth - 1 := hpos
    rw [hintena]
    exact hk.intena hresume (by omega)
  · rw [show ({ t with depth := t.depth - 1 } : Task).resume = t.resume from rfl, hresume] at hb
    cases hb

theorem Sound.setIntr (hs : Sound h t) (hdepth : t.depth = 0) (hold : t.old = none) (b : Bool) :
    Sound { h with intr := b } t :=
  ⟨hs.noff, fun hpos => absurd hpos (by omega), fun b hb => absurd hb (by simp [hold]), hs.frames⟩

theorem Sound.depth_of_intr (hs : Sound h t) (hintr : h.intr = true) : t.depth = 0 := by
  by_contra hne
  rw [hs.off (by omega)] at hintr
  cases hintr

theorem Sound.trap (hs : Sound h t) (hintr : h.intr = true) :
    Sound { h with intr := false } { t with old := none, frames := t.old :: t.frames } := by
  refine ⟨hs.noff, fun _ => rfl, fun b hb => (by cases hb), ?_⟩
  intro hmem
  rcases List.mem_cons.mp hmem with hold | hmem
  · rw [← hs.old false hold.symm] at hintr
    cases hintr
  · exact hs.frames hmem

theorem Sound.trapRet {f : Option Bool} {fs : List (Option Bool)} (hs : Sound h t) (hdepth : t.depth = 0)
    (hframes : t.frames = f :: fs) : Sound { h with intr := true } { t with old := f, frames := fs } := by
  have hnot := hs.frames
  rw [hframes, List.mem_cons, not_or] at hnot
  refine ⟨hs.noff, fun hpos => absurd hpos (by simp [hdepth]), fun b hb => ?_, hnot.2⟩
  have hf : f = some b := hb
  cases b with
  | true => rfl
  | false => exact absurd hf.symm hnot.1

theorem Kept.congr (hk : Kept h t) (hresume : t.resume = none) (hintena : h'.intena = h.intena)
    (hresume' : t'.resume = t.resume) (hdepth : t'.depth = t.depth) (hentry : t'.entry = t.entry) : Kept h' t' := by
  refine ⟨fun _ hpos => ?_, fun b hb => ?_⟩
  · rw [hintena, hentry]
    exact hk.intena hresume (hdepth ▸ hpos)
  · rw [hresume', hresume] at hb
    cases hb

theorem Kept.resume_of_depth (hk : Kept h t) (hdepth : t.depth = 0) : t.resume = none := by
  cases hr : t.resume with
  | none => rfl
  | some b =>
    have := (hk.resume b hr).2.1
    omega

theorem ready_iff : t.ready = true ↔ t.old = none ∧ t.resume = none := by simp [Task.ready]

/-- What each operation does. -/
inductive Turned (h : Hart) (t : Task) : Op → Hart → Task → Prop where
  | getIntr : t.ready = true → Turned h t .getIntr h { t with old := some h.intr }
  | pushOff {old : Bool} : t.old = some old → Turned h t .pushOff (pushOff h t old).1 (pushOff h t old).2
  | popOff {h' : Hart} {t' : Task} : t.ready = true → popOff h t = .next (h', t') → Turned h t .popOff h' t'
  | intrOn : t.ready = true → Turned h t .intrOn { h with intr := true } t
  | intrOff : t.ready = true → Turned h t .intrOff { h with intr := false } t
  | trap : h.intr = true → Turned h t .trap { h with intr := false } { t with old := none, frames := t.old :: t.frames }
  | trapRet {f : Option Bool} {fs : List (Option Bool)} : t.frames = f :: fs → t.ready = true →
      Turned h t .trapRet { h with intr := true } { t with old := f, frames := fs }
  | restore {intena : Bool} : t.resume = some intena → Turned h t .restore { h with intena } { t with resume := none }

theorem turn_next {o : Op} {r : Hart × Task} (hturn : turn h t o = .next r) : Turned h t o r.1 r.2 := by
  unfold turn at hturn
  split at hturn
  · split at hturn
    · next hready =>
      cases hturn
      exact .getIntr hready
    · cases hturn
  · split at hturn
    · cases hturn
    · next old hold =>
      cases hturn
      exact .pushOff hold
  · split at hturn
    · next hready => exact .popOff hready hturn
    · cases hturn
  · split at hturn
    · next hready =>
      cases hturn
      exact .intrOn hready
    · cases hturn
  · split at hturn
    · next hready =>
      cases hturn
      exact .intrOff hready
    · cases hturn
  · split at hturn
    · next hintr =>
      cases hturn
      exact .trap hintr
    · cases hturn
  · split at hturn
    · cases hturn
    · next f fs hframes =>
      split at hturn
      · next hready =>
        cases hturn
        exact .trapRet hframes hready
      · cases hturn
  · split at hturn
    · cases hturn
    · next intena hresume =>
      cases hturn
      exact .restore hresume

section Turn
variable {o : Op} (hturn : Turned h t o h' t')
include hturn

theorem Sound.turn (hs : Sound h t) (hb : o.Balanced t) : Sound h' t' ∧ h'.proc = h.proc := by
  cases hturn with
  | getIntr => exact ⟨hs.getIntr, rfl⟩
  | pushOff => exact ⟨hs.pushOff _, rfl⟩
  | popOff hready hpop =>
    obtain ⟨_, hpop', hs', -, hproc, -⟩ := hs.popOff hb (ready_iff.mp hready).1
    rw [hpop'] at hpop
    cases hpop
    exact ⟨hs', hproc⟩
  | intrOn hready | intrOff hready => exact ⟨hs.setIntr hb (ready_iff.mp hready).1 _, rfl⟩
  | trap hintr => exact ⟨hs.trap hintr, rfl⟩
  | trapRet hframes => exact ⟨hs.trapRet hb hframes, rfl⟩
  | restore => exact ⟨⟨hs.noff, hs.off, hs.old, hs.frames⟩, rfl⟩

theorem Kept.turn (hk : Kept h t) (hs : Sound h t) (hb : o.Balanced t) : Kept h' t' := by
  cases hturn with
  | getIntr hready => exact hk.congr (ready_iff.mp hready).2 rfl rfl rfl rfl
  | pushOff hold => exact hk.pushOff hs hold
  | popOff hready hpop =>
    obtain ⟨hold, hresume⟩ := ready_iff.mp hready
    obtain ⟨_, hpop', -, hintena, -⟩ := hs.popOff hb hold
    rw [hpop'] at hpop
    cases hpop
    exact hk.popOff hresume hintena
  | intrOn | intrOff | trapRet => exact hk.congr (hk.resume_of_depth hb) rfl rfl rfl rfl
  | trap hintr => exact hk.congr (hk.resume_of_depth (hs.depth_of_intr hintr)) rfl rfl rfl rfl
  | restore hresume => exact ⟨fun _ _ => (hk.resume _ hresume).1, fun b hb => (by cases hb)⟩

end Turn

theorem advance_op {o : Op} {c : C} {pc' : Pc} (ha : advance pc (.op c o : Action C L) = some pc') :
    (o = .trap ∧ pc' = pc) ∨ ((o = .getIntr ∨ o = .intrOn) ∧ pc = .loop ∧ pc' = .loop) ∨
      (o = .pushOff ∧ pc = .loop ∧ pc' = .pushed) ∨ (o = .popOff ∧ pc = .dropped ∧ pc' = .loop) := by
  cases o <;> cases pc <;> simp_all [advance]

theorem Loops.atTop (hresume : t.resume = none) (htop : t.frames = [] → t.depth = 0) : Loops .loop h t :=
  ⟨hresume, fun hne => absurd rfl hne, fun _ => htop, fun hpc => absurd hpc (by simp)⟩

theorem Loops.turn_handler {o : Op} (hl : Loops .loop h t) (hturn : Turned h t o h' t') (hs : Sound h t)
    (hb : o.Balanced t) (hframes : t.frames ≠ []) : Loops .loop h' t' := by
  cases hturn with
  | getIntr | pushOff | intrOn | intrOff => exact .atTop hl.resume fun h0 => absurd h0 hframes
  | popOff hready hpop =>
    obtain ⟨_, hpop', -⟩ := hs.popOff hb (ready_iff.mp hready).1
    rw [hpop'] at hpop
    cases hpop
    exact .atTop hl.resume fun h0 => absurd h0 hframes
  | trap => exact .atTop hl.resume fun h0 => absurd h0 (List.cons_ne_nil _ _)
  | trapRet => exact .atTop hl.resume fun _ => hb
  | restore hresume =>
    rw [hl.resume] at hresume
    cases hresume

theorem Loops.turn_loop {o : Op} {c : C} {pc' : Pc} (hl : Loops pc h t) (hturn : Turned h t o h' t') (hs : Sound h t)
    (hb : o.Balanced t) (hframes : t.frames = []) (ha : advance pc (.op c o : Action C L) = some pc') :
    Loops pc' h' t' ∧ ∀ p, pc' ≠ .away p := by
  rcases advance_op ha with ⟨rfl, rfl⟩ | ⟨rfl | rfl, rfl, rfl⟩ | ⟨rfl, rfl, rfl⟩ | ⟨rfl, rfl, rfl⟩
  · cases hturn with
    | trap hintr =>
      obtain rfl : pc' = .loop := by
        by_contra hne
        have hdepth := (hl.out hne).2.2
        rw [hs.depth_of_intr hintr] at hdepth
        cases hdepth
      exact ⟨.atTop hl.resume fun h0 => absurd h0 (List.cons_ne_nil _ _), by simp⟩
  · cases hturn with
    | getIntr => exact ⟨.atTop hl.resume fun _ => hl.top rfl hframes, by simp⟩
  · cases hturn with
    | intrOn => exact ⟨.atTop hl.resume fun _ => hl.top rfl hframes, by simp⟩
  · cases hturn with
    | pushOff hold =>
      have hdepth := hl.top rfl hframes
      refine ⟨⟨hl.resume, fun _ => ⟨rfl, hframes, congrArg (· + 1) hdepth⟩, fun h0 => absurd h0 (by simp), fun _ => ?_⟩,
        by simp⟩
      simp only [pushOff, hs.noff, hdepth, if_true]
      exact hs.old _ hold
  · cases hturn with
    | popOff hready hpop =>
      obtain ⟨_, hpop', -⟩ := hs.popOff hb (ready_iff.mp hready).1
      rw [hpop'] at hpop
      cases hpop
      have hdepth := (hl.out (by simp)).2.2
      exact ⟨.atTop hl.resume fun _ => congrArg (· - 1) hdepth, by simp⟩

end Local

/-! ## All threads -/

/-- A process that is not running has called `sched` with one `push_off` to undo. -/
structure Parked (t : Task) (intena : Bool) : Prop where
  old : t.old = none
  resume : t.resume = none
  depth : t.depth = 1
  entry : intena = t.entry
  frames : some false ∉ t.frames

def Alive : ProcState → Prop
  | .used | .sleeping | .runnable => True
  | _ => False

structure Inv (s : State C L) : Prop where
  sound : ∀ c, Sound (s.cpu c) (s.task (s.thread c))
  kept : ∀ c p, (s.cpu c).proc = some p → Kept (s.cpu c) (s.task (.proc p))
  loops : ∀ c, Loops (s.pc c) (s.cpu c) (s.task (.scheduler c))
  away : ∀ c p, s.pc c = .away p ↔ (s.cpu c).proc = some p
  running : ∀ c p, (s.cpu c).proc = some p → s.state p = .running
  unique : ∀ c c' p, (s.cpu c).proc = some p → (s.cpu c').proc = some p → c = c'
  parked : ∀ p b, Alive (s.state p) → s.context p = .sched b → Parked (s.task (.proc p)) b

variable {s s' : State C L} {c c' : C} {p : Slot} {h : Hart} {t : Task} {pc : Pc} {e : Action C L}

theorem thread_of_none (hp : (s.cpu c).proc = none) : s.thread c = .scheduler c := by rw [State.thread, hp]

theorem thread_of_some (hp : (s.cpu c).proc = some p) : s.thread c = .proc p := by rw [State.thread, hp]

theorem thread_eq_proc (h : s.thread c = .proc p) : (s.cpu c).proc = some p := by
  unfold State.thread at h
  split at h
  · cases h
  · next q hq =>
    cases h
    exact hq

theorem thread_eq_scheduler (h : s.thread c = .scheduler c') : c = c' ∧ (s.cpu c).proc = none := by
  unfold State.thread at h
  split at h
  · next hq =>
    cases h
    exact ⟨rfl, hq⟩
  · cases h

theorem Inv.thread_inj (hi : Inv s) (h : s.thread c = s.thread c') : c = c' := by
  cases ht : s.thread c' with
  | scheduler d =>
    rw [ht] at h
    exact (thread_eq_scheduler h).1.trans (thread_eq_scheduler ht).1.symm
  | proc p =>
    rw [ht] at h
    exact hi.unique c c' p (thread_eq_proc h) (thread_eq_proc ht)

theorem follow_of_some (hp : (s.cpu e.cpu).proc = some p) (hf : s.follow e = some pc) : pc = s.pc e.cpu := by
  have hin : s.inLoop e.cpu = false := by simp [State.inLoop, hp]
  rw [State.follow, hin, if_neg (by decide)] at hf
  exact (Option.some.inj hf).symm

theorem Inv.follow_of_none (hi : Inv s) (hp : (s.cpu e.cpu).proc = none) (hf : s.follow e = some pc) :
    ((s.task (.scheduler e.cpu)).frames ≠ [] ∧ s.pc e.cpu = .loop ∧ pc = .loop) ∨
      ((s.task (.scheduler e.cpu)).frames = [] ∧ advance (s.pc e.cpu) e = some pc) := by
  by_cases hframes : (s.task (.scheduler e.cpu)).frames = []
  · right
    have hin : s.inLoop e.cpu = true := by simp [State.inLoop, hp, hframes]
    rw [State.follow, hin] at hf
    exact ⟨hframes, hf⟩
  · left
    have hin : s.inLoop e.cpu = false := by simp [State.inLoop, hp, hframes]
    rw [State.follow, hin, if_neg (by decide)] at hf
    have hpc : s.pc e.cpu = .loop := by
      by_contra hne
      exact hframes ((hi.loops e.cpu).out hne).2.1
    exact ⟨hframes, hpc, (Option.some.inj hf).symm.trans hpc⟩

variable [DecidableEq C]

theorem Inv.set (hi : Inv s) (hproc : h.proc = (s.cpu c).proc) (hs : Sound h t)
    (hk : ∀ p, (s.cpu c).proc = some p → Kept h t ∧ pc = s.pc c)
    (hl : (s.cpu c).proc = none → Loops pc h t ∧ ∀ p, pc ≠ .away p) : Inv ((s.goto c pc).set c h t) := by
  have hcpu : ∀ d, ((s.goto c pc).set c h t).cpu d = if d = c then h else s.cpu d := fun d => update_apply ..
  have hprocs : ∀ d, (((s.goto c pc).set c h t).cpu d).proc = (s.cpu d).proc := by
    intro d
    rw [hcpu]
    split
    · next he => rw [hproc, he]
    · rfl
  have hthread : ∀ d, ((s.goto c pc).set c h t).thread d = s.thread d := by
    intro d
    unfold State.thread
    rw [hprocs]
  have htask : ∀ x, ((s.goto c pc).set c h t).task x = if x = s.thread c then t else s.task x :=
    fun x => update_apply ..
  have hpc : ∀ d, ((s.goto c pc).set c h t).pc d = if d = c then pc else s.pc d := fun d => update_apply ..
  refine ⟨fun d => ?_, fun d p hp => ?_, fun d => ?_, fun d p => ?_, fun d p hp => ?_, fun d d' p hp hp' => ?_,
    fun p b ha hc => ?_⟩
  · rw [hcpu, hthread, htask]
    by_cases hd : d = c
    · rw [if_pos hd, if_pos (congrArg s.thread hd)]
      exact hs
    · rw [if_neg hd, if_neg fun he => hd (hi.thread_inj he)]
      exact hi.sound d
  · rw [hprocs] at hp
    rw [hcpu, htask]
    by_cases hd : d = c
    · subst hd
      rw [if_pos rfl, if_pos (thread_of_some hp).symm]
      exact (hk p hp).1
    · rw [if_neg hd, if_neg fun he => hd (hi.unique d c p hp (thread_eq_proc he.symm))]
      exact hi.kept d p hp
  · rw [hcpu, htask, hpc]
    by_cases hd : d = c
    · subst hd
      rw [if_pos rfl, if_pos rfl]
      cases hp : (s.cpu d).proc with
      | none =>
        rw [if_pos (thread_of_none hp).symm]
        exact (hl hp).1
      | some p =>
        rw [if_neg (by rw [thread_of_some hp]; simp), (hk p hp).2]
        have hloops := hi.loops d
        have haway := (hi.away d p).mpr hp
        rw [haway] at hloops ⊢
        exact ⟨hloops.resume, hloops.out, fun h0 => absurd h0 (by simp), fun h0 => absurd h0 (by simp)⟩
    · rw [if_neg hd, if_neg hd, if_neg fun he => hd (thread_eq_scheduler he.symm).1.symm]
      exact hi.loops d
  · rw [hprocs, hpc]
    split
    · next hd =>
      subst hd
      cases hp : (s.cpu d).proc with
      | none => exact iff_of_false ((hl hp).2 p) (by simp)
      | some q =>
        rw [(hk q hp).2, ← hp]
        exact hi.away d p
    · exact hi.away d p
  · rw [hprocs] at hp
    exact hi.running d p hp
  · rw [hprocs] at hp hp'
    exact hi.unique d d' p hp hp'
  · rw [htask, if_neg]
    · exact hi.parked p b ha hc
    · intro he
      have hrun := hi.running c p (thread_eq_proc he.symm)
      rw [show ((s.goto c pc).set c h t).state p = s.state p from rfl, hrun] at ha
      exact ha

theorem Inv.goto (hi : Inv s) (hk : ∀ p, (s.cpu c).proc = some p → pc = s.pc c)
    (hl : (s.cpu c).proc = none → Loops pc (s.cpu c) (s.task (.scheduler c)) ∧ ∀ p, pc ≠ .away p) :
    Inv (s.goto c pc) := by
  have hset : Inv ((s.goto c pc).set c (s.cpu c) (s.task (s.thread c))) := hi.set rfl (hi.sound c)
    (fun p hp => ⟨thread_of_some hp ▸ hi.kept c p hp, hk p hp⟩) (fun hp => thread_of_none hp ▸ hl hp)
  have hsame : (s.goto c pc).set c (s.cpu c) (s.task (s.thread c)) = s.goto c pc := by
    have hcpu : update s.cpu c (s.cpu c) = s.cpu := update_eq_self c s.cpu
    have htask : update s.task (s.thread c) (s.task (s.thread c)) = s.task := update_eq_self _ s.task
    exact State.mk.injEq .. ▸ ⟨hcpu, htask, rfl, rfl, rfl, rfl⟩
  rwa [hsame] at hset

theorem step_next [DecidableEq L] (h : step s e = .next s') : ∃ pc, s.follow e = some pc ∧ perform (s.goto e.cpu pc) e =
    .next s' := by
  unfold step at h
  split at h
  · cases h
  · next pc hpc => exact ⟨pc, hpc, h⟩

/-! ## Each action -/

theorem Inv.op [DecidableEq L] {o : Op} (hi : Inv s) (hb : Balanced s (.op c o)) (hst : step s (.op c o) = .next s') :
    Inv s' := by
  obtain ⟨pc, hf, hrun⟩ := step_next hst
  obtain ⟨r, hturn, rfl⟩ := Outcome.map_eq_next hrun
  have hturned : Turned (s.cpu c) (s.task (s.thread c)) o r.1 r.2 := turn_next hturn
  have hs := hi.sound c
  have hb : o.Balanced (s.task (s.thread c)) := hb
  obtain ⟨hs', hproc⟩ := hs.turn hturned hb
  refine hi.set hproc hs' (fun p hp => ⟨?_, follow_of_some hp hf⟩) fun hp => ?_
  · have hk := hi.kept c p hp
    rw [← thread_of_some hp] at hk
    exact hk.turn hturned hs hb
  · have hl : Loops (s.pc c) (s.cpu c) (s.task (.scheduler c)) := hi.loops c
    have hthread : s.thread c = .scheduler c := thread_of_none hp
    rw [hthread] at hturned hs hb
    rcases hi.follow_of_none hp hf with ⟨hframes, hpc, rfl⟩ | ⟨hframes, ha⟩
    · rw [show s.pc c = .loop from hpc] at hl
      exact ⟨hl.turn_handler hturned hs hb hframes, by simp⟩
    · exact hl.turn_loop hturned hs hb hframes ha

omit [DecidableEq C] in
theorem Inv.setHeld [DecidableEq L] (hi : Inv s) (l : Lock L) (o : Option C) : Inv (s.setHeld l o) :=
  ⟨hi.sound, hi.kept, hi.loops, hi.away, hi.running, hi.unique, hi.parked⟩

theorem Inv.advance (hi : Inv s) (hf : s.follow e = some pc)
    (hl : ∀ pc', Loops pc' (s.cpu e.cpu) (s.task (.scheduler e.cpu)) → Interrupts.advance pc' e = some pc →
      Loops pc (s.cpu e.cpu) (s.task (.scheduler e.cpu)) ∧ ∀ p, pc ≠ .away p) :
    Inv (s.goto e.cpu pc) := by
  refine hi.goto (fun p hp => follow_of_some hp hf) fun hp => ?_
  rcases hi.follow_of_none hp hf with ⟨-, hpc, rfl⟩ | ⟨-, ha⟩
  · exact ⟨hpc ▸ hi.loops e.cpu, by simp⟩
  · exact hl _ (hi.loops e.cpu) ha

omit [DecidableEq C] in
theorem Loops.take {l : Lock L} {pc' : Pc} (hl : Loops pc h t) (ha : Interrupts.advance pc (.take c l) = some pc') :
    Loops pc' h t ∧ ∀ p, pc' ≠ .away p := by
  cases pc <;> cases l <;> simp only [Interrupts.advance, reduceCtorEq] at ha
  cases ha
  refine ⟨⟨hl.resume, fun _ => hl.out (by simp), fun h0 => absurd h0 (by simp), fun _ => hl.intena (.inl rfl)⟩, by simp⟩

omit [DecidableEq C] in
theorem Loops.drop {l : Lock L} {pc' : Pc} (hl : Loops pc h t) (ha : Interrupts.advance pc (.drop c l) = some pc') :
    Loops pc' h t ∧ ∀ p, pc' ≠ .away p := by
  have hdropped : pc ≠ .loop ∧ pc' = .dropped := by
    cases pc <;> cases l <;> simp_all [Interrupts.advance]
  obtain ⟨hne, rfl⟩ := hdropped
  exact ⟨⟨hl.resume, fun _ => hl.out hne, fun h0 => absurd h0 (by simp), fun h0 => absurd h0 (by simp)⟩, by simp⟩

theorem Inv.take [DecidableEq L] {l : Lock L} (hi : Inv s) (hst : step s (.take c l) = .next s') : Inv s' := by
  obtain ⟨pc, hf, hrun⟩ := step_next hst
  rw [perform] at hrun
  split at hrun
  · split at hrun
    · cases hrun
    · split at hrun <;> cases hrun
      exact (hi.advance hf fun _ hl ha => hl.take ha).setHeld l _
  · cases hrun

theorem Inv.drop [DecidableEq L] {l : Lock L} (hi : Inv s) (hst : step s (.drop c l) = .next s') : Inv s' := by
  obtain ⟨pc, hf, hrun⟩ := step_next hst
  rw [perform] at hrun
  split at hrun
  · split at hrun <;> cases hrun
    exact (hi.advance hf fun _ hl ha => hl.drop ha).setHeld l _
  · cases hrun

theorem mayMark_cases {a b : ProcState} (h : mayMark a b = true) : a ≠ .running ∧ (Alive b → b = .used ∨ Alive a) := by
  cases a <;> cases b <;> simp_all [mayMark, Alive]

theorem Inv.mark [DecidableEq L] {q : Slot} {st : ProcState} (hi : Inv s) (hst : step s (.mark c q st) = .next s') :
    Inv s' := by
  obtain ⟨pc, hf, hrun⟩ := step_next hst
  have hi' : Inv (s.goto c pc) := by
    refine hi.advance hf fun pc' _ ha => ?_
    cases pc' <;> cases ha
  rw [perform] at hrun
  split at hrun
  · next hmay =>
    obtain ⟨hnot, halive⟩ := mayMark_cases hmay.2.2
    cases hrun
    refine ⟨hi'.sound, hi'.kept, hi'.loops, hi'.away, fun d p hp => ?_, hi'.unique, fun p b ha hc => ?_⟩
    · have hrunning := hi'.running d p hp
      have hne : p ≠ q := by
        rintro rfl
        exact hnot hrunning
      exact (update_of_ne hne _ _).trans hrunning
    · have hc : (if st = .used then update s.context q .forkret else s.context) p = .sched b := hc
      have ha : Alive (update s.state q st p) := ha
      by_cases hpq : p = q
      · subst hpq
        rw [update_self] at ha
        split at hc
        · rw [update_self] at hc
          cases hc
        · next hne => exact hi'.parked p b ((halive ha).resolve_left hne) hc
      · rw [update_of_ne hpq] at ha
        split at hc
        · rw [update_of_ne hpq] at hc
          exact hi'.parked p b ha hc
        · exact hi'.parked p b ha hc
  · cases hrun

theorem sched_next {st : ProcState} (h : s.sched c p st = .next s') :
    (s.task (.proc p)).ready = true ∧ (s.cpu c).noff = 1 ∧ st ≠ .running ∧ (s.cpu c).intr = false ∧
      s' = { (s.setState p st).goto c (.returned p) with
        context := update s.context p (.sched (s.cpu c).intena)
        cpu := update s.cpu c { s.cpu c with proc := none } } := by
  unfold State.sched at h
  split at h
  · cases h
  next hready =>
  split at h
  · cases h
  split at h
  · cases h
  next hnoff =>
  split at h
  · cases h
  next hst =>
  split at h
  · cases h
  next hintr =>
  cases h
  exact ⟨(Bool.not_eq_false _).mp hready, not_not.mp hnoff, hst, (Bool.not_eq_true _).mp hintr, rfl⟩

theorem Inv.sched {st : ProcState} (hi : Inv s) (hp : (s.cpu c).proc = some p) (hrun : s.sched c p st = .next s') :
    Inv s' := by
  obtain ⟨hready, hnoff, hst, hintr, rfl⟩ := sched_next hrun
  obtain ⟨hold, hresume⟩ := ready_iff.mp hready
  have hs := hi.sound c
  rw [thread_of_some hp] at hs
  have hloops := hi.loops c
  rw [(hi.away c p).mpr hp] at hloops
  obtain ⟨hold', hframes', hdepth'⟩ := hloops.out (by simp)
  have hsched : Sound { s.cpu c with proc := none } (s.task (.scheduler c)) := by
    refine ⟨hnoff.trans hdepth'.symm, fun _ => hintr, fun b hb => ?_, ?_⟩
    · rw [hold'] at hb
      cases hb
    · rw [hframes']
      simp
  have hother : ∀ d q, ((update s.cpu c { s.cpu c with proc := none }) d).proc = some q →
      d ≠ c ∧ (s.cpu d).proc = some q := by
    intro d q hq
    by_cases hd : d = c
    · rw [hd, update_self] at hq
      cases hq
    · rw [update_of_ne hd] at hq
      exact ⟨hd, hq⟩
  refine ⟨fun d => ?_, fun d q hq => ?_, fun d => ?_, fun d q => ?_, fun d q hq => ?_, fun d d' q hq hq' => ?_,
    fun q b ha hc => ?_⟩
  · by_cases hd : d = c
    · subst hd
      simp only [State.thread, update_self]
      exact hsched
    · simp only [State.thread, update_of_ne hd]
      exact hi.sound d
  · obtain ⟨hd, hq⟩ := hother d q hq
    simp only [update_of_ne hd]
    exact hi.kept d q hq
  · by_cases hd : d = c
    · subst hd
      simp only [State.goto, update_self]
      exact ⟨hloops.resume, fun _ => hloops.out (by simp), fun h0 => absurd h0 (by simp), fun h0 => absurd h0 (by simp)⟩
    · simp only [State.goto, update_of_ne hd]
      exact hi.loops d
  · by_cases hd : d = c
    · subst hd
      simp [State.goto]
    · simp only [State.goto, update_of_ne hd]
      exact hi.away d q
  · obtain ⟨hd, hq⟩ := hother d q hq
    have hne : q ≠ p := fun he => hd (hi.unique d c p (he ▸ hq) hp)
    exact (update_of_ne hne _ _).trans (hi.running d q hq)
  · exact hi.unique d d' q (hother d q hq).2 (hother d' q hq').2
  · by_cases hqp : q = p
    · subst hqp
      have hc : update s.context q (.sched (s.cpu c).intena) q = .sched b := hc
      rw [update_self] at hc
      cases hc
      have hdepth : (s.task (.proc q)).depth = 1 := hs.noff.symm.trans hnoff
      exact ⟨hold, hresume, hdepth, (hi.kept c q hp).intena hresume (by omega), hs.frames⟩
    · have hc : update s.context p (.sched (s.cpu c).intena) q = .sched b := hc
      have ha : Alive (update s.state p st q) := ha
      rw [update_of_ne hqp] at hc ha
      exact hi.parked q b ha hc

omit [DecidableEq C] in
theorem Inv.resumed (hi : Inv s) (hp : (s.cpu c).proc = none) (hpc : s.pc c = .chosen p)
    (hrunnable : s.state p = .runnable) :
    Sound { s.cpu c with proc := some p } (s.resumed c p) ∧ Kept { s.cpu c with proc := some p } (s.resumed c p) := by
  have hs := hi.sound c
  rw [thread_of_none hp] at hs
  have hloops := hi.loops c
  have hdepth := (hloops.out (by rw [hpc]; simp)).2.2
  have hnoff : (s.cpu c).noff = 1 := hs.noff.trans hdepth
  have hintr : (s.cpu c).intr = false := hs.off (by omega)
  unfold State.resumed
  split
  · refine ⟨⟨hnoff, fun _ => hintr, fun b hb => (by cases hb), by simp⟩, ⟨fun _ _ => ?_, fun b hb => (by cases hb)⟩⟩
    exact hloops.intena (.inr ⟨p, hpc⟩)
  · next intena hc =>
    have hparked := hi.parked p intena (hrunnable ▸ trivial) hc
    refine ⟨⟨hnoff.trans hparked.depth.symm, fun _ => hintr, fun b hb => ?_, hparked.frames⟩,
      ⟨fun h0 => (by cases h0), fun b hb => ?_⟩⟩
    · rw [show (s.task (.proc p)).old = none from hparked.old] at hb
      cases hb
    · cases hb
      exact ⟨hparked.entry, hparked.depth, hparked.old⟩

theorem Inv.swtch (hi : Inv s) (hp : (s.cpu c).proc = none) (hpc : s.pc c = .chosen p)
    (hrun : (s.goto c (.away p)).swtch c p = .next s') : Inv s' := by
  unfold State.swtch at hrun
  split at hrun
  · next hcond =>
    cases hrun
    have hrunnable : s.state p = .runnable := hcond.2
    obtain ⟨hsound, hkept⟩ := hi.resumed hp hpc hrunnable
    have hloops := hi.loops c
    have hnot : ∀ d, (s.cpu d).proc ≠ some p := by
      intro d hd
      rw [hi.running d p hd] at hrunnable
      cases hrunnable
    have hcpu : ∀ d q, (update s.cpu c { s.cpu c with proc := some p } d).proc = some q →
        (d = c ∧ q = p) ∨ (d ≠ c ∧ q ≠ p ∧ (s.cpu d).proc = some q) := by
      intro d q hq
      by_cases hd : d = c
      · rw [hd, update_self] at hq
        exact .inl ⟨hd, (Option.some.inj hq).symm⟩
      · rw [update_of_ne hd] at hq
        exact .inr ⟨hd, fun he => hnot d (he ▸ hq), hq⟩
    refine ⟨fun d => ?_, fun d q hq => ?_, fun d => ?_, fun d q => ?_, fun d q hq => ?_, fun d d' q hq hq' => ?_,
      fun q b ha hc => ?_⟩
    · by_cases hd : d = c
      · subst hd
        simp only [State.thread, State.goto, update_self]
        exact hsound
      · have hthread : s.thread d ≠ .proc p := fun he => hnot d (thread_eq_proc he)
        simp only [State.thread, State.goto, update_of_ne hd]
        have hs := hi.sound d
        rw [← update_of_ne hthread (s.resumed c p) s.task] at hs
        exact hs
    · rcases hcpu d q hq with ⟨rfl, rfl⟩ | ⟨hd, hqp, hq⟩
      · simp only [update_self]
        exact hkept
      · have hne : Thread.proc q ≠ (.proc p : Thread C) := fun he => hqp (Thread.proc.inj he)
        simp only [State.goto, update_of_ne hd, update_of_ne hne]
        exact hi.kept d q hq
    · have hne : Thread.scheduler d ≠ .proc p := by simp
      by_cases hd : d = c
      · subst hd
        simp only [State.goto, State.setState, update_self, update_of_ne hne]
        exact ⟨hloops.resume, fun _ => hloops.out (by rw [hpc]; simp), fun h0 => absurd h0 (by simp),
          fun h0 => absurd h0 (by simp)⟩
      · simp only [State.goto, State.setState, update_of_ne hd, update_of_ne hne]
        exact hi.loops d
    · by_cases hd : d = c
      · subst hd
        simp [State.goto, State.setState]
      · simp only [State.goto, State.setState, update_of_ne hd]
        exact hi.away d q
    · rcases hcpu d q hq with ⟨-, rfl⟩ | ⟨-, hqp, hq⟩
      · exact update_self _ _ _
      · exact (update_of_ne hqp _ _).trans (hi.running d q hq)
    · rcases hcpu d q hq with ⟨rfl, rfl⟩ | ⟨hd, hqp, hq⟩
      · rcases hcpu d' q hq' with ⟨rfl, -⟩ | ⟨-, hqp, -⟩
        · rfl
        · exact absurd rfl hqp
      · rcases hcpu d' q hq' with ⟨-, rfl⟩ | ⟨-, -, hq'⟩
        · exact absurd rfl hqp
        · exact hi.unique d d' q hq hq'
    · have ha : Alive (update s.state p .running q) := ha
      by_cases hqp : q = p
      · rw [hqp, update_self] at ha
        exact ha.elim
      · rw [update_of_ne hqp] at ha
        have hne : Thread.proc q ≠ (.proc p : Thread C) := fun he => hqp (Thread.proc.inj he)
        simp only [State.goto, update_of_ne hne]
        exact hi.parked q b ha hc
  · cases hrun

theorem goto_pc (s : State C L) (c : C) (pc : Pc) : (s.goto c pc).pc c = pc := update_self ..

theorem goto_self (s : State C L) (c : C) : s.goto c (s.pc c) = s := by
  unfold State.goto
  rw [update_eq_self]

omit [DecidableEq C] in
theorem advance_swtch (ha : Interrupts.advance pc (.swtch c : Action C L) = some (.away p)) : pc = .chosen p := by
  cases pc <;> simp_all [Interrupts.advance]

/-- A step of any thread keeps it all. -/
theorem Inv.step [DecidableEq L] (hi : Inv s) (hb : Balanced s e) (hst : step s e = .next s') : Inv s' := by
  cases e with
  | op c o => exact hi.op hb hst
  | take c l => exact hi.take hst
  | drop c l => exact hi.drop hst
  | mark c q st => exact hi.mark hst
  | sched c st =>
    obtain ⟨pc, hf, hrun⟩ := step_next hst
    rw [perform] at hrun
    split at hrun
    · cases hrun
    · next p hp =>
      have hp : (s.cpu c).proc = some p := hp
      obtain rfl : pc = s.pc c := follow_of_some hp hf
      rw [show s.goto (Action.sched c st : Action C L).cpu (s.pc c) = s from goto_self s c] at hrun
      exact hi.sched hp hrun
  | swtch c =>
    obtain ⟨pc, hf, hrun⟩ := step_next hst
    rw [perform] at hrun
    split at hrun
    · next p hp hpc =>
      obtain rfl : pc = .away p := (goto_pc s c pc).symm.trans hpc
      have hp : (s.cpu c).proc = none := hp
      rcases hi.follow_of_none (e := .swtch c) hp hf with ⟨-, -, hloop⟩ | ⟨-, ha⟩
      · cases hloop
      · exact hi.swtch hp (advance_swtch ha) hrun
    · cases hrun

omit [DecidableEq C] in
theorem inv_boot (runnable : Slot → Bool) : Inv (boot runnable : State C L) where
  sound _ := ⟨rfl, fun h0 => absurd h0 (Nat.lt_irrefl 0), fun b hb => (by cases hb), by simp [boot]⟩
  kept c p hp := by cases hp
  loops _ := .atTop rfl fun _ => rfl
  away c p := iff_of_false (by simp [boot]) (by simp [boot])
  running c p hp := by cases hp
  unique c c' p hp := by cases hp
  parked p b _ hc := by cases hc

/-! ## Runs -/

theorem run_inv [DecidableEq L] {runnable : Slot → Bool} {es : List (Action C L)} (hrun : Run step Balanced
    (boot runnable) es s) :
    Inv s :=
  hrun.stateInvariant (inv_boot runnable) fun _ _ _ hi hb hst => hi.step hb hst

theorem Inv.popOff [DecidableEq L] (hi : Inv s) (hpos : 0 < (s.task (s.thread c)).depth) :
    Interrupts.step s (.op c .popOff) = .disabled ∨ ∃ s', Interrupts.step s (.op c .popOff) = .next s' ∧
      (s.task (s.thread c)).resume = none ∧ ((s.task (s.thread c)).depth = 1 → (s'.cpu c).intr = (s.cpu c).intena) := by
  unfold Interrupts.step
  split
  · exact .inl rfl
  · next pc _ =>
    change Outcome.map _ (turn (s.cpu c) (s.task (s.thread c)) .popOff) = _ ∨ ∃ s', Outcome.map _
      (turn (s.cpu c) (s.task (s.thread c)) .popOff) = _ ∧ _
    rw [turn]
    split
    · next hready =>
      obtain ⟨hold, hresume⟩ := ready_iff.mp hready
      obtain ⟨h', hpop, -, -, -, hintr⟩ := (hi.sound c).popOff hpos hold
      rw [hpop]
      refine .inr ⟨_, rfl, hresume, fun hone => ?_⟩
      rw [← hintr hone]
      have hself : update s.cpu c h' c = h' := update_self ..
      exact congrArg Hart.intr hself
    · exact .inl rfl

/-- **Interrupts are off while `noff` is positive**, a balanced `pop_off` does not panic, and the outermost one of a
process, on whichever CPU it is by then, leaves interrupts as its outermost `push_off` has found them. -/
theorem run_nesting [DecidableEq L] {runnable : Slot → Bool} {es : List (Action C L)}
    (hrun : Run step Balanced (boot runnable) es s) :
    (∀ c, 0 < (s.cpu c).noff → (s.cpu c).intr = false) ∧
      (∀ c, Balanced s (.op c .popOff) → ∀ msg, step s (.op c .popOff) ≠ .panic msg) ∧
      ∀ c p s', (s.cpu c).proc = some p → (s.task (.proc p)).depth = 1 → step s (.op c .popOff) = .next s' →
        (s'.cpu c).intr = (s.task (.proc p)).entry := by
  have hi := run_inv hrun
  refine ⟨fun c hpos => ?_, fun c hb msg hpanic => ?_, fun c p s' hp hdepth hst => ?_⟩
  · have hs := hi.sound c
    exact hs.off (hs.noff ▸ hpos)
  · rcases hi.popOff hb with hst | ⟨s', hst, -⟩
    · rw [hst] at hpanic
      cases hpanic
    · rw [hst] at hpanic
      cases hpanic
  · have hthread := thread_of_some hp
    rcases hi.popOff (c := c) (by rw [hthread]; omega) with hst' | ⟨s'', hst', hresume, hintr⟩
    · rw [hst'] at hst
      cases hst
    · rw [hst'] at hst
      cases hst
      rw [hthread] at hresume hintr
      rw [hintr hdepth]
      exact (hi.kept c p hp).intena hresume (by omega)

/-- The first process starts on CPU 0, enables interrupts, calls `yield` and goes on on CPU 1, whose scheduler has found
interrupts disabled. An interrupt comes in the middle of its `push_off`. -/
def migration : List (Action (Fin 2) Empty) :=
  [.op 0 .getIntr, .op 0 .pushOff, .take 0 (.proc initproc), .swtch 0, .drop 0 (.proc initproc), .op 0 .popOff,
    .op 0 .intrOn, .op 0 .getIntr, .op 0 .trap, .op 0 .trapRet, .op 0 .pushOff, .take 0 (.proc initproc),
    .sched 0 .runnable, .drop 0 (.proc initproc), .op 0 .popOff,
    .op 1 .getIntr, .op 1 .pushOff, .take 1 (.proc initproc), .swtch 1, .op 1 .restore, .drop 1 (.proc initproc)]

theorem migration_nesting : ∃ s : State (Fin 2) Empty, Run step Balanced (boot fun p => p = initproc) migration s ∧
    ((s.cpu 1).proc = some initproc ∧ (s.task (.proc initproc)).depth = 1 ∧ (s.task (.proc initproc)).entry = true ∧
      (s.task (.scheduler 1)).entry = false) ∧
    (∀ c, 0 < (s.cpu c).noff → (s.cpu c).intr = false) ∧
      (∀ c, Balanced s (.op c .popOff) → ∀ msg, step s (.op c .popOff) ≠ .panic msg) ∧
      ∀ c p s', (s.cpu c).proc = some p → (s.task (.proc p)).depth = 1 → step s (.op c .popOff) = .next s' →
        (s'.cpu c).intr = (s.task (.proc p)).entry := by
  have hcheck : (exec (guarded step Balanced) migration (boot fun p => p = initproc)).check (fun s =>
      decide ((s.cpu 1).proc = some initproc ∧ (s.task (.proc initproc)).depth = 1 ∧
        (s.task (.proc initproc)).entry = true ∧ (s.task (.scheduler 1)).entry = false)) = true := by
    decide +kernel
  obtain ⟨s, hrun, hs⟩ := exists_run_of_check _ _ hcheck
  exact ⟨s, hrun, of_decide_eq_true hs, run_nesting hrun⟩

end Xv6Boot.Kernel.Interrupts
