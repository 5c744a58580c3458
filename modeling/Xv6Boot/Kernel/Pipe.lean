import Xv6Boot.Foundations.Ring
import Xv6Boot.Foundations.Transition

/-! # `pipe.c`

One pipe and any number of processes. `pi->lock` is held over many actions, so that a `kill`, which does not
take it, may come between any two of them; `holder` says who has it and where. The last two fields are
history: the bytes the writers have stored and those the readers have copied out.
-/

namespace Xv6Boot.Kernel.PipeC
open Function Transition

def PIPESIZE : ℕ := 512

structure Pipe where
  data : Fin PIPESIZE → BitVec 8
  nread : BitVec 32
  nwrite : BitVec 32
  readopen : Bool
  writeopen : Bool

/-- `addr` and `n` of a `pipewrite`: what `copyin` finds at `addr + i`. -/
structure WriteReq where
  n : ℤ
  byte : ℕ → Option (BitVec 8)

/-- `addr` and `n` of a `piperead`: whether `copyout` can write at `addr + i`. -/
structure ReadReq where
  n : ℤ
  mapped : ℕ → Bool

/-- Where a process is when it does not hold the lock. -/
inductive Loc where
  | idle
  | enterWrite (w : WriteReq) (i : ℕ)
  | asleepWrite (w : WriteReq) (i : ℕ)
  | enterRead (r : ReadReq)
  | asleepRead (r : ReadReq)
  | enterClose (writable : Bool)
  | returned (v : ℤ)

/-- Where the holder of the lock is. -/
inductive Crit where
  | write (w : WriteReq) (i : ℕ)
  | writeBody (w : WriteReq) (i : ℕ)
  | readHead (r : ReadReq)
  | readSleep (r : ReadReq)
  | readCopy (r : ReadReq) (i : ℕ)
  | close (writable : Bool)

structure State (P : Type) where
  pipe : Pipe
  killed : P → Bool
  loc : P → Loc
  holder : Option (P × Crit)
  freed : Bool
  stored : List (BitVec 8)
  taken : List (BitVec 8)

inductive Call where
  | write (w : WriteReq)
  | read (r : ReadReq)
  | close (writable : Bool)

inductive Action (P : Type) where
  | call (p : P) (c : Call)
  | go (p : P)
  | kill (p : P)

def slot (i : ℕ) : Fin PIPESIZE := ⟨i % PIPESIZE, Nat.mod_lt _ (by decide)⟩

/-- `pi->data[k % PIPESIZE]` -/
def index (k : BitVec 32) : Fin PIPESIZE := slot k.toNat

def Pipe.store (pi : Pipe) (ch : BitVec 8) : Pipe :=
  { pi with data := update pi.data (index pi.nwrite) ch, nwrite := pi.nwrite + 1 }

def Pipe.full (pi : Pipe) : Bool := pi.nwrite == pi.nread + BitVec.ofNat 32 PIPESIZE

def Pipe.empty (pi : Pipe) : Bool := pi.nread == pi.nwrite

/-- `wakeup(&pi->nread)` for one process. -/
def Loc.wakeRead : Loc → Loc
  | .asleepRead r => .enterRead r
  | l => l

/-- `wakeup(&pi->nwrite)` for one process. -/
def Loc.wakeWrite : Loc → Loc
  | .asleepWrite w i => .enterWrite w i
  | l => l

section Machine
variable {P : Type} [DecidableEq P]

/-- `pipealloc` -/
def init (data : Fin PIPESIZE → BitVec 8) (killed : P → Bool) : State P where
  pipe := ⟨data, 0, 0, true, true⟩
  killed := killed
  loc := fun _ => .idle
  holder := none
  freed := false
  stored := []
  taken := []

namespace State
variable (s : State P)

def wakeReaders : State P := { s with loc := fun q => (s.loc q).wakeRead }

def wakeWriters : State P := { s with loc := fun q => (s.loc q).wakeWrite }

def leave (p : P) (l : Loc) : State P := { s with holder := none, loc := update s.loc p l }

def hold (p : P) (c : Crit) : State P := { s with holder := some (p, c) }

end State

def critStep (p : P) (s : State P) : Crit → State P
  | .write w i =>
    if (i : ℤ) < w.n then
      if s.pipe.readopen = false ∨ s.killed p = true then s.leave p (.returned (-1))
      else s.hold p (.writeBody w i)
    else s.wakeReaders.leave p (.returned i)
  | .writeBody w i =>
    if s.pipe.full then s.wakeReaders.leave p (.asleepWrite w i)
    else
      match w.byte i with
      | none => s.wakeReaders.leave p (.returned i)
      | some ch => { s with pipe := s.pipe.store ch, stored := s.stored ++ [ch] }.hold p (.write w (i + 1))
  | .readHead r =>
    if s.pipe.empty ∧ s.pipe.writeopen then
      if s.killed p then s.leave p (.returned (-1)) else s.hold p (.readSleep r)
    else s.hold p (.readCopy r 0)
  | .readSleep r => s.leave p (.asleepRead r)
  | .readCopy r i =>
    if (i : ℤ) < r.n ∧ ¬ s.pipe.empty then
      if r.mapped i then
        { s with pipe := { s.pipe with nread := s.pipe.nread + 1 },
                 taken := s.taken ++ [s.pipe.data (index s.pipe.nread)] }.hold p (.readCopy r (i + 1))
      else -- The byte is gone from the pipe when `copyout` fails.
        ({ s with pipe := { s.pipe with nread := s.pipe.nread + 1 } }.wakeWriters).leave p (.returned i)
    else s.wakeWriters.leave p (.returned i)
  | .close writable =>
    let s := if writable then { s with pipe := { s.pipe with writeopen := false } }.wakeReaders
      else { s with pipe := { s.pipe with readopen := false } }.wakeWriters
    { s.leave p (.returned 0) with freed := !s.pipe.readopen && !s.pipe.writeopen }

def Call.enter : Call → Loc
  | .write w => .enterWrite w 0
  | .read r => .enterRead r
  | .close b => .enterClose b

/-- `acquire(&pi->lock)`, on entry or at the end of `sleep`. -/
def Loc.acquire : Loc → Option Crit
  | .enterWrite w i => some (.write w i)
  | .enterRead r => some (.readHead r)
  | .enterClose b => some (.close b)
  | _ => none

def Loc.kill (l : Loc) : Loc := l.wakeRead.wakeWrite

def Loc.outside : Loc → Bool
  | .idle | .returned _ => true
  | _ => false

def step (s : State P) : Action P → Outcome (State P)
  | .call p c =>
    if s.freed = false ∧ (s.loc p).outside then .next { s with loc := update s.loc p c.enter } else .disabled
  | .go p =>
    if s.freed then .disabled
    else
      match s.holder with
      | some (q, c) => if q = p then .next (critStep p s c) else .disabled
      | none =>
        match (s.loc p).acquire with
        | some c => .next (s.hold p c)
        | none => .disabled
  | .kill p =>
    .next { s with killed := update s.killed p true, loc := update s.loc p (s.loc p).kill }

end Machine

/-! ## What a step can do -/

section Cases
variable {P : Type} [DecidableEq P] {s s' : State P}

inductive StepCases (s : State P) : Action P → State P → Prop
  | call (p : P) (c : Call) (hl : (s.loc p).outside = true) :
      StepCases s (.call p c) { s with loc := update s.loc p c.enter }
  | crit (p : P) (c : Crit) (hh : s.holder = some (p, c)) : StepCases s (.go p) (critStep p s c)
  | acquire (p : P) (c : Crit) (hh : s.holder = none) (hl : (s.loc p).acquire = some c) :
      StepCases s (.go p) (s.hold p c)
  | kill (p : P) : StepCases s (.kill p)
      { s with killed := update s.killed p true, loc := update s.loc p (s.loc p).kill }

theorem step_cases {e : Action P} (h : step s e = .next s') : StepCases s e s' := by
  cases e with
  | call p c =>
    simp only [step] at h
    split at h
    · rename_i hc
      cases h
      exact .call p c hc.2
    · cases h
  | go p =>
    simp only [step] at h
    split at h
    · cases h
    · split at h
      · rename_i q c hh
        split at h
        · rename_i hq
          subst hq
          cases h
          exact .crit q c hh
        · cases h
      · rename_i hh
        split at h
        · rename_i c hl
          cases h
          exact .acquire p c hh hl
        · cases h
  | kill p =>
    cases h
    exact .kill p

end Cases

variable {c : Crit} {l : Loc}

/-! ## The ring and the queue -/

variable {P : Type} {s s' : State P} {p : P}

def Pipe.cell (pi : Pipe) (i : ℕ) : BitVec 8 := pi.data (slot i)

/-- The counters count the bytes and the ring holds those between. -/
structure Queue (s : State P) : Prop where
  nread : s.pipe.nread = BitVec.ofNat 32 s.taken.length
  nwrite : s.pipe.nwrite = BitVec.ofNat 32 s.stored.length
  ring : Ring.Holds PIPESIZE s.pipe.cell s.stored s.taken

theorem Queue.window (h : Queue s) : s.taken.length ≤ s.stored.length ∧ s.stored.length ≤ s.taken.length + 512 :=
  ⟨h.ring.length_le, h.ring.room⟩

theorem Queue.full_iff (h : Queue s) : s.pipe.full = true ↔ s.stored.length = s.taken.length + PIPESIZE := by
  obtain ⟨h1, h2⟩ := h.window
  rw [Pipe.full, beq_iff_eq, h.nread, h.nwrite]
  exact Ring.counter_eq_add h1 (by omega) (by decide)

theorem Queue.empty_iff (h : Queue s) : s.pipe.empty = true ↔ s.stored.length = s.taken.length := by
  obtain ⟨h1, h2⟩ := h.window
  rw [Pipe.empty, beq_iff_eq, h.nread, h.nwrite, eq_comm]
  have := Ring.counter_eq_add (w := 32) (n := 0) h1 (by omega) (by decide)
  simpa using this

theorem index_ofNat (k : ℕ) : index (BitVec.ofNat 32 k) = slot k := by
  apply Fin.ext
  exact Ring.counter_mod (by decide) k

theorem Queue.store (h : Queue s) (hfull : s.pipe.full ≠ true) (ch : BitVec 8) :
    Queue { s with pipe := s.pipe.store ch, stored := s.stored ++ [ch] } := by
  have hroom : s.stored.length < s.taken.length + PIPESIZE :=
    lt_of_le_of_ne h.ring.room fun he => hfull (h.full_iff.mpr he)
  refine ⟨h.nread, ?_, (h.ring.put hroom ch).congr (fun i hi => ?_) (by decide)⟩
  · rw [Pipe.store, h.nwrite, Ring.counter_succ, List.length_append, List.length_singleton]
  · simp only [Pipe.cell, Pipe.store, h.nwrite, index_ofNat]
    have hslot : slot i = slot s.stored.length ↔ i = s.stored.length % PIPESIZE := by
      rw [Fin.ext_iff]
      show i % PIPESIZE = s.stored.length % PIPESIZE ↔ _
      rw [Nat.mod_eq_of_lt hi]
    rw [update_apply, update_apply]
    simp only [hslot]
    rfl

theorem Queue.take (h : Queue s) (hempty : s.pipe.empty ≠ true) :
    Queue { s with pipe := { s.pipe with nread := s.pipe.nread + 1 },
                   taken := s.taken ++ [s.pipe.data (index s.pipe.nread)] } := by
  have hne : s.taken.length < s.stored.length :=
    lt_of_le_of_ne h.ring.length_le fun he => hempty (h.empty_iff.mpr he.symm)
  refine ⟨?_, h.nwrite, ?_⟩
  · rw [h.nread, Ring.counter_succ, List.length_append, List.length_singleton]
  · have hbyte : s.pipe.data (index s.pipe.nread) = s.pipe.cell (s.taken.length % PIPESIZE) := by
      rw [h.nread, index_ofNat, Pipe.cell]
      congr 1
      exact Fin.ext (Nat.mod_mod _ _).symm
    dsimp only
    rw [hbyte]
    exact h.ring.take hne

theorem Queue.congr (h : Queue s) (hn : s'.pipe.nread = s.pipe.nread) (hw : s'.pipe.nwrite = s.pipe.nwrite)
    (hd : s'.pipe.data = s.pipe.data) (hs : s'.stored = s.stored) (ht : s'.taken = s.taken) : Queue s' := by
  have hcell : s'.pipe.cell = s.pipe.cell := by
    funext i
    rw [Pipe.cell, hd, Pipe.cell]
  exact ⟨by rw [hn, ht]; exact h.nread, by rw [hw, hs]; exact h.nwrite, by rw [hcell, hs, ht]; exact h.ring⟩

/-! ## Readers with mapped buffers -/

def ReadReq.Mapped (r : ReadReq) : Prop := ∀ i : ℕ, (i : ℤ) < r.n → r.mapped i = true

def MappedReads (_ : State P) : Action P → Prop
  | .call _ (.read r) => r.Mapped
  | _ => True

def Loc.Mapped : Loc → Prop
  | .enterRead r | .asleepRead r => r.Mapped
  | _ => True

def Crit.Mapped : Crit → Prop
  | .readHead r | .readSleep r | .readCopy r _ => r.Mapped
  | _ => True

structure Mapped (s : State P) : Prop where
  loc : ∀ p, (s.loc p).Mapped
  held : ∀ p c, s.holder = some (p, c) → c.Mapped

theorem Loc.Mapped.wakeRead (h : l.Mapped) : l.wakeRead.Mapped := by
  cases l <;> exact h

theorem Loc.Mapped.wakeWrite (h : l.Mapped) : l.wakeWrite.Mapped := by
  cases l <;> exact h

theorem Mapped.hold (h : Mapped s) (hc : c.Mapped) : Mapped (s.hold p c) := by
  refine ⟨h.loc, fun q c' hq => ?_⟩
  cases hq
  exact hc

theorem Mapped.wakeReaders (h : Mapped s) : Mapped s.wakeReaders := ⟨fun q => (h.loc q).wakeRead, h.held⟩

theorem Mapped.wakeWriters (h : Mapped s) : Mapped s.wakeWriters := ⟨fun q => (h.loc q).wakeWrite, h.held⟩

variable [DecidableEq P]

theorem Mapped.leave (h : Mapped s) (hl : l.Mapped) : Mapped (s.leave p l) := by
  refine ⟨fun q => ?_, fun q c hq => by cases hq⟩
  simp only [State.leave, update_apply]
  split
  · exact hl
  · exact h.loc q

theorem Mapped.crit (h : Mapped s) (hh : s.holder = some (p, c)) : Mapped (critStep p s c) := by
  have hc := h.held p c hh
  cases c with
  | write w i =>
    simp only [critStep]
    split
    · split
      · exact h.leave trivial
      · exact h.hold trivial
    · exact h.wakeReaders.leave trivial
  | writeBody w i =>
    simp only [critStep]
    split
    · exact h.wakeReaders.leave trivial
    · split
      · exact h.wakeReaders.leave trivial
      · refine Mapped.hold ?_ trivial
        exact ⟨h.loc, h.held⟩
  | readHead r =>
    simp only [critStep]
    split
    · split
      · exact h.leave trivial
      · exact h.hold hc
    · exact h.hold hc
  | readSleep r => exact h.leave hc
  | readCopy r i =>
    simp only [critStep]
    split
    · split
      · refine Mapped.hold ?_ hc
        exact ⟨h.loc, h.held⟩
      · refine Mapped.leave (Mapped.wakeWriters ?_) trivial
        exact ⟨h.loc, h.held⟩
    · exact h.wakeWriters.leave trivial
  | close b =>
    have hm : Mapped (if b then { s with pipe := { s.pipe with writeopen := false } }.wakeReaders
        else { s with pipe := { s.pipe with readopen := false } }.wakeWriters) := by
      split
      · exact Mapped.wakeReaders ⟨h.loc, h.held⟩
      · exact Mapped.wakeWriters ⟨h.loc, h.held⟩
    have hl := hm.leave (p := p) (l := .returned 0) trivial
    exact ⟨hl.loc, hl.held⟩

theorem Queue.crit (h : Queue s) (hm : Mapped s) (hh : s.holder = some (p, c)) : Queue (critStep p s c) := by
  cases c with
  | write w i =>
    simp only [critStep]
    split
    · split <;> exact h.congr rfl rfl rfl rfl rfl
    · exact h.congr rfl rfl rfl rfl rfl
  | writeBody w i =>
    simp only [critStep]
    split
    · exact h.congr rfl rfl rfl rfl rfl
    · rename_i hfull
      split
      · exact h.congr rfl rfl rfl rfl rfl
      · rename_i ch _
        exact (h.store hfull ch).congr rfl rfl rfl rfl rfl
  | readHead r =>
    simp only [critStep]
    split
    · split <;> exact h.congr rfl rfl rfl rfl rfl
    · exact h.congr rfl rfl rfl rfl rfl
  | readSleep r => exact h.congr rfl rfl rfl rfl rfl
  | readCopy r i =>
    simp only [critStep]
    split
    · rename_i hc
      split
      · exact (h.take hc.2).congr rfl rfl rfl rfl rfl
      · rename_i hno
        exact absurd (hm.held p _ hh i hc.1) hno
    · exact h.congr rfl rfl rfl rfl rfl
  | close b => cases b <;> exact h.congr rfl rfl rfl rfl rfl

theorem Mapped.step {e : Action P} (h : Mapped s) (hok : MappedReads s e) (hst : StepCases s e s') : Mapped s' := by
  cases hst with
  | call p c hl =>
    refine ⟨fun q => ?_, h.held⟩
    dsimp only
    rw [update_apply]
    split
    · cases c with
      | read r => exact hok
      | _ => trivial
    · exact h.loc q
  | crit p c hh => exact h.crit hh
  | acquire p c hh hl =>
    refine h.hold ?_
    have := h.loc p
    cases hloc : s.loc p <;> rw [hloc] at hl this <;> cases hl
    · trivial
    · exact this
    · trivial
  | kill p =>
    refine ⟨fun q => ?_, h.held⟩
    dsimp only
    rw [update_apply]
    split
    · exact (h.loc p).wakeRead.wakeWrite
    · exact h.loc q

theorem Queue.step {e : Action P} (h : Queue s) (hm : Mapped s) (hst : StepCases s e s') : Queue s' := by
  cases hst with
  | crit p c hh => exact h.crit hm hh
  | _ => exact h.congr rfl rfl rfl rfl rfl

theorem run_queue {data : Fin PIPESIZE → BitVec 8} {killed : P → Bool} {es : List (Action P)}
    (h : Run PipeC.step MappedReads (init data killed) es s) : Queue s := by
  suffices h' : Mapped s ∧ Queue s from h'.2
  refine h.stateInvariant ?_ ?_
  · exact ⟨⟨fun _ => trivial, fun p c hp => by cases hp⟩, rfl, rfl, .nil _ _⟩
  · rintro s e s' ⟨hm, hq⟩ hok hst
    exact ⟨hm.step hok (step_cases hst), hq.step hm (step_cases hst)⟩

/-- **Pipes are queues.** In every state of every interleaving, however often the counters have wrapped. -/
theorem run_fifo (data : Fin PIPESIZE → BitVec 8) (killed : P → Bool) (es : List (Action P)) (s : State P)
    (h : Run PipeC.step MappedReads (init data killed) es s) :
    s.taken <+: s.stored ∧ (s.pipe.nwrite - s.pipe.nread).toNat ≤ PIPESIZE ∧
      s.stored.length = s.taken.length + (s.pipe.nwrite - s.pipe.nread).toNat := by
  have hq := run_queue h
  obtain ⟨h1, h2⟩ := hq.window
  have hsub : (s.pipe.nwrite - s.pipe.nread).toNat = s.stored.length - s.taken.length := by
    rw [hq.nread, hq.nwrite]
    exact Ring.counter_sub h1 (by omega)
  refine ⟨hq.ring.taken_prefix, ?_, ?_⟩
  · rw [hsub]
    exact Nat.sub_le_of_le_add (by rw [Nat.add_comm]; exact h2)
  · omega

def sampleRun : List (Action Bool) :=
  [.call true (.write ⟨2, fun i => some (BitVec.ofNat 8 (i + 5))⟩), .go true, .go true, .go true, .go true, .go true,
    .go true, .call false (.read ⟨1, fun _ => true⟩), .go false, .go false, .go false, .go false]

theorem sampleRun_runs : (exec PipeC.step sampleRun (init (fun _ => 0) fun _ => false)).check
    (fun s => s.stored == [5, 6] && s.taken == [5]) = true := by
  decide +kernel

theorem sampleRun_fifo :
    ∃ s, exec PipeC.step sampleRun (init (fun _ => 0) fun _ => false) = .next s ∧ s.stored = [5, 6] ∧ s.taken = [5] ∧
      s.taken <+: s.stored ∧ (s.pipe.nwrite - s.pipe.nread).toNat ≤ PIPESIZE := by
  obtain ⟨s, hs, hcheck⟩ := exists_of_check _ _ _ _ sampleRun_runs
  simp only [Bool.and_eq_true, beq_iff_eq] at hcheck
  have hok : Admitted PipeC.step MappedReads sampleRun (init (fun _ => 0) fun _ => false) := by
    simp [Admitted, sampleRun, MappedReads, ReadReq.Mapped]
  have h := run_fifo (fun _ => 0) (fun _ => false) sampleRun s (Run.of_exec hok hs)
  exact ⟨s, hs, hcheck.1, hcheck.2, h.1, h.2.1⟩

end Xv6Boot.Kernel.PipeC
