import Xv6Boot.Kernel.Pipe

/-! # Sleepers on a pipe

Every way out of the loops of `pipe.c` wakes the other side if it may have changed what the other side
waits for, but one: a `pipewrite` that has stored bytes and then finds itself killed returns at once.
-/

namespace Xv6Boot.Kernel.PipeC
open Function Transition

section
variable {P : Type} [DecidableEq P]

/-- With the lock free, readers sleep on an empty pipe that may still be filled, writers on a full one that
may still be read. -/
structure Awaited (s : State P) : Prop where
  readers : ∀ p r, s.loc p = .asleepRead r → s.pipe.empty = true ∧ s.pipe.writeopen = true
  writers : ∀ p w i, s.loc p = .asleepWrite w i → s.pipe.full = true ∧ s.pipe.readopen = true

def NoLostWakeup (s : State P) : Prop := s.holder = none → Awaited s

def NoSilentReturn (s : State P) : Action P → Prop
  | .go p => ∀ w i, s.holder = some (p, .write w i) → (i : ℤ) < w.n → s.pipe.readopen = true →
      s.killed p = true → s.pipe.empty = true ∨ ∀ q r, s.loc q ≠ .asleepRead r
  | _ => True

def Crit.writing : Crit → Bool
  | .write _ _ | .writeBody _ _ => true
  | _ => false

def Crit.copying : Crit → Bool
  | .readCopy _ _ => true
  | _ => false

def HolderAwake (s : State P) : Prop := ∀ p c, s.holder = some (p, c) → (s.loc p).acquire ≠ none

/-- While the lock is held, a writer may owe the readers a wakeup, and a reader the writers. -/
structure Owed (s : State P) : Prop where
  writeopen : ∀ p r, s.loc p = .asleepRead r → s.pipe.writeopen = true
  readopen : ∀ p w i, s.loc p = .asleepWrite w i → s.pipe.readopen = true
  empty : ∀ p r, s.loc p = .asleepRead r → s.pipe.empty = true ∨
    s.pipe.readopen = true ∧ ∃ q c, s.holder = some (q, c) ∧ c.writing = true
  full : ∀ p w i, s.loc p = .asleepWrite w i → s.pipe.full = true ∨ ∃ q c, s.holder = some (q, c) ∧ c.copying = true
  body : ∀ p w i, s.holder = some (p, .writeBody w i) → s.pipe.readopen = true
  sleep : ∀ p r, s.holder = some (p, .readSleep r) → s.pipe.empty = true ∧ s.pipe.writeopen = true

end

/-! ## Who sleeps after a wakeup -/

variable {l : Loc} {c : Crit}

theorem Loc.wakeRead_eq_asleepRead {r : ReadReq} : l.wakeRead ≠ .asleepRead r := by
  cases l <;> simp [Loc.wakeRead]

theorem Loc.wakeRead_eq_asleepWrite {w : WriteReq} {i : ℕ} : l.wakeRead = .asleepWrite w i ↔ l = .asleepWrite w i := by
  cases l <;> simp [Loc.wakeRead]

theorem Loc.wakeWrite_eq_asleepWrite {w : WriteReq} {i : ℕ} : l.wakeWrite ≠ .asleepWrite w i := by
  cases l <;> simp [Loc.wakeWrite]

theorem Loc.wakeWrite_eq_asleepRead {r : ReadReq} : l.wakeWrite = .asleepRead r ↔ l = .asleepRead r := by
  cases l <;> simp [Loc.wakeWrite]

theorem Loc.acquire_wakeRead (h : l.acquire ≠ none) : l.wakeRead = l := by
  cases l <;> simp_all [Loc.acquire, Loc.wakeRead]

theorem Loc.acquire_wakeWrite (h : l.acquire ≠ none) : l.wakeWrite = l := by
  cases l <;> simp_all [Loc.acquire, Loc.wakeWrite]

section Steps
variable {P : Type} {s s' : State P} {p : P}

theorem Awaited.owed (h : Awaited s) (hfree : s.holder = none) : Owed s := by
  refine ⟨fun q r hq => (h.readers q r hq).2, fun q w i hq => (h.writers q w i hq).2,
    fun q r hq => .inl (h.readers q r hq).1, fun q w i hq => .inl (h.writers q w i hq).1, fun q w i hq => ?_,
    fun q r hq => ?_⟩
  · rw [hfree] at hq
    cases hq
  · rw [hfree] at hq
    cases hq

theorem Owed.awaited (h : Owed s) (hfree : s.holder = none) : Awaited s := by
  refine ⟨fun q r hq => ⟨(h.empty q r hq).resolve_right ?_, h.writeopen q r hq⟩,
    fun q w i hq => ⟨(h.full q w i hq).resolve_right ?_, h.readopen q w i hq⟩⟩
  · rintro ⟨-, q, c, hq, -⟩
    rw [hfree] at hq
    cases hq
  · rintro ⟨q, c, hq, -⟩
    rw [hfree] at hq
    cases hq

theorem Owed.wakeReaders (h : Owed s) (hh : s.holder = some (p, c)) (hc : c.copying = false) :
    Awaited s.wakeReaders := by
  refine ⟨fun q r hq => absurd hq Loc.wakeRead_eq_asleepRead, fun q w i hq => ?_⟩
  have hq' := Loc.wakeRead_eq_asleepWrite.mp hq
  refine ⟨(h.full q w i hq').resolve_right ?_, h.readopen q w i hq'⟩
  rintro ⟨q', c', hq', hc'⟩
  rw [hh] at hq'
  cases hq'
  rw [hc] at hc'
  cases hc'

theorem Owed.wakeWriters (h : Owed s) (hh : s.holder = some (p, c)) (hc : c.writing = false) :
    Awaited s.wakeWriters := by
  refine ⟨fun q r hq => ?_, fun q w i hq => absurd hq Loc.wakeWrite_eq_asleepWrite⟩
  have hq' := Loc.wakeWrite_eq_asleepRead.mp hq
  refine ⟨(h.empty q r hq').resolve_right ?_, h.writeopen q r hq'⟩
  rintro ⟨-, q', c', hq', hc'⟩
  rw [hh] at hq'
  cases hq'
  rw [hc] at hc'
  cases hc'

theorem Owed.clear (h : Owed s) (hh : s.holder = some (p, c)) (hw : c.writing = false) (hc : c.copying = false) :
    Awaited s :=
  ⟨fun q r hq => (h.wakeWriters hh hw).readers q r (Loc.wakeWrite_eq_asleepRead.mpr hq),
    fun q w i hq => (h.wakeReaders hh hc).writers q w i (Loc.wakeRead_eq_asleepWrite.mpr hq)⟩

theorem Awaited.hold (h : Awaited s) (hbody : ∀ w i, c = .writeBody w i → s.pipe.readopen = true)
    (hsleep : ∀ r, c = .readSleep r → s.pipe.empty = true ∧ s.pipe.writeopen = true) : Owed (s.hold p c) := by
  refine ⟨fun q r hq => (h.readers q r hq).2, fun q w i hq => (h.writers q w i hq).2,
    fun q r hq => .inl (h.readers q r hq).1, fun q w i hq => .inl (h.writers q w i hq).1, fun q w i hq => ?_,
    fun q r hq => ?_⟩
  · cases hq
    exact hbody w i rfl
  · cases hq
    exact hsleep r rfl

theorem Owed.fewer (h : Owed s) (loc : P → Loc) (killed : P → Bool)
    (hr : ∀ q r, loc q = .asleepRead r → s.loc q = .asleepRead r)
    (hw : ∀ q w i, loc q = .asleepWrite w i → s.loc q = .asleepWrite w i) :
    Owed { s with loc := loc, killed := killed } :=
  ⟨fun q r hq => h.writeopen q r (hr q r hq), fun q w i hq => h.readopen q w i (hw q w i hq),
    fun q r hq => h.empty q r (hr q r hq), fun q w i hq => h.full q w i (hw q w i hq), h.body, h.sleep⟩

variable [DecidableEq P]

theorem HolderAwake.step {e : Action P} (h : HolderAwake s) (hst : StepCases s e s') : HolderAwake s' := by
  cases hst with
  | call p c hl =>
    intro q k hq
    have hlq := h q k hq
    have hqp : q ≠ p := by
      rintro rfl
      cases hloc : s.loc q <;> simp_all [Loc.outside, Loc.acquire]
    dsimp only
    rw [update_of_ne hqp]
    exact hlq
  | crit p c hh =>
    have hlp := h p c hh
    cases c with
    | write w i =>
      simp only [critStep]
      split
      · split
        · exact fun q k hq => by cases hq
        · intro q k hq
          cases hq
          exact hlp
      · exact fun q k hq => by cases hq
    | writeBody w i =>
      simp only [critStep]
      split
      · exact fun q k hq => by cases hq
      · split
        · exact fun q k hq => by cases hq
        · intro q k hq
          cases hq
          exact hlp
    | readHead r =>
      simp only [critStep]
      split
      · split
        · exact fun q k hq => by cases hq
        · intro q k hq
          cases hq
          exact hlp
      · intro q k hq
        cases hq
        exact hlp
    | readSleep r => exact fun q k hq => by cases hq
    | readCopy r i =>
      simp only [critStep]
      split
      · split
        · intro q k hq
          cases hq
          exact hlp
        · exact fun q k hq => by cases hq
      · exact fun q k hq => by cases hq
    | close b => exact fun q k hq => by cases hq
  | acquire p c hh hl =>
    intro q k hq
    cases hq
    show (s.loc p).acquire ≠ none
    rw [hl]
    exact Option.some_ne_none c
  | kill p =>
    intro q k hq
    have hlq := h q k hq
    dsimp only
    by_cases hqp : q = p
    · subst hqp
      rw [update_self, Loc.kill, Loc.acquire_wakeRead hlq, Loc.acquire_wakeWrite hlq]
      exact hlq
    · rw [update_of_ne hqp]
      exact hlq

theorem Owed.leave (h : Awaited s) (hr : ∀ r, l = .asleepRead r → s.pipe.empty = true ∧ s.pipe.writeopen = true)
    (hw : ∀ w i, l = .asleepWrite w i → s.pipe.full = true ∧ s.pipe.readopen = true) : Owed (s.leave p l) := by
  refine Awaited.owed ⟨fun q r hq => ?_, fun q w i hq => ?_⟩ rfl
  · simp only [State.leave, update_apply] at hq
    split at hq
    · exact hr r hq
    · exact h.readers q r hq
  · simp only [State.leave, update_apply] at hq
    split at hq
    · exact hw w i hq
    · exact h.writers q w i hq

theorem Owed.leave_returned (h : Awaited s) (v : ℤ) : Owed (s.leave p (.returned v)) :=
  Owed.leave h (by simp) (by simp)

theorem Owed.crit (h : Owed s) (hh : s.holder = some (p, c)) (hok : NoSilentReturn s (.go p)) :
    Owed (critStep p s c) := by
  cases c with
  | write w i =>
    simp only [critStep]
    split
    · rename_i hi
      split
      · rename_i hret
        refine Owed.leave_returned ⟨fun q r hq => ?_, fun q w i hq => ?_⟩ _
        · refine ⟨?_, h.writeopen q r hq⟩
          rcases h.empty q r hq with he | ⟨hro, -⟩
          · exact he
          · -- Bytes were stored in this section: the reader end is open, so the writer was killed.
            have hk := hret.resolve_left (by simp [hro])
            exact (hok w i hh hi hro hk).resolve_right fun hno => hno q r hq
        · have := (h.wakeReaders hh rfl).writers q w i (Loc.wakeRead_eq_asleepWrite.mpr hq)
          exact this
      · rename_i hret
        have hro : s.pipe.readopen = true := by
          by_contra hro
          exact hret (.inl (by simpa using hro))
        refine ⟨h.writeopen, h.readopen, fun q r hq => (h.empty q r hq).imp id fun _ => ⟨hro, p, _, rfl, rfl⟩,
          fun q w i hq => .inl ?_, fun _ _ _ _ => hro, fun q r hq => by cases hq⟩
        exact ((h.wakeReaders hh rfl).writers q w i (Loc.wakeRead_eq_asleepWrite.mpr hq)).1
    · exact Owed.leave_returned (h.wakeReaders hh rfl) _
  | writeBody w i =>
    have hro := h.body p w i hh
    simp only [critStep]
    split
    · rename_i hfull
      refine Owed.leave (h.wakeReaders hh rfl) (by simp) fun _ _ _ => ⟨hfull, hro⟩
    · rename_i hfull
      split
      · exact Owed.leave_returned (h.wakeReaders hh rfl) _
      · -- There is room, so no writer sleeps; the readers are owed a wakeup.
        have hnone : ∀ q w i, s.loc q ≠ .asleepWrite w i := by
          intro q w i hq
          exact hfull ((h.wakeReaders hh rfl).writers q w i (Loc.wakeRead_eq_asleepWrite.mpr hq)).1
        exact ⟨h.writeopen, h.readopen, fun q r hq => .inr ⟨hro, p, _, rfl, rfl⟩,
          fun q w i hq => absurd hq (hnone q w i), fun _ _ _ hq => (by cases hq), fun q r hq => by cases hq⟩
  | readHead r =>
    have ha := h.clear hh rfl rfl
    simp only [critStep]
    split
    · rename_i hc
      split
      · exact Owed.leave_returned ha _
      · exact ha.hold (by simp) fun _ _ => by simpa using hc
    · exact ha.hold (by simp) (by simp)
  | readSleep r => exact Owed.leave (h.clear hh rfl rfl) (fun _ _ => h.sleep p r hh) (by simp)
  | readCopy r i =>
    have hempty : ∀ q r, s.loc q = .asleepRead r → s.pipe.empty = true := fun q r hq =>
      ((h.wakeWriters hh rfl).readers q r (Loc.wakeWrite_eq_asleepRead.mpr hq)).1
    simp only [critStep]
    split
    · rename_i hc
      have hnone : ∀ q r, s.loc q ≠ .asleepRead r := fun q r hq => hc.2 (hempty q r hq)
      split
      · exact ⟨fun q r hq => absurd hq (hnone q r), h.readopen, fun q r hq => absurd hq (hnone q r),
          fun q w i hq => .inr ⟨p, _, rfl, rfl⟩, fun q w i hq => (by cases hq), fun q r hq => by cases hq⟩
      · refine Owed.leave_returned ⟨fun q r hq => ?_, fun q w i hq => absurd hq Loc.wakeWrite_eq_asleepWrite⟩ _
        exact absurd (Loc.wakeWrite_eq_asleepRead.mp hq) (hnone q r)
    · exact Owed.leave_returned (h.wakeWriters hh rfl) _
  | close b =>
    have ha := h.clear hh rfl rfl
    have hclosed : Awaited (if b then { s with pipe := { s.pipe with writeopen := false } }.wakeReaders
        else { s with pipe := { s.pipe with readopen := false } }.wakeWriters) := by
      split
      · exact ⟨fun q r hq => absurd hq Loc.wakeRead_eq_asleepRead,
          fun q w i hq => ha.writers q w i (Loc.wakeRead_eq_asleepWrite.mp hq)⟩
      · exact ⟨fun q r hq => ha.readers q r (Loc.wakeWrite_eq_asleepRead.mp hq),
          fun q w i hq => absurd hq Loc.wakeWrite_eq_asleepWrite⟩
    have hl := Owed.leave_returned (p := p) hclosed 0
    exact ⟨hl.writeopen, hl.readopen, hl.empty, hl.full, hl.body, hl.sleep⟩

theorem Owed.step {e : Action P} (h : Owed s) (hok : NoSilentReturn s e) (hst : StepCases s e s') : Owed s' := by
  cases hst with
  | call p c hl =>
    refine h.fewer _ _ (fun q r hq => ?_) fun q w i hq => ?_
    all_goals
      rw [update_apply] at hq
      split at hq
      · cases c <;> cases hq
      · exact hq
  | crit p c hh => exact h.crit hh hok
  | acquire p c hh hl =>
    have hc : ∀ r, c ≠ .readSleep r := by
      rintro r rfl
      cases hloc : s.loc p <;> rw [hloc] at hl <;> cases hl
    have hb : ∀ w i, c ≠ .writeBody w i := by
      rintro w i rfl
      cases hloc : s.loc p <;> rw [hloc] at hl <;> cases hl
    exact (h.awaited hh).hold (fun w i he => absurd he (hb w i)) fun r he => absurd he (hc r)
  | kill p =>
    refine h.fewer _ _ (fun q r hq => ?_) fun q w i hq => ?_
    all_goals
      rw [update_apply] at hq
      split at hq
    · exact absurd (Loc.wakeWrite_eq_asleepRead.mp hq) Loc.wakeRead_eq_asleepRead
    · exact hq
    · exact absurd hq Loc.wakeWrite_eq_asleepWrite
    · exact hq

end Steps

variable {P : Type} {s : State P}

theorem init_owed (data : Fin PIPESIZE → BitVec 8) (killed : P → Bool) : Owed (init data killed) := by
  constructor <;> simp [init]

variable [DecidableEq P]

theorem run_holderAwake {ok : State P → Action P → Prop} {data : Fin PIPESIZE → BitVec 8} {killed : P → Bool}
    {es : List (Action P)} (h : Run step ok (init data killed) es s) : HolderAwake s := by
  refine h.stateInvariant ?_ ?_
  · exact fun p c hp => by cases hp
  · exact fun s e s' hi _ hst => hi.step (step_cases hst)

theorem run_owed {data : Fin PIPESIZE → BitVec 8} {killed : P → Bool} {es : List (Action P)}
    (h : Run step NoSilentReturn (init data killed) es s) : Owed s := by
  refine h.stateInvariant ?_ ?_
  · exact init_owed data killed
  · exact fun s e s' hi hok hst => hi.step hok (step_cases hst)

/-- A silent return leaves a reader asleep beside the bytes. -/
theorem lost_of_silentReturn {s' : State P} {e : Action P} (ha : HolderAwake s) (hst : step s e = .next s')
    (hbad : ¬ NoSilentReturn s e) : ¬ NoLostWakeup s' := by
  cases e with
  | go p =>
    simp only [NoSilentReturn, not_forall, not_or, not_not] at hbad
    obtain ⟨w, i, hh, hi, hro, hk, hne, q, r, hq⟩ := hbad
    have hs' : s' = s.leave p (.returned (-1)) := by
      cases step_cases hst with
      | crit _ c hc =>
        rw [hh] at hc
        cases hc
        simp [critStep, hi, hk]
      | acquire _ c hc _ =>
        rw [hh] at hc
        cases hc
    subst hs'
    intro hlost
    have hqp : q ≠ p := by
      rintro rfl
      have := ha q _ hh
      rw [hq] at this
      exact this rfl
    have := (hlost rfl).readers q r (by simp [State.leave, hqp, hq])
    exact hne this.1
  | _ => exact absurd trivial hbad

/-- **No lost wakeup.** Along a run nobody sleeps in vain with the lock free, if and only if no writer that
has stored bytes beside a sleeping reader returns because it was killed. -/
theorem no_lost_wakeup_iff (data : Fin PIPESIZE → BitVec 8) (killed : P → Bool) (es : List (Action P)) (s : State P)
    (h : Run step anyAction (init data killed) es s) :
    (Run step (fun s _ => NoLostWakeup s) (init data killed) es s ∧ NoLostWakeup s) ↔
      Run step NoSilentReturn (init data killed) es s := by
  induction h with
  | nil => exact ⟨fun _ => .nil, fun _ => ⟨.nil, fun hf => (init_owed data killed).awaited hf⟩⟩
  | @snoc es s s' e hrun _ hst ih =>
    have ha := run_holderAwake hrun
    rw [hrun.snoc_iff hst, hrun.snoc_iff hst]
    constructor
    · rintro ⟨⟨hgood, hs⟩, hs'⟩
      refine ⟨ih.mp ⟨hgood, hs⟩, ?_⟩
      by_contra hbad
      exact lost_of_silentReturn ha hst hbad hs'
    · rintro ⟨hquiet, hok⟩
      have ho := run_owed (hquiet.snoc hok hst)
      obtain ⟨hgood, hs⟩ := ih.mpr hquiet
      exact ⟨⟨hgood, hs⟩, ho.awaited⟩

def Loc.isAsleepRead : Loc → Bool
  | .asleepRead _ => true
  | _ => false

def wokenReader : List (Action Bool) :=
  [.call false (.read ⟨1, fun _ => true⟩), .go false, .go false, .go false,
    .call true (.write ⟨1, fun _ => some 5⟩), .go true, .go true, .go true, .go true]

theorem wokenReader_runs : (exec step wokenReader (init (fun _ => 0) fun _ => false)).check
    (fun s => s.holder.isNone && !s.pipe.empty && !(s.loc false).isAsleepRead) = true := by
  decide +kernel

theorem wokenReader_not_lost :
    ∃ s, exec step wokenReader (init (fun _ => 0) fun _ => false) = .next s ∧ s.holder = none ∧
      s.pipe.empty = false ∧ (∀ r, s.loc false ≠ .asleepRead r) ∧
      ((Run step (fun s _ => NoLostWakeup s) (init (fun _ => 0) fun _ => false) wokenReader s ∧ NoLostWakeup s) ↔
        Run step NoSilentReturn (init (fun _ => 0) fun _ => false) wokenReader s) := by
  obtain ⟨s, hs, hcheck⟩ := exists_of_check _ _ _ _ wokenReader_runs
  simp only [Bool.and_eq_true, Option.isNone_iff_eq_none, Bool.not_eq_true'] at hcheck
  refine ⟨s, hs, hcheck.1.1, hcheck.1.2, fun r hr => ?_,
    no_lost_wakeup_iff _ _ wokenReader s (Run.of_exec (admitted_anyAction _ _) hs)⟩
  have hl := hcheck.2
  simp [hr, Loc.isAsleepRead] at hl

def killedWriter : List (Action Bool) :=
  [.call false (.read ⟨1, fun _ => true⟩), .go false, .go false, .go false,
    .call true (.write ⟨2, fun _ => some 5⟩), .go true, .go true, .go true, .kill true, .go true]

theorem killedWriter_runs : (exec step killedWriter (init (fun _ => 0) fun _ => false)).check
    (fun s => s.holder.isNone && !s.pipe.empty && (s.loc false).isAsleepRead) = true := by
  decide +kernel

theorem killedWriter_lost :
    ∃ s, exec step killedWriter (init (fun _ => 0) fun _ => false) = .next s ∧ s.holder = none ∧
      (∃ r, s.loc false = .asleepRead r) ∧ s.pipe.empty = false := by
  obtain ⟨s, hs, hcheck⟩ := exists_of_check _ _ _ _ killedWriter_runs
  simp only [Bool.and_eq_true, Option.isNone_iff_eq_none, Bool.not_eq_true'] at hcheck
  refine ⟨s, hs, hcheck.1.1, ?_, hcheck.1.2⟩
  have hl := hcheck.2
  cases hloc : s.loc false with
  | asleepRead r => exact ⟨r, rfl⟩
  | _ => simp [hloc, Loc.isAsleepRead] at hl

end Xv6Boot.Kernel.PipeC
