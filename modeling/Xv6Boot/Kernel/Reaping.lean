import Xv6Boot.Kernel.WaitExit

/-! # What `wait` returns

The history of the table: every process ever created has a number, exits once, and is handed out by at
most one `wait`, to the parent it has then.
-/

namespace Xv6Boot.Kernel.ProcTable
open Transition

structure Ledger (s : State) : Prop where
  created : ∀ q, (s.proc q).state ≠ .unused → s.serial q < s.created
  distinct : ∀ q r, (s.proc q).state ≠ .unused → (s.proc r).state ≠ .unused → s.serial q = s.serial r → q = r
  past : ∀ e ∈ s.exits, e.serial < s.created
  exited : ∀ e ∈ s.exits, ∀ q, (s.proc q).state ≠ .unused → s.serial q = e.serial → (s.proc q).state = .zombie
  exitsOnce : (s.exits.map Exit.serial).Nodup
  recorded : ∀ q, (s.proc q).state = .zombie → ⟨s.serial q, (s.proc q).pid, (s.proc q).xstate⟩ ∈ s.exits
  reaped : ∀ r ∈ s.reaps, r.toExit ∈ s.exits ∧ r.parent = some r.reaper
  gone : ∀ r ∈ s.reaps, ∀ q, (s.proc q).state ≠ .unused → s.serial q ≠ r.serial
  reapsOnce : (s.reaps.map fun r => r.serial).Nodup

theorem boot_ledger : Ledger boot := by
  have hused : ∀ q, (boot.proc q).state ≠ .unused → q = initproc := by
    intro q hq
    by_contra hne
    rw [boot_proc_ne hne] at hq
    exact hq rfl
  refine ⟨fun q _ => Nat.zero_lt_one, fun q r hq hr _ => ?_, ?_, ?_, ?_, fun q hq => ?_, ?_, ?_, ?_⟩
  · rw [hused q hq, hused r hr]
  · simp [boot]
  · simp [boot]
  · simp [boot]
  · have := hused q (by rw [hq]; simp)
    rw [this, boot_proc_init] at hq
    cases hq
  · simp [boot]
  · simp [boot]
  · simp [boot]

/-! ## Steps that create, end and free no process -/

structure Steady (s s' : State) : Prop where
  unused : ∀ q, (s'.proc q).state = .unused ↔ (s.proc q).state = .unused
  zombie : ∀ q, (s'.proc q).state = .zombie ↔ (s.proc q).state = .zombie
  pid : ∀ q, (s'.proc q).pid = (s.proc q).pid
  xstate : ∀ q, (s'.proc q).xstate = (s.proc q).xstate
  serial : s'.serial = s.serial
  created : s'.created = s.created
  exits : s'.exits = s.exits
  reaps : s'.reaps = s.reaps

theorem Ledger.steady {s s' : State} (h : Ledger s) (hs : Steady s s') : Ledger s' := by
  constructor <;>
    simp only [ne_eq, hs.unused, hs.zombie, hs.pid, hs.xstate, hs.serial, hs.created, hs.exits, hs.reaps]
  exacts [h.created, h.distinct, h.past, h.exited, h.exitsOnce, h.recorded, h.reaped, h.gone, h.reapsOnce]

section Steady
variable {s : State} {p q : Slot}

theorem Steady.refl (s : State) : Steady s s :=
  ⟨fun _ => Iff.rfl, fun _ => Iff.rfl, fun _ => rfl, fun _ => rfl, rfl, rfl, rfl, rfl⟩

theorem steady_modProc {f : Proc → Proc} (hun : (f (s.proc q)).state = .unused ↔ (s.proc q).state = .unused)
    (hz : (f (s.proc q)).state = .zombie ↔ (s.proc q).state = .zombie) (hpid : (f (s.proc q)).pid = (s.proc q).pid)
    (hx : (f (s.proc q)).xstate = (s.proc q).xstate) : Steady s (s.modProc q f) := by
  have hproc : ∀ r, r = q ∨ (s.modProc q f).proc r = s.proc r := by
    intro r
    by_cases he : r = q
    · exact .inl he
    · exact .inr (by rw [s.modProc_proc, if_neg he])
  refine ⟨fun r => ?_, fun r => ?_, fun r => ?_, fun r => ?_, rfl, rfl, rfl, rfl⟩ <;>
    rcases hproc r with rfl | he
  all_goals first | rw [s.modProc_self] | rw [he]
  · exact hun
  · exact hz
  · exact hpid
  · exact hx

theorem steady_wakeupProc (chan : Option Chan) (q : Slot) : Steady s (s.modProc q (wakeupProc chan)) := by
  refine steady_modProc ?_ ?_ ?_ ?_ <;> rw [wakeupProc_eq] <;> split <;> simp_all

theorem steady_killProc (q : Slot) : Steady s (s.modProc q killProc) := by
  refine steady_modProc ?_ ?_ rfl rfl <;> simp only [killProc, Sched.kill] <;> split <;> simp_all

theorem steady_wakeupSlot (chan : Option Chan) : Steady s (s.wakeupSlot p q chan) := by
  unfold State.wakeupSlot
  split
  · exact steady_wakeupProc chan q
  · exact .refl s

theorem Steady.moved {s' s'' : State} (h : Steady s s') (hproc : s''.proc = s'.proc) (hserial : s''.serial = s'.serial)
    (hcreated : s''.created = s'.created) (hexits : s''.exits = s'.exits) (hreaps : s''.reaps = s'.reaps) :
    Steady s s'' := by
  constructor <;> simp only [hproc, hserial, hcreated, hexits, hreaps]
  exacts [h.unused, h.zombie, h.pid, h.xstate, h.serial, h.created, h.exits, h.reaps]

theorem steady_goto (c : Pc) : Steady s (s.goto p c) := (Steady.refl s).moved rfl rfl rfl rfl rfl

theorem steady_enter (c : Crit) : Steady s (s.enter p c) := (Steady.refl s).moved rfl rfl rfl rfl rfl

theorem steady_release : Steady s s.release := (Steady.refl s).moved rfl rfl rfl rfl rfl

end Steady

/-! ## The other steps -/

section Events
variable {s s' : State} {p q : Slot}

theorem Ledger.create (h : Ledger s) (q : Slot) : Ledger (s.create q) := by
  have hself : ((s.create q).proc q).state = .used := by simp [State.create]
  have hold : ∀ r, r ≠ q → (s.create q).proc r = s.proc r ∧ (s.create q).serial r = s.serial r := by
    intro r hr
    simp [State.create, hr]
  have hnew : (s.create q).serial q = s.created := by simp [State.create]
  have hcr : (s.create q).created = s.created + 1 := rfl
  have hex : (s.create q).exits = s.exits := rfl
  have hre : (s.create q).reaps = s.reaps := rfl
  refine ⟨fun r hr => ?_, fun r t hr ht he => ?_, fun e he => ?_, fun e he r hr hs => ?_, h.exitsOnce, fun r hr => ?_,
    h.reaped, fun x hx r hr => ?_, h.reapsOnce⟩
  · by_cases hrq : r = q
    · rw [hrq, hnew]
      exact Nat.lt_succ_self _
    · obtain ⟨h1, h2⟩ := hold r hrq
      rw [h1] at hr
      rw [h2]
      exact Nat.lt_succ_of_lt (h.created r hr)
  · by_cases hrq : r = q <;> by_cases htq : t = q
    · rw [hrq, htq]
    · obtain ⟨h1, h2⟩ := hold t htq
      rw [hrq, hnew, h2] at he
      rw [h1] at ht
      have := h.created t ht
      omega
    · obtain ⟨h1, h2⟩ := hold r hrq
      rw [htq, hnew, h2] at he
      rw [h1] at hr
      have := h.created r hr
      omega
    · rw [(hold r hrq).2, (hold t htq).2] at he
      rw [(hold r hrq).1] at hr
      rw [(hold t htq).1] at ht
      exact h.distinct r t hr ht he
  · exact Nat.lt_succ_of_lt (h.past e he)
  · by_cases hrq : r = q
    · have := h.past e he
      rw [hrq, hnew] at hs
      omega
    · rw [(hold r hrq).2] at hs
      rw [(hold r hrq).1] at hr ⊢
      exact h.exited e he r hr hs
  · by_cases hrq : r = q
    · rw [hrq, hself] at hr
      cases hr
    · rw [(hold r hrq).1] at hr ⊢
      rw [(hold r hrq).2]
      exact h.recorded r hr
  · by_cases hrq : r = q
    · have := h.past _ (h.reaped x hx).1
      rw [hrq, hnew]
      omega
    · rw [(hold r hrq).1] at hr
      rw [(hold r hrq).2]
      exact h.gone x hx r hr

theorem Ledger.freeproc (h : Ledger s) (q : Slot) : Ledger (s.modProc q ProcTable.freeproc) := by
  have hself : ((s.modProc q ProcTable.freeproc).proc q).state = .unused := by rw [s.modProc_self]; rfl
  have hold : ∀ r, ((s.modProc q ProcTable.freeproc).proc r).state ≠ .unused → (s.modProc q ProcTable.freeproc).proc r =
    s.proc r := by
    intro r hr
    rw [s.modProc_proc]
    split
    · rename_i he
      exact absurd (he ▸ hself) hr
    · rfl
  have hne : ∀ r, ((s.modProc q ProcTable.freeproc).proc r).state ≠ .unused → (s.proc r).state ≠ .unused :=
    fun r hr => hold r hr ▸ hr
  refine ⟨fun r hr => h.created r (hne r hr), fun r t hr ht => h.distinct r t (hne r hr) (hne t ht), h.past,
    fun e he r hr hs => ?_, h.exitsOnce, fun r hr => ?_, h.reaped, fun x hx r hr => h.gone x hx r (hne r hr),
    h.reapsOnce⟩
  · rw [hold r hr]
    exact h.exited e he r (hne r hr) hs
  · have hr' : ((s.modProc q ProcTable.freeproc).proc r).state ≠ .unused := by rw [hr]; simp
    rw [hold r hr'] at hr ⊢
    exact h.recorded r hr

theorem Ledger.zombify (h : Ledger s) (hrun : (s.proc p).state = .running) (st : BitVec 32) :
    Ledger { (s.modProc p fun q => { q with xstate := st, state := .zombie }) with
             exits := s.exits ++ [⟨s.serial p, (s.proc p).pid, st⟩] } := by
  have hself : (s.modProc p fun q => { q with xstate := st, state := .zombie }).proc p =
      { s.proc p with xstate := st, state := .zombie } := s.modProc_self p _
  have hold : ∀ r, r ≠ p → (s.modProc p fun q => { q with xstate := st, state := .zombie }).proc r = s.proc r :=
    fun r hr => by rw [s.modProc_proc, if_neg hr]
  have hlive : (s.proc p).state ≠ .unused := by rw [hrun]; simp
  have hne : ∀ r, ((s.modProc p fun q => { q with xstate := st, state := .zombie }).proc r).state ≠ .unused →
      (s.proc r).state ≠ .unused := by
    intro r hr
    by_cases he : r = p
    · exact he ▸ hlive
    · exact hold r he ▸ hr
  generalize hs1 : s.modProc p (fun q => { q with xstate := st, state := .zombie }) = s1 at hself hold hne
  have hserial : s1.serial = s.serial := by rw [← hs1]; rfl
  have hcreated : s1.created = s.created := by rw [← hs1]; rfl
  have hreaps : s1.reaps = s.reaps := by rw [← hs1]; rfl
  constructor <;> dsimp only <;> try simp only [hserial, hcreated, hreaps]
  · exact fun r hr => h.created r (hne r hr)
  · exact fun r t hr ht => h.distinct r t (hne r hr) (hne t ht)
  · intro e he
    rcases List.mem_append.mp he with he | he
    · exact h.past e he
    · rw [List.mem_singleton.mp he]
      exact h.created p hlive
  · intro e he r hr hs
    by_cases hrp : r = p
    · rw [hrp, hself]
    · rw [hold r hrp]
      rcases List.mem_append.mp he with he | he
      · exact h.exited e he r (hne r hr) hs
      · rw [List.mem_singleton.mp he] at hs
        exact absurd (h.distinct r p (hne r hr) hlive hs) hrp
  · rw [List.map_append, List.nodup_append]
    refine ⟨h.exitsOnce, by simp, fun x hx y hy => ?_⟩
    obtain ⟨e, he, rfl⟩ := List.mem_map.mp hx
    rintro rfl
    have hy' : e.serial = s.serial p := by simpa using hy
    have := h.exited e he p hlive hy'.symm
    rw [hrun] at this
    cases this
  · intro r hr
    by_cases hrp : r = p
    · rw [hrp, hself]
      exact List.mem_append_right _ (List.mem_singleton_self _)
    · rw [hold r hrp] at hr ⊢
      exact List.mem_append_left _ (h.recorded r hr)
  · exact fun x hx => ⟨List.mem_append_left _ (h.reaped x hx).1, (h.reaped x hx).2⟩
  · exact fun x hx r hr => h.gone x hx r (hne r hr)
  · exact h.reapsOnce

theorem Ledger.reap (h : Ledger s) (hz : (s.proc q).state = .zombie) (hpar : (s.proc q).parent = some p) :
    Ledger { s.modProc q ProcTable.freeproc with
             reaps := s.reaps ++ [⟨⟨s.serial q, (s.proc q).pid, (s.proc q).xstate⟩, p, (s.proc q).parent⟩] } := by
  have hf := h.freeproc q
  have hlive : (s.proc q).state ≠ .unused := by rw [hz]; simp
  have hne : ∀ r, ((s.modProc q ProcTable.freeproc).proc r).state ≠ .unused → r ≠ q ∧ (s.proc r).state ≠ .unused := by
    intro r hr
    rw [s.modProc_proc] at hr
    split at hr
    · exact absurd rfl hr
    · rename_i he
      exact ⟨he, hr⟩
  refine ⟨hf.created, hf.distinct, hf.past, hf.exited, hf.exitsOnce, hf.recorded, fun x hx => ?_, fun x hx r hr => ?_, ?_⟩
  · rcases List.mem_append.mp hx with hx | hx
    · exact h.reaped x hx
    · rw [List.mem_singleton.mp hx]
      exact ⟨h.recorded q hz, hpar⟩
  · obtain ⟨hrq, hr'⟩ := hne r hr
    rcases List.mem_append.mp hx with hx | hx
    · exact h.gone x hx r hr'
    · rw [List.mem_singleton.mp hx]
      exact fun hs => hrq (h.distinct r q hr' hlive hs)
  · dsimp only
    rw [List.map_append, List.nodup_append]
    refine ⟨h.reapsOnce, by simp, fun x hx y hy => ?_⟩
    obtain ⟨e, he, rfl⟩ := List.mem_map.mp hx
    rintro rfl
    have hy' : e.serial = s.serial q := by simpa using hy
    exact h.gone e he q hlive hy'.symm

theorem Ledger.call (h : Ledger s) {c : Call} (hrun : (s.proc p).state = .running)
    (hst : callStep p s c = .next s') : Ledger s' := by
  cases c with
  | exit st =>
    simp only [callStep] at hst
    split at hst
    · cases hst
    · cases hst
      exact h.steady (steady_goto _)
  | sleep chan =>
    cases hst
    refine Ledger.steady ?_ (steady_goto _)
    refine h.steady (steady_modProc ?_ ?_ rfl rfl) <;> simp [hrun]
  | _ =>
    cases hst
    exact h.steady (steady_goto _)

theorem Ledger.go (hi : Inv s) (h : Ledger s) {fail : Bool} (hst : pcStep p fail s (s.pc p) = .next s') :
    Ledger s' := by
  cases hpc : s.pc p with
  | forkScan i =>
    rw [hpc] at hst
    simp only [pcStep] at hst
    split at hst
    · split at hst
      · split at hst
        · cases hst
          exact ((h.create _).freeproc _).steady (steady_goto _)
        · cases hst
          exact (h.create _).steady (steady_goto _)
      · cases hst
        exact h.steady (steady_goto _)
    · cases hst
      exact h.steady (steady_goto _)
  | forkLink np =>
    rw [hpc] at hst
    simp only [pcStep] at hst
    split at hst
    · cases hst
      refine Ledger.steady ?_ (steady_goto _)
      exact h.steady (steady_modProc Iff.rfl Iff.rfl rfl rfl)
    · cases hst
  | forkStart np =>
    rw [hpc] at hst
    cases hst
    have hused := hi.forks p np (.inr hpc)
    refine Ledger.steady ?_ (steady_goto _)
    refine h.steady (steady_modProc ?_ ?_ rfl rfl) <;> simp [hused]
  | wakeScan chan j =>
    rw [hpc] at hst
    simp only [pcStep] at hst
    split at hst
    · cases hst
      exact (h.steady (steady_wakeupSlot _)).steady (steady_goto _)
    · cases hst
      exact h.steady (steady_goto _)
  | killScan pid i =>
    rw [hpc] at hst
    simp only [pcStep] at hst
    split at hst
    · split at hst
      · cases hst
        exact h.steady ((steady_killProc _).moved rfl rfl rfl rfl rfl)
      · cases hst
        exact h.steady (steady_goto _)
    · cases hst
      exact h.steady (steady_goto _)
  | exitEnter st =>
    rw [hpc] at hst
    simp only [pcStep] at hst
    split at hst
    · cases hst
      exact h.steady (steady_enter _)
    · cases hst
  | waitEnter =>
    rw [hpc] at hst
    simp only [pcStep] at hst
    split at hst
    · cases hst
      exact h.steady (steady_enter _)
    · cases hst
  | _ =>
    rw [hpc] at hst
    cases hst

theorem Ledger.crit (h : Ledger s) {c : Crit} (fail : Bool) (hrun : (s.proc p).state = .running) :
    Ledger (critStep p fail s c) := by
  cases c with
  | reparent st i =>
    simp only [critStep]
    split
    · split
      · refine Ledger.steady ?_ (steady_enter _)
        exact h.steady (steady_modProc Iff.rfl Iff.rfl rfl rfl)
      · exact h.steady (steady_enter _)
    · exact h.steady (steady_enter _)
  | wakeInit st i j =>
    simp only [critStep]
    split
    · exact (h.steady (steady_wakeupSlot _)).steady (steady_enter _)
    · exact h.steady (steady_enter _)
  | wakeParent st j =>
    simp only [critStep]
    split
    · exact (h.steady (steady_wakeupSlot _)).steady (steady_enter _)
    · exact h.steady (steady_enter _)
  | zombify st => exact (h.zombify hrun st).steady ((Steady.refl _).moved rfl rfl rfl rfl rfl)
  | waitScan i havekids =>
    simp only [critStep]
    split
    · split
      · rename_i hpar
        split
        · rename_i hz
          split
          · exact (h.steady (steady_goto _)).steady steady_release
          · exact (h.reap hz hpar).steady ((Steady.refl _).moved rfl rfl rfl rfl rfl)
        · exact h.steady (steady_enter _)
      · exact h.steady (steady_enter _)
    · exact h.steady (steady_enter _)
  | waitCheck havekids =>
    simp only [critStep]
    split
    · exact (h.steady (steady_goto _)).steady steady_release
    · exact h.steady (steady_enter _)
  | waitSleep =>
    refine Ledger.steady (Ledger.steady ?_ (steady_goto _)) steady_release
    refine h.steady (steady_modProc ?_ ?_ rfl rfl) <;> simp [hrun]

theorem Ledger.step {e : Action} (hi : Inv s) (h : Ledger s) (hst : StepCases s e s') : Ledger s' := by
  cases hst with
  | call p c _ hrun hpc hst => exact h.call hrun hst
  | crit p fail c hrun hh => exact h.crit fail hrun
  | go p fail _ hrun hh hst => exact h.go hi hst
  | schedule p hst =>
    refine Ledger.steady ?_ (steady_goto _)
    refine h.steady (steady_modProc ?_ ?_ rfl rfl) <;> simp [hst]
  | yield p hrun hh =>
    refine h.steady (steady_modProc ?_ ?_ rfl rfl) <;> simp [hrun]

end Events

theorem run_inv {ok : State → Action → Prop} {es : List Action} {s : State} (h : Run step ok boot es s) :
    Inv s ∧ Ledger s := by
  refine h.stateInvariant ?_ ?_
  · exact ⟨boot_inv, boot_ledger⟩
  · rintro s e s' ⟨hi, hl⟩ - hst
    exact ⟨hi.step (step_cases hst), hl.step hi (step_cases hst)⟩

/-- **No child is lost or reaped twice.** In every state of every interleaving. -/
theorem run_children (es : List Action) (s : State) (h : Run step anyAction boot es s) :
    (s.holder = none → ∀ q, q ≠ initproc → (s.proc q).state ≠ .unused → (s.proc q).state ≠ .used →
      ∃ r, (s.proc q).parent = some r ∧ (s.proc r).state ≠ .unused ∧ (s.proc r).state ≠ .zombie) ∧
    (s.holder = none → ∀ r c, SleepsInWait s r → (s.proc c).parent = some r → (s.proc c).state ≠ .zombie) ∧
    (s.exits.map Exit.serial).Nodup ∧ (s.reaps.map fun r => r.serial).Nodup ∧
    ∀ r ∈ s.reaps, r.toExit ∈ s.exits ∧ r.parent = some r.reaper := by
  obtain ⟨hi, hl⟩ := run_inv h
  refine ⟨fun _ q hq hun hus => ?_, hi.free, hl.exitsOnce, hl.reapsOnce, hl.reaped⟩
  have halive : (s.proc q).Live ∨ (s.proc q).state = .zombie := by
    cases hst : (s.proc q).state <;> simp_all [Proc.Live]
  obtain ⟨r, hr⟩ := Option.ne_none_iff_exists'.mp (hi.hasParent q hq halive)
  refine ⟨r, hr, ?_⟩
  rcases hi.parentLive q r hr with hs | hs | hs <;> simp [hs]

/-- `init` forks a child and sleeps in `wait`; the child exits with status 7 and `init` gets it. -/
def reapedChild : List Action := List.flatten
  [[.schedule initproc, .call initproc .fork], .replicate 4 (.go initproc false),
    [.call initproc .wait], .replicate 68 (.go initproc false),
    [.schedule firstChild, .call firstChild (.exit 7)], .replicate 132 (.go firstChild false),
    [.schedule initproc], .replicate 3 (.go initproc false)]

theorem reapedChild_runs : (exec step reapedChild boot).check
    (fun s => s.reaps.map (fun r => (r.pid, r.status, r.reaper)) == [(2, 7, initproc)]) = true := by
  decide +kernel

theorem reapedChild_once :
    ∃ s, exec step reapedChild boot = .next s ∧
      s.reaps.map (fun r => (r.pid, r.status, r.reaper)) = [(2, 7, initproc)] ∧
      ∀ r ∈ s.reaps, r.toExit ∈ s.exits ∧ r.parent = some r.reaper := by
  obtain ⟨s, hs, hcheck⟩ := exists_of_check step reapedChild boot _ reapedChild_runs
  have h := run_children reapedChild s (Run.of_exec (admitted_anyAction _ _) hs)
  exact ⟨s, hs, by simpa using hcheck, h.2.2.2.2⟩

end Xv6Boot.Kernel.ProcTable
