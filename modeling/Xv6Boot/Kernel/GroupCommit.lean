import Xv6Boot.Kernel.LogGate

/-! # `begin_op`, `log_write`, `end_op`: one commit for a group of operations

Any number of processes, one action for each section under `log.lock` and for each disk write of `commit`,
which runs without the lock; `kill` may wake a process that sleeps in `begin_op`. The fields of the state from
`nops` on are history: the operations begun since the last commit,
those that have ended, what they have logged; the disk and the transaction the last commit started with.
-/

namespace Xv6Boot.Kernel.GroupCommit
open Function Transition AtomicWrites Log

/-! ## The machine -/

inductive CommitPc where
  | start
  | writeLog (tail : ℕ)
  | writeHead
  | install (tail : ℕ)
  | clear
  | eraseHead
  | done
  deriving DecidableEq

structure State (P : Type) extends Gate P ℕ CommitPc where
  cache : BlockNo → Block
  disk : Disk
  nops : ℕ
  running : Finset ℕ
  ended : Finset ℕ
  writes : List (ℕ × BlockNo × Block)
  base : Disk
  txn : Txn

inductive Action (P : Type) where
  | beginOp (p : P)
  | enter (p : P)
  | logWrite (p : P) (b : BlockNo) (data : Block)
  | endOp (p : P)
  | commit (p : P)
  | finish (p : P)
  | kill (p : P)
  deriving DecidableEq

section Machine
variable {P : Type} [DecidableEq P] (a : Area)

def init (disk : Disk) : State P where
  outstanding := 0
  committing := false
  lh := []
  loc := fun _ => .idle
  cache := disk
  disk := disk
  nops := 0
  running := ∅
  ended := ∅
  writes := []
  base := disk
  txn := ⟨[], disk⟩

def enter (p : P) (s : State P) : State P :=
  match s.toGate.enter p s.nops with
  | none => { s with loc := update s.loc p .asleep }
  | some g => { s with toGate := g, nops := s.nops + 1, running := insert s.nops s.running }

def logWrite (id : ℕ) (b : BlockNo) (data : Block) (s : State P) : Outcome (State P) :=
  (s.toGate.logWrite a b).map fun g =>
    { s with toGate := g, cache := update s.cache b data, writes := s.writes ++ [(id, b, data)] }

def endOp (p : P) (id : ℕ) (s : State P) : Outcome (State P) :=
  (s.toGate.endOp p .start).map fun g =>
    { s with toGate := g, running := s.running.erase id, ended := insert id s.ended,
             base := if g.committing then s.disk else s.base,
             txn := if g.committing then ⟨s.lh, s.cache⟩ else s.txn }

/-- One disk write of `commit`, or the end of a loop. -/
def commitStep (p : P) (s : State P) : CommitPc → Outcome (State P)
  | .start =>
    .next { s with loc := update s.loc p
                     (.committing (if s.lh.length > 0 then .writeLog 0 else .done)) }
  | .writeLog tail =>
    if tail < s.lh.length then
      .next { s with disk := perform (fun _ => (a.block tail, s.cache (s.lh.getD tail 0))) s.disk,
                     loc := update s.loc p (.committing (.writeLog (tail + 1))) }
    else
      .next { s with loc := update s.loc p (.committing .writeHead) }
  | .writeHead =>
    .next { s with disk := perform (writeHead a s.lh) s.disk,
                   loc := update s.loc p (.committing (.install 0)) }
  | .install tail =>
    if tail < s.lh.length then
      .next { s with disk := perform (fun d => (s.lh.getD tail 0, d (a.block tail))) s.disk,
                     loc := update s.loc p (.committing (.install (tail + 1))) }
    else
      .next { s with loc := update s.loc p (.committing .clear) }
  | .clear =>
    .next { s with lh := [], loc := update s.loc p (.committing .eraseHead) }
  | .eraseHead =>
    .next { s with disk := perform (writeHead a s.lh) s.disk,
                   loc := update s.loc p (.committing .done) }
  | .done => .disabled

/-- The last section of `end_op`; with it the group is over. -/
def finish (p : P) (s : State P) : State P :=
  { s with committing := false, loc := update (wakeup s.loc) p .idle, ended := ∅, writes := [] }

def step (s : State P) : Action P → Outcome (State P)
  | .beginOp p =>
    match s.loc p with
    | .idle => .next { s with loc := update s.loc p .entering }
    | _ => .disabled
  | .enter p =>
    match s.loc p with
    | .entering => .next (enter p s)
    | _ => .disabled
  | .logWrite p b data =>
    match s.loc p with
    | .inOp id => logWrite a id b data s
    | _ => .disabled
  | .endOp p =>
    match s.loc p with
    | .inOp id => endOp p id s
    | _ => .disabled
  | .commit p =>
    match s.loc p with
    | .committing pc => commitStep a p s pc
    | _ => .disabled
  | .finish p =>
    match s.loc p with
    | .committing .done => .next (finish p s)
    | _ => .disabled
  | .kill p =>
    match s.loc p with
    | .asleep => .next { s with loc := update s.loc p .entering }
    | _ => .disabled

end Machine

/-! ## What a step can do -/

section Cases
variable {P : Type} [DecidableEq P] {a : Area} {s s' : State P}

/-- The steps that change nothing but where one process is, and not to or from an operation or a commit. -/
structure Moved (s s' : State P) (p : P) : Prop where
  eq : ∃ l, s' = { s with loc := update s.loc p l } ∧ (l = .entering ∨ l = .asleep)
  before : s.loc p = .idle ∨ s.loc p = .entering ∨ s.loc p = .asleep
  sleeps : s'.loc p = .asleep → s.committing = true ∨
    s.lh.length + (s.outstanding + 1) * MAXOPBLOCKS > (LOGSIZE : ℤ)

inductive StepCases (a : Area) (s : State P) (e : Action P) (s' : State P) : Prop
  | moved (p : P) (h : Moved s s' p)
  | entered (p : P) (hp : s.loc p = .entering) (hc : s.committing = false)
      (hroom : s.lh.length + (s.outstanding + 1) * MAXOPBLOCKS ≤ (LOGSIZE : ℤ))
      (h : s' = { s with outstanding := s.outstanding + 1, loc := update s.loc p (.inOp s.nops),
                         nops := s.nops + 1, running := insert s.nops s.running })
  | wrote (p : P) (id : ℕ) (b : BlockNo) (data : Block) (he : e = .logWrite p b data) (hp : s.loc p = .inOp id)
      (hle : s.lh.length < LOGSIZE) (hlt : (s.lh.length : ℤ) < a.size - 1)
      (h : s' = { s with lh := absorb s.lh b, cache := update s.cache b data,
                         writes := s.writes ++ [(id, b, data)] })
  | last (p : P) (id : ℕ) (hp : s.loc p = .inOp id) (hc : s.committing = false) (ho : s.outstanding = 1)
      (h : s' = { s with outstanding := 0, committing := true,
                         loc := update s.loc p (.committing .start),
                         running := s.running.erase id, ended := insert id s.ended,
                         base := s.disk, txn := ⟨s.lh, s.cache⟩ })
  | left (p : P) (id : ℕ) (hp : s.loc p = .inOp id) (hc : s.committing = false) (ho : s.outstanding ≠ 1)
      (h : s' = { s with outstanding := s.outstanding - 1, loc := update (wakeup s.loc) p .idle,
                         running := s.running.erase id, ended := insert id s.ended })
  | commit (p : P) (pc : CommitPc) (hp : s.loc p = .committing pc) (h : commitStep a p s pc = .next s')
  | finished (p : P) (hp : s.loc p = .committing .done) (h : s' = finish p s)

theorem step_cases {e : Action P} (h : step a s e = .next s') : StepCases a s e s' := by
  cases e with
  | beginOp p =>
    cases hl : s.loc p with
    | idle =>
      simp only [step, hl] at h
      cases h
      exact .moved p ⟨⟨.entering, rfl, .inl rfl⟩, .inl hl, fun he => by simp at he⟩
    | _ => simp [step, hl] at h
  | enter p =>
    cases hl : s.loc p with
    | entering =>
      simp only [step, hl] at h
      cases h
      unfold enter
      split
      · rename_i hn
        exact .moved p ⟨⟨.asleep, rfl, .inr rfl⟩, .inr (.inl hl), fun _ => Gate.enter_eq_none hn⟩
      · rename_i g hg
        obtain ⟨hc, hroom, rfl⟩ := Gate.enter_eq_some hg
        exact .entered p hl hc hroom rfl
    | _ => simp [step, hl] at h
  | logWrite p b data =>
    cases hl : s.loc p with
    | inOp id =>
      simp only [step, hl] at h
      obtain ⟨g, hg, rfl⟩ := Outcome.map_eq_next h
      obtain ⟨hle, hlt, rfl⟩ := Gate.logWrite_eq_next hg
      exact .wrote p id b data rfl hl hle hlt rfl
    | _ => simp [step, hl] at h
  | endOp p =>
    cases hl : s.loc p with
    | inOp id =>
      simp only [step, hl] at h
      obtain ⟨g, hg, rfl⟩ := Outcome.map_eq_next h
      obtain ⟨hc, ⟨ho, rfl⟩ | ⟨ho, rfl⟩⟩ := Gate.endOp_eq_next hg
      · exact .last p id hl hc ho rfl
      · exact .left p id hl hc ho (by simp [hc])
    | _ => simp [step, hl] at h
  | commit p =>
    cases hl : s.loc p with
    | committing pc =>
      simp only [step, hl] at h
      exact .commit p pc hl h
    | _ => simp [step, hl] at h
  | finish p =>
    cases hl : s.loc p with
    | committing pc =>
      cases pc with
      | done =>
        simp only [step, hl] at h
        cases h
        exact .finished p hl rfl
      | _ => simp [step, hl] at h
    | _ => simp [step, hl] at h
  | kill p =>
    cases hl : s.loc p with
    | asleep =>
      simp only [step, hl] at h
      cases h
      exact .moved p ⟨⟨.entering, rfl, .inl rfl⟩, .inr (.inr hl), fun he => by simp at he⟩
    | _ => simp [step, hl] at h

end Cases

/-! ## The books -/

/-- `log.lh.n = 0` has been executed. -/
def CommitPc.cleared : CommitPc → Bool
  | .eraseHead | .done => true
  | _ => false

variable {id : ℕ} {pc : CommitPc}

section Books
variable {P : Type} {a : Area} {s s' : State P} {p : P}

/-- A disk write of `commit` moves one process and touches neither the counters nor the history. -/
structure CommitMoved [DecidableEq P] (s s' : State P) (p : P) (pc : CommitPc) : Prop where
  eq : ∃ pc' lh disk, s' = { s with lh := lh, disk := disk, loc := update s.loc p (.committing pc') } ∧
    (lh = s.lh ∧ (pc'.cleared = true → pc.cleared = true ∨ s.lh = []) ∨ lh = [] ∧ pc'.cleared = true) ∧
    (pc.cleared = true → pc'.cleared = true)

theorem commitStep_moved [DecidableEq P] (h : commitStep a p s pc = .next s') : CommitMoved s s' p pc := by
  cases pc with
  | start =>
    cases h
    refine ⟨⟨_, s.lh, s.disk, rfl, .inl ⟨rfl, ?_⟩, by simp [CommitPc.cleared]⟩⟩
    split
    · simp [CommitPc.cleared]
    · rename_i h0
      exact fun _ => .inr (List.length_eq_zero_iff.mp (by omega))
  | writeLog tail =>
    simp only [commitStep] at h
    split at h <;> cases h <;> exact ⟨⟨_, s.lh, _, rfl, .inl ⟨rfl, by simp [CommitPc.cleared]⟩, by simp [CommitPc.cleared]⟩⟩
  | writeHead =>
    cases h
    exact ⟨⟨_, s.lh, _, rfl, .inl ⟨rfl, by simp [CommitPc.cleared]⟩, by simp [CommitPc.cleared]⟩⟩
  | install tail =>
    simp only [commitStep] at h
    split at h <;> cases h <;> exact ⟨⟨_, s.lh, _, rfl, .inl ⟨rfl, by simp [CommitPc.cleared]⟩, by simp [CommitPc.cleared]⟩⟩
  | clear =>
    cases h
    exact ⟨⟨_, [], s.disk, rfl, .inr ⟨rfl, rfl⟩, by simp [CommitPc.cleared]⟩⟩
  | eraseHead =>
    cases h
    exact ⟨⟨_, s.lh, _, rfl, .inl ⟨rfl, by simp [CommitPc.cleared]⟩, by simp [CommitPc.cleared]⟩⟩
  | done => cases h

structure Books (s : State P) : Prop extends Log.Books CommitPc.cleared s.outstanding s.committing s.lh s.loc where
  runs : ∀ id, id ∈ s.running ↔ ∃ p, s.loc p = .inOp id
  uniq : ∀ p q id, s.loc p = .inOp id → s.loc q = .inOp id → p = q
  fresh : ∀ id ∈ s.running, id < s.nops
  sleepers : ∀ p, s.loc p = .asleep → s.committing = true ∨ s.running.Nonempty

theorem Books.init (disk : Disk) : Books (GroupCommit.init disk : State P) := by
  refine ⟨.init, ?_, ?_, ?_, ?_⟩ <;> simp [GroupCommit.init]

theorem Books.opened (h : Books s) (hp : s.loc p = .inOp id) : id ∈ s.running := (h.runs id).mpr ⟨p, hp⟩

theorem Books.none_iff (h : Books s) : s.running = ∅ ↔ ∀ p id, s.loc p ≠ .inOp id := by
  simp only [Finset.eq_empty_iff_forall_notMem, h.runs, not_exists]
  exact forall_comm

theorem Books.count (h : Books s) : s.outstanding = s.running.card := by
  obtain ⟨ops, hops, ho⟩ := h.outs
  have hid : ∀ p ∈ ops, ∃ id, s.loc p = .inOp id := fun p hp => (hops p).mp hp
  choose id hid using hid
  rw [ho, Nat.cast_inj]
  refine Finset.card_bij id (fun p hp => (h.runs _).mpr ⟨p, hid p hp⟩) (fun p hp q hq he => ?_) fun i hi => ?_
  · exact h.uniq p q _ (hid p hp) (he ▸ hid q hq)
  · obtain ⟨p, hp⟩ := (h.runs i).mp hi
    have hm := (hops p).mpr ⟨i, hp⟩
    exact ⟨p, hm, Loc.inOp.inj ((hid p hm).symm.trans hp)⟩

/-- The history follows where the operations are. -/
theorem Books.of_same (h : Books s) (hop : ∀ q id, s'.loc q = .inOp id ↔ s.loc q = .inOp id)
    (hr : s'.running = s.running) (hn : s'.nops = s.nops)
    (hb : Log.Books CommitPc.cleared s'.outstanding s'.committing s'.lh s'.loc)
    (hs : ∀ p, s'.loc p = .asleep → s'.committing = true ∨ s.running.Nonempty) : Books s' := by
  refine ⟨hb, ?_, ?_, ?_, ?_⟩
  · simpa only [hop, hr] using h.runs
  · simpa only [hop] using h.uniq
  · simpa only [hr, hn] using h.fresh
  · simpa only [hr] using hs

theorem Books.wrote (h : Books s) (hp : s.loc p = .inOp id) (b : BlockNo) (cache : BlockNo → Block)
    (writes : List (ℕ × BlockNo × Block)) : Books { s with lh := absorb s.lh b, cache := cache, writes := writes } :=
  ⟨h.toBooks.wrote hp _, h.runs, h.uniq, h.fresh, h.sleepers⟩

/-- An operation is over: its process is elsewhere, and it is no longer running. -/
theorem Books.over (h : Books s) (hp : s.loc p = .inOp id)
    (hop : ∀ q i, s'.loc q = .inOp i ↔ q ≠ p ∧ s.loc q = .inOp i) (hr : s'.running = s.running.erase id)
    (hn : s'.nops = s.nops) (hb : Log.Books CommitPc.cleared s'.outstanding s'.committing s'.lh s'.loc)
    (hs : ∀ p, s'.loc p ≠ .asleep ∨ s'.committing = true) : Books s' := by
  refine ⟨hb, fun i => ?_, ?_, ?_, fun q hq => .inl ((hs q).resolve_left (absurd hq))⟩
  · simp only [hr, Finset.mem_erase, h.runs, hop]
    constructor
    · rintro ⟨hne, q, hq⟩
      exact ⟨q, by rintro rfl; exact hne (Loc.inOp.inj (hq.symm.trans hp)), hq⟩
    · rintro ⟨q, hqp, hq⟩
      exact ⟨by rintro rfl; exact hqp (h.uniq q p _ hq hp), q, hq⟩
  · have := h.uniq
    grind
  · rw [hr, hn]
    exact fun i hi => h.fresh i (Finset.mem_of_mem_erase hi)

variable [DecidableEq P]

theorem Moved.outside (hm : Moved s s' p) : (s.loc p).outside = true := by
  rcases hm.before with hb | hb | hb <;> rw [hb] <;> rfl

theorem Books.moved (h : Books s) (hm : Moved s s' p) : Books s' := by
  have hbefore := hm.outside
  obtain ⟨⟨l, rfl, hl⟩, -, hsleeps⟩ := hm
  have hl : l.outside = true := by rcases hl with rfl | rfl <;> rfl
  refine h.of_same ?_ rfl rfl (h.toBooks.moved hbefore hl) fun q hq => ?_
  · grind [update_apply, Loc.outside]
  by_cases hqp : q = p
  · subst hqp
    rcases hsleeps hq with hc | hr
    · exact .inl hc
    · -- Asleep for want of space: then the header is not empty, or operations are running.
      by_cases hc : s.committing = true
      · exact .inl hc
      · refine .inr (Finset.nonempty_iff_ne_empty.mpr fun h0 => ?_)
        have hlh := h.empty (by simpa using hc) (h.none_iff.mp h0)
        have hcount := h.count
        rw [h0, Finset.card_empty] at hcount
        rw [hlh, hcount] at hr
        exact absurd hr (by decide)
  · dsimp only at hq
    rw [update_of_ne hqp] at hq
    exact h.sleepers q hq

theorem Books.entered (h : Books s) (hp : s.loc p = .entering) (hc : s.committing = false) :
    Books { s with outstanding := s.outstanding + 1, loc := update s.loc p (.inOp s.nops),
                   nops := s.nops + 1, running := insert s.nops s.running } := by
  have hnew : ∀ q, s.loc q ≠ .inOp s.nops := fun q hq => Nat.lt_irrefl _ (h.fresh _ (h.opened hq))
  refine ⟨h.toBooks.entered hp hc _, fun id => ?_, ?_, ?_, fun _ _ => .inr (Finset.insert_nonempty _ _)⟩ <;> dsimp only
  · rw [Finset.mem_insert, h.runs]
    constructor
    · rintro (rfl | ⟨q, hq⟩)
      · exact ⟨p, update_self _ _ _⟩
      · exact ⟨q, by rw [update_of_ne (by rintro rfl; simp [hp] at hq), hq]⟩
    · grind [update_apply]
  · have := h.uniq
    grind [update_apply]
  · have := h.fresh
    grind

theorem Books.last (h : Books s) (hp : s.loc p = .inOp id) (hc : s.committing = false) (ho : s.outstanding = 1)
    (ended : Finset ℕ) (base : Disk) (txn : Txn) :
    Books { s with outstanding := 0, committing := true, loc := update s.loc p (.committing .start),
                   running := s.running.erase id, ended := ended, base := base, txn := txn } := by
  refine h.over hp ?_ rfl rfl (h.toBooks.last hp hc ho rfl) fun _ => .inr rfl
  grind [update_apply]

theorem Books.left (h : Books s) (hp : s.loc p = .inOp id) (hc : s.committing = false) (ho : s.outstanding ≠ 1)
    (ended : Finset ℕ) :
    Books { s with outstanding := s.outstanding - 1, loc := update (wakeup s.loc) p .idle,
                   running := s.running.erase id, ended := ended } := by
  refine h.over hp ?_ rfl rfl (h.toBooks.left hp hc ho) fun q => .inl ?_
  · grind [update_apply, wakeup_eq_inOp]
  · grind [update_apply, wakeup_ne_asleep]

theorem Books.commitMoved (h : Books s) (hp : s.loc p = .committing pc) (hm : CommitMoved s s' p pc) : Books s' := by
  obtain ⟨⟨pc', lh, disk, rfl, hlh, -⟩⟩ := hm
  have hcl := h.cleared p pc hp
  refine h.of_same ?_ rfl rfl (h.toBooks.jump hp fun hcl' => ?_) fun _ _ => .inl (h.busy.mpr ⟨p, pc, hp⟩)
  · grind [update_apply]
  · rcases hlh with ⟨rfl, hlh⟩ | hlh
    · exact (hlh hcl').elim hcl (fun hlh => hlh)
    · exact hlh.1

theorem Books.finished (h : Books s) (hp : s.loc p = .committing .done) : Books (finish p s) := by
  refine h.of_same ?_ rfl rfl (h.toBooks.finish hp rfl) fun q hq => ?_
  · unfold finish
    grind [update_apply, wakeup_eq_inOp]
  · exfalso
    unfold finish at hq
    grind [update_apply, wakeup_ne_asleep]

theorem Books.step {e : Action P} (h : Books s) (hst : StepCases a s e s') : Books s' := by
  cases hst with
  | moved p hm => exact h.moved hm
  | entered p hp hc _ he =>
    subst he
    exact h.entered hp hc
  | wrote p id b data _ hp _ _ he =>
    subst he
    exact h.wrote hp b _ _
  | last p id hp hc ho he =>
    subst he
    exact h.last hp hc ho _ _ _
  | left p id hp hc ho he =>
    subst he
    exact h.left hp hc ho _
  | commit p pc hp hst => exact h.commitMoved hp (commitStep_moved hst)
  | finished p hp he =>
    subst he
    exact h.finished hp

end Books

/-! ## What has been logged -/

def latest (ws : List (ℕ × BlockNo × Block)) (b : BlockNo) : Option Block :=
  (ws.reverse.find? fun w => w.2.1 = b).map fun w => w.2.2

theorem latest_append (ws : List (ℕ × BlockNo × Block)) (w : ℕ × BlockNo × Block) (b : BlockNo) :
    latest (ws ++ [w]) b = if w.2.1 = b then some w.2.2 else latest ws b := by
  unfold latest
  rw [List.reverse_append, List.reverse_singleton, List.singleton_append, List.find?_cons]
  split <;> simp_all

variable {P : Type} {a : Area} {s s' : State P}

/-- The commit has reached `log.lh.n = 0`: the header no longer lists the group's blocks. -/
def Cleared (s : State P) : Prop := ∃ p pc, s.loc p = .committing pc ∧ pc.cleared = true

/-- The header lists the blocks the group has logged, once each, and the cache holds their last contents. -/
structure Content (a : Area) (s : State P) : Prop where
  nodup : s.lh.Nodup
  le : s.lh.length ≤ LOGSIZE
  lt : s.lh = [] ∨ s.lh.length < a.size
  logged : ¬ Cleared s → ∀ b, latest s.writes b = if b ∈ s.lh then some (s.cache b) else none
  byOps : ∀ w ∈ s.writes, w.1 ∈ s.running ∪ s.ended

theorem Content.init (disk : Disk) : Content a (GroupCommit.init disk : State P) := by
  constructor <;> simp [GroupCommit.init, latest]

theorem Books.not_cleared (h : Books s) (hc : s.committing = false) : ¬ Cleared s := by
  rintro ⟨p, pc, hp, -⟩
  exact h.not_busy hc p pc hp

theorem absorb_fits {b : BlockNo} (hle : s.lh.length < LOGSIZE) (hlt : (s.lh.length : ℤ) < a.size - 1) :
    (absorb s.lh b).length ≤ LOGSIZE ∧ (absorb s.lh b).length < a.size := by
  have := length_absorb_le s.lh b
  omega

theorem Content.wrote (h : Content a s) (hid : id ∈ s.running) (hcl : ¬ Cleared s) (b : BlockNo) (data : Block)
    (hle : s.lh.length < LOGSIZE) (hlt : (s.lh.length : ℤ) < a.size - 1) :
    Content a { s with lh := absorb s.lh b, cache := update s.cache b data,
                       writes := s.writes ++ [(id, b, data)] } := by
  refine ⟨nodup_absorb h.nodup b, (absorb_fits hle hlt).1, .inr (absorb_fits hle hlt).2, fun _ c => ?_, ?_⟩
  · dsimp only
    rw [latest_append]
    by_cases hc : b = c
    · subst hc
      rw [if_pos rfl, if_pos (mem_absorb.mpr (.inl rfl)), update_self]
    · have hm : c ∈ absorb s.lh b ↔ c ∈ s.lh := by
        rw [mem_absorb]
        exact or_iff_right (Ne.symm hc)
      rw [if_neg hc, h.logged hcl c, update_of_ne (Ne.symm hc)]
      simp only [hm]
  · intro w hw
    rcases List.mem_append.mp hw with hw | hw
    · exact h.byOps w hw
    · rw [List.mem_singleton.mp hw]
      exact Finset.mem_union_left _ hid

variable [DecidableEq P]

theorem Moved.cleared {p : P} (h : Moved s s' p) (hcl : Cleared s) : Cleared s' := by
  obtain ⟨⟨l, rfl, -⟩, hb, -⟩ := h
  obtain ⟨q, pc, hq, hpc⟩ := hcl
  refine ⟨q, pc, ?_, hpc⟩
  dsimp only
  rw [update_of_ne]
  · exact hq
  · rintro rfl
    rcases hb with hb | hb | hb <;> simp [hb] at hq

theorem mem_union_end {A B : Finset ℕ} {x : ℕ} (h : x ∈ A ∪ B) : x ∈ A.erase id ∪ insert id B := by
  by_cases hx : x = id
  · subst hx
    exact Finset.mem_union_right _ (Finset.mem_insert_self _ _)
  · rcases Finset.mem_union.mp h with h | h
    · exact Finset.mem_union_left _ (Finset.mem_erase.mpr ⟨hx, h⟩)
    · exact Finset.mem_union_right _ (Finset.mem_insert_of_mem h)

theorem Content.step {e : Action P} (hb : Books s) (h : Content a s) (hst : StepCases a s e s') : Content a s' := by
  cases hst with
  | moved p hm =>
    have hcl := hm.cleared
    obtain ⟨⟨l, rfl, -⟩, -, -⟩ := hm
    exact ⟨h.nodup, h.le, h.lt, fun hn => h.logged fun hc => hn (hcl hc), h.byOps⟩
  | entered p hp hc _ he =>
    subst he
    refine ⟨h.nodup, h.le, h.lt, fun _ => h.logged (hb.not_cleared hc), fun w hw => ?_⟩
    rw [Finset.insert_union]
    exact Finset.mem_insert_of_mem (h.byOps w hw)
  | wrote p id b data _ hp hle hlt he =>
    subst he
    refine h.wrote (hb.opened hp) ?_ b data hle hlt
    rintro ⟨q, pc, hq, -⟩
    exact hb.quiet (hb.busy.mpr ⟨q, pc, hq⟩) p id hp
  | last p id hp hc ho he =>
    subst he
    exact ⟨h.nodup, h.le, h.lt, fun _ => h.logged (hb.not_cleared hc), fun w hw => mem_union_end (h.byOps w hw)⟩
  | left p id hp hc ho he =>
    subst he
    exact ⟨h.nodup, h.le, h.lt, fun _ => h.logged (hb.not_cleared hc), fun w hw => mem_union_end (h.byOps w hw)⟩
  | commit p pc hp hst =>
    obtain ⟨⟨pc', lh, disk, rfl, hlh, hmono⟩⟩ := commitStep_moved hst
    have hself : update s.loc p (.committing pc') p = .committing pc' := update_self _ _ _
    rcases hlh with ⟨rfl, -⟩ | ⟨rfl, hcl'⟩
    · refine ⟨h.nodup, h.le, h.lt, fun hn => h.logged fun hc => hn ?_, h.byOps⟩
      obtain ⟨q, pc'', hq, hpc⟩ := hc
      obtain rfl := hb.one q p _ _ hq hp
      rw [hp, Loc.committing.injEq] at hq
      subst hq
      exact ⟨q, pc', hself, hmono hpc⟩
    · refine ⟨List.nodup_nil, by simp, .inl rfl, fun hn => absurd ⟨p, pc', hself, hcl'⟩ hn, h.byOps⟩
  | finished p hp he =>
    subst he
    have hlh := hb.cleared p _ hp rfl
    refine ⟨h.nodup, h.le, h.lt, fun _ b => ?_, fun w hw => absurd hw List.not_mem_nil⟩
    simp [finish, hlh, latest]

theorem run_books {ok : State P → Action P → Prop} {disk : Disk} {es : List (Action P)}
    (h : Run (step a) ok (GroupCommit.init disk) es s) : Books s ∧ Content a s := by
  refine h.stateInvariant ?_ ?_
  · exact ⟨Books.init disk, Content.init disk⟩
  · intro s e s' hi _ hst
    exact ⟨hi.1.step (step_cases hst), hi.2.step hi.1 (step_cases hst)⟩

/-! ## Isolation -/

/-- What the group commit promises in a state: who may log, what a commit holds, and who sleeps. -/
structure Isolated (a : Area) (s : State P) : Prop where
  closed : ∀ p b data, s.committing = true → step a s (.logWrite p b data) = .disabled
  whole : s.committing = true → s.running = ∅ ∧ (∀ w ∈ s.writes, w.1 ∈ s.ended)
  logged : s.committing = true → ¬ Cleared s →
    ∀ b, latest s.writes b = if b ∈ s.lh then some (s.cache b) else none
  idle : s.committing = true → s.outstanding = 0
  noPanic : ∀ p, step a s (.endOp p) ≠ .panic "log.committing"
  distinct : s.lh.Nodup
  awake : s.outstanding = 0 → s.committing = false → ∀ p, s.loc p ≠ .asleep

/-- **Group commit.** In every state of every interleaving of any number of processes. -/
theorem run_isolated (a : Area) (disk : Disk) (es : List (Action P)) (s : State P)
    (h : Run (step a) anyAction (GroupCommit.init disk) es s) : Isolated a s := by
  obtain ⟨hb, hc⟩ := run_books h
  constructor
  · intro p b data hcm
    cases hl : s.loc p with
    | inOp id => exact absurd hl (hb.quiet hcm p id)
    | _ => simp [step, hl]
  · intro hcm
    have hq := hb.none_iff.mpr (hb.quiet hcm)
    refine ⟨hq, fun w hw => ?_⟩
    have := hc.byOps w hw
    rw [hq, Finset.empty_union] at this
    exact this
  · exact fun _ => hc.logged
  · intro hcm
    rw [hb.count, hb.none_iff.mpr (hb.quiet hcm)]
    rfl
  · intro p hpanic
    cases hl : s.loc p with
    | inOp id =>
      simp only [step, hl, endOp, Gate.endOp, hb.not_committing hl, Bool.false_eq_true, if_false] at hpanic
      split at hpanic <;> cases hpanic
    | _ => simp [step, hl] at hpanic
  · exact hc.nodup
  · intro ho hcm p hp
    rcases hb.sleepers p hp with h1 | h1
    · rw [hcm] at h1
      cases h1
    · have hcount := hb.count
      have := Finset.card_pos.mpr h1
      omega

def sampleRun : List (Action Bool) :=
  [.beginOp true, .enter true, .logWrite true 100 (fun _ => 1), .logWrite true 101 (fun _ => 2),
    .logWrite true 100 (fun _ => 3), .endOp true, .beginOp false, .enter false, .commit true, .commit true]

theorem sampleRun_isolated :
    ∃ s, exec (step sampleArea) sampleRun (GroupCommit.init fun _ _ => 0) = .next s ∧
      s.committing = true ∧ s.lh = [100, 101] ∧ s.loc false = .asleep ∧ Isolated sampleArea s := by
  refine ⟨_, rfl, rfl, by decide, by decide, ?_⟩
  exact run_isolated sampleArea (fun _ _ => 0) sampleRun _ (Run.of_exec (admitted_anyAction _ _) rfl)

end Xv6Boot.Kernel.GroupCommit
