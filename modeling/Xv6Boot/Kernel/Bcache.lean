import Xv6Boot.Foundations.LinkedList
import Xv6Boot.Kernel.Bio

/-! # The links of the buffer cache

The sections of `bio.c` as they follow and splice the `prev` and `next` pointers; `none` is `&bcache.head`. They
do what the sections on the list of buffers do.
-/

namespace Xv6Boot.Kernel.Bcache
open Function Transition Counting LinkedList Bio
open Log (BlockNo Disk)
open ProcTable (Slot)

structure State where
  buf : BufNo → Buf
  links : Links BufNo
  disk : Disk
  pc : Slot → Pc
  pins : BufNo → ℕ

namespace State

def binit (disk : Disk) : State where
  buf := fun _ => ⟨false, 0, 0, none, 0, fun _ => 0⟩
  links := (List.finRange NBUF).foldl Links.pushFront .empty
  disk := disk
  pc := fun _ => .out
  pins := fun _ => 0

variable (c : State) (p : Slot) (i : BufNo)

def modBuf (f : Buf → Buf) : State := { c with buf := update c.buf i (f (c.buf i)) }

def goto (pc : Pc) : State := { c with pc := update c.pc p pc }

/-- `bget`, up to `acquiresleep` -/
def bget (dev : BitVec 32) (blockno : BlockNo) : Outcome State :=
  match find c.links.next (fun i => (c.buf i).dev == dev && (c.buf i).blockno == blockno) NBUF (c.links.next none) with
  | some i => .next ((c.modBuf i fun b => { b with refcnt := b.refcnt + 1 }).goto p (.locking dev blockno i))
  | none =>
    match find c.links.prev (fun i => (c.buf i).refcnt == 0) NBUF (c.links.prev none) with
    | some i =>
      .next ((c.modBuf i fun b => { b with dev := dev, blockno := blockno, valid := false, refcnt := 1 }).goto p
        (.locking dev blockno i))
    | none => .panic "bget: no buffers"

def acquiresleep (dev : BitVec 32) (blockno : BlockNo) : Outcome State :=
  if (c.buf i).lock = none then
    .next ((c.modBuf i fun b => { b with lock := some p }).goto p (.filling dev blockno i))
  else .disabled

/-- The rest of `bread` -/
def fill : State :=
  (if (c.buf i).valid then c
    else c.modBuf i fun b => { b with data := c.disk b.blockno, valid := true }).goto p .out

/-- `brelse`, up to `releasesleep` -/
def brelse : Outcome State :=
  if (c.buf i).lock = some p then .next ((c.modBuf i fun b => { b with lock := none }).goto p (.dropping i))
  else .panic "brelse"

/-- The rest of `brelse` -/
def drop : State :=
  let c' := (c.modBuf i fun b => { b with refcnt := b.refcnt - 1 }).goto p .out
  if (c.buf i).refcnt - 1 = 0 then { c' with links := (c.links.unlink i).pushFront i } else c'

def bpin : State :=
  { c.modBuf i fun b => { b with refcnt := b.refcnt + 1 } with pins := update c.pins i (c.pins i + 1) }

def bunpin : State :=
  { c.modBuf i fun b => { b with refcnt := b.refcnt - 1 } with pins := update c.pins i (c.pins i - 1) }

end State

/-- `go` is the next section of a process inside `bread` or `brelse`. -/
inductive Action where
  | bread (p : Slot) (dev : BitVec 32) (blockno : BlockNo)
  | go (p : Slot)
  | brelse (p : Slot) (i : BufNo)
  | bpin (p : Slot) (i : BufNo)
  | bunpin (p : Slot) (i : BufNo)

def step (c : State) : Action → Outcome State
  | .bread p dev blockno => if c.pc p = .out then c.bget p dev blockno else .disabled
  | .go p =>
    match c.pc p with
    | .locking dev blockno i => c.acquiresleep p i dev blockno
    | .filling _ _ i => .next (c.fill p i)
    | .dropping i => .next (c.drop p i)
    | .out => .disabled
  | .brelse p i => if c.pc p = .out ∧ (c.buf i).lock = some p then c.brelse p i else .disabled
  | .bpin p i => if c.pc p = .out then .next (c.bpin i) else .disabled
  | .bunpin p i => if c.pc p = .out ∧ 0 < c.pins i then .next (c.bunpin i) else .disabled

/-! ## The list behind the links -/

/-- The cache with the buffers on the list `l`. -/
def State.view (c : State) (l : List BufNo) : Io := ⟨c.buf, l, c.disk, c.pc, c.pins⟩

def State.users (c : State) (i : BufNo) : ℕ :=
  count (Pc.waits i) c.pc + (c.buf i).lock.isSome.toNat + c.pins i

theorem State.users_eq (c : State) (l : List BufNo) (i : BufNo) : (c.view l).users i = c.users i := rfl

theorem foldl_pushFront {l l' : List BufNo} {lk : Links BufNo} (h : Circular lk l) (hnd : l'.Nodup)
    (hd : l.Disjoint l') : Circular (l'.foldl Links.pushFront lk) (l'.reverse ++ l) := by
  induction l' generalizing lk l with
  | nil => exact h
  | cons b l' ih =>
    obtain ⟨hb, hnd⟩ := List.nodup_cons.mp hnd
    obtain ⟨hbl, hd⟩ := List.disjoint_cons_right.mp hd
    have h' := ih (h.pushFront hbl) hnd (List.disjoint_cons_left.mpr ⟨hb, hd⟩)
    rw [List.reverse_cons, List.append_assoc]
    exact h'

theorem binit_circular (disk : Disk) : Circular (State.binit disk).links (Bio.binit disk).order := by
  have h := foldl_pushFront empty_circular (List.nodup_finRange NBUF) (List.disjoint_nil_left _)
  rwa [List.append_nil] at h

variable {c c' : State} {l : List BufNo} {p : Slot} {i : BufNo} {dev : BitVec 32} {blockno : BlockNo}

theorem length_le (h : Circular c.links l) : l.length ≤ NBUF := by
  have := h.nodup.length_le_card
  rwa [Fintype.card_fin] at this

theorem State.bget_view (h : Circular c.links l) :
    (c.view l).bget p dev blockno = (c.bget p dev blockno).map (·.view l) := by
  have hc : find c.links.next (fun i => (c.buf i).dev == dev && (c.buf i).blockno == blockno) NBUF
      (c.links.next none) = (c.view l).cached dev blockno := h.segment.find_next _ (length_le h)
  have hu : find c.links.prev (fun i => (c.buf i).refcnt == 0) NBUF (c.links.prev none) = (c.view l).unused :=
    h.segment.find_prev _ (length_le h)
  rw [Io.bget, State.bget, hc, hu]
  cases (c.view l).cached dev blockno with
  | some i => rfl
  | none => cases (c.view l).unused <;> rfl

theorem State.drop_view (h : Circular c.links l) (hi : i ∈ l) :
    ∃ l', (c.view l).drop p i = (c.drop p i).view l' ∧ Circular (c.drop p i).links l' := by
  rw [Io.drop, State.drop]
  by_cases h0 : (c.buf i).refcnt - 1 = 0
  · refine ⟨i :: l.erase i, ?_, ?_⟩
    · rw [if_pos h0, if_pos (show ((c.view l).buf i).refcnt - 1 = 0 from h0)]
      rfl
    · rw [if_pos h0]
      exact (h.unlink hi).pushFront h.nodup.not_mem_erase
  · refine ⟨l, ?_, ?_⟩
    · rw [if_neg h0, if_neg (show ¬((c.view l).buf i).refcnt - 1 = 0 from h0)]
      rfl
    · rw [if_neg h0]
      exact h

theorem State.fill_view : (c.view l).fill p i = (c.fill p i).view l := by
  rw [Io.fill, State.fill]
  by_cases hv : (c.buf i).valid = true
  · rw [if_pos hv, if_pos (show ((c.view l).buf i).valid = true from hv)]
    rfl
  · rw [if_neg hv, if_neg (show ¬((c.view l).buf i).valid = true from hv)]
    rfl

def Linked (c : State) : Prop := ∃ l, Circular c.links l ∧ Exact (c.view l)

theorem binit_linked (disk : Disk) : Linked (State.binit disk) :=
  ⟨_, binit_circular disk, (binit_sound disk).toExact⟩

theorem Linked.step {e : Action} (h : Linked c) (hst : step c e = .next c') : Linked c' := by
  obtain ⟨l, hl, hx⟩ := h
  cases e with
  | bread p dev blockno =>
    simp only [Bcache.step] at hst
    split at hst
    · next hp =>
      have hlinks : c'.links = c.links := by
        unfold State.bget at hst
        split at hst
        · cases hst
          rfl
        · split at hst
          · cases hst
            rfl
          · cases hst
      have hg : (c.view l).bget p dev blockno = .next (c'.view l) := by
        rw [State.bget_view hl, hst]
        rfl
      exact ⟨l, hlinks ▸ hl, hx.bget hp hg⟩
    · cases hst
  | go p =>
    simp only [Bcache.step] at hst
    split at hst
    · next dev blockno i hp =>
      unfold State.acquiresleep at hst
      split at hst
      · next hlock =>
        cases hst
        refine ⟨l, hl, hx.acquiresleep (p := p) hp ?_⟩
        rw [Io.acquiresleep, if_pos (show ((c.view l).buf i).lock = none from hlock)]
        rfl
      · cases hst
    · next dev blockno i hp =>
      cases hst
      have hlinks : (c.fill p i).links = c.links := by
        unfold State.fill
        split <;> rfl
      have hf := hx.fill (p := p) hp
      rw [State.fill_view] at hf
      exact ⟨l, hlinks ▸ hl, hf⟩
    · next i hp =>
      cases hst
      obtain ⟨l', hv, hl'⟩ := State.drop_view hl (p := p) (hx.listed i)
      exact ⟨l', hl', hv ▸ hx.drop (p := p) hp⟩
    · cases hst
  | brelse p i =>
    simp only [Bcache.step] at hst
    split at hst
    · next hp =>
      rw [State.brelse, if_pos hp.2] at hst
      cases hst
      refine ⟨l, hl, hx.brelse (p := p) (i := i) hp.1 ?_⟩
      rw [Io.brelse, if_pos (show ((c.view l).buf i).lock = some p from hp.2)]
      rfl
    · cases hst
  | bpin p i =>
    simp only [Bcache.step] at hst
    split at hst
    · cases hst
      exact ⟨l, hl, hx.bpin⟩
    · cases hst
  | bunpin p i =>
    simp only [Bcache.step] at hst
    split at hst
    · next hp =>
      cases hst
      exact ⟨l, hl, hx.bunpin hp.2⟩
    · cases hst

theorem run_linked {disk : Disk} {es : List Action} (h : Run step anyAction (State.binit disk) es c) : Linked c := by
  refine h.stateInvariant ?_ ?_
  · exact binit_linked disk
  · intro s e s' hi _ hst
    exact hi.step hst

theorem step_kept {e : Action} (hst : step c e = .next c') (hi : (c.buf i).refcnt ≠ 0) :
    (c'.buf i).dev = (c.buf i).dev ∧ (c'.buf i).blockno = (c.buf i).blockno := by
  have hmod : ∀ (c₁ : State) (j : BufNo) (b : Buf), c₁.buf = update c.buf j b → b.dev = (c.buf j).dev →
      b.blockno = (c.buf j).blockno → (c₁.buf i).dev = (c.buf i).dev ∧ (c₁.buf i).blockno = (c.buf i).blockno := by
    intro c₁ j b hc hd hb
    rw [hc, update_apply]
    split
    · next hij =>
      subst hij
      exact ⟨hd, hb⟩
    · exact ⟨rfl, rfl⟩
  cases e with
  | bread p dev blockno =>
    simp only [step] at hst
    split at hst
    · unfold State.bget at hst
      split at hst
      · cases hst
        exact hmod _ _ _ rfl rfl rfl
      · split at hst
        · next j hj =>
          have h0 := find_some hj
          cases hst
          have hij : i ≠ j := by
            rintro rfl
            exact hi (by simpa using h0)
          simp [State.goto, State.modBuf, hij]
        · cases hst
    · cases hst
  | go p =>
    simp only [step] at hst
    split at hst
    · unfold State.acquiresleep at hst
      split at hst
      · cases hst
        exact hmod _ _ _ rfl rfl rfl
      · cases hst
    · cases hst
      unfold State.fill
      split
      · exact ⟨rfl, rfl⟩
      · exact hmod _ _ _ rfl rfl rfl
    · cases hst
      unfold State.drop
      dsimp only
      split <;> exact hmod _ _ _ rfl rfl rfl
    · cases hst
  | brelse p j =>
    simp only [step] at hst
    split at hst
    · next hp =>
      rw [State.brelse, if_pos hp.2] at hst
      cases hst
      exact hmod _ _ _ rfl rfl rfl
    · cases hst
  | bpin p j | bunpin p j =>
    simp only [step] at hst
    split at hst
    · cases hst
      exact hmod _ _ _ rfl rfl rfl
    · cases hst

/-- The links are one circular list of the head and all buffers; a count is the number of users, as far as a `uint`
can hold it; no block is cached twice; and a buffer is recycled only when its count is 0. -/
theorem run_structure (disk : Disk) (es : List Action) (c : State) (h : Run step anyAction (State.binit disk) es c) :
    (∃ l : List BufNo, Circular c.links l ∧ ∀ i, i ∈ l) ∧
    (∀ i, (c.buf i).refcnt.toNat = c.users i % 2 ^ 32) ∧
    (∀ i j, (c.buf i).dev ≠ 0 → (c.buf i).dev = (c.buf j).dev → (c.buf i).blockno = (c.buf j).blockno → i = j) ∧
    ∀ e c' i, step c e = .next c' → (c.buf i).refcnt ≠ 0 →
      (c'.buf i).dev = (c.buf i).dev ∧ (c'.buf i).blockno = (c.buf i).blockno := by
  obtain ⟨l, hl, hx⟩ := run_linked h
  refine ⟨⟨l, hl, hx.listed⟩, fun i => ?_, hx.keys, fun e c' i hst hi => step_kept hst hi⟩
  rw [← State.users_eq c l, ← BitVec.toNat_ofNat, ← hx.count i]
  rfl

def firstProc : Slot := ⟨0, ProcTable.NPROC_pos⟩

def firstBuf : BufNo := ⟨0, NBUF_pos⟩

def readAndPin : List Action :=
  [.bread firstProc 1 7, .go firstProc, .go firstProc, .bpin firstProc firstBuf, .brelse firstProc firstBuf,
    .go firstProc]

theorem readAndPin_runs : (exec step readAndPin (State.binit fun _ _ => 0)).check (fun c =>
    (c.buf firstBuf).blockno == 7 && (c.buf firstBuf).refcnt == 1 && c.pins firstBuf == 1) = true := by
  decide +kernel

theorem readAndPin_structure : ∃ c, exec step readAndPin (State.binit fun _ _ => 0) = .next c ∧
    (c.buf firstBuf).blockno = 7 ∧ (c.buf firstBuf).refcnt = 1 ∧ c.users firstBuf % 2 ^ 32 = 1 ∧
    ∃ l : List BufNo, Circular c.links l ∧ ∀ i, i ∈ l := by
  obtain ⟨c, hc, hcheck⟩ := exists_of_check _ _ _ _ readAndPin_runs
  simp only [Bool.and_eq_true, beq_iff_eq] at hcheck
  obtain ⟨hlist, hcount, -, -⟩ := run_structure _ readAndPin c (Run.of_exec (admitted_anyAction _ _) hc)
  refine ⟨c, hc, hcheck.1.1, hcheck.1.2, ?_, hlist⟩
  rw [← hcount, hcheck.1.2]
  rfl

/-! ## More pins than a count can hold -/

theorem run_pins (disk : Disk) (n : ℕ) : ∃ c, Run step anyAction (State.binit disk)
    (List.replicate n (.bpin firstProc firstBuf)) c ∧ (∀ p, c.pc p = .out) ∧ (c.buf firstBuf).lock = none ∧
    c.pins firstBuf = n := by
  induction n with
  | zero => exact ⟨_, .nil, fun _ => rfl, rfl, rfl⟩
  | succ n ih =>
    obtain ⟨c, hrun, hpc, hlock, hpins⟩ := ih
    refine ⟨c.bpin firstBuf, ?_, hpc, ?_, ?_⟩
    · rw [List.replicate_succ']
      refine hrun.snoc trivial ?_
      rw [step, if_pos (hpc firstProc)]
    · simpa [State.bpin, State.modBuf] using hlock
    · simp [State.bpin, hpins]

theorem run_pins_wrap : ∃ es c, Run step anyAction (State.binit fun _ _ => 0) es c ∧
    c.users firstBuf = 2 ^ 32 ∧ (c.buf firstBuf).refcnt = 0 := by
  obtain ⟨c, hrun, hpc, hlock, hpins⟩ := run_pins (fun _ _ => 0) (2 ^ 32)
  have hw : count (Pc.waits firstBuf) c.pc = 0 := count_eq_zero_iff.mpr fun p => by rw [hpc p]; rfl
  have hu : c.users firstBuf = 2 ^ 32 := by
    rw [State.users, hw, hlock, hpins]
    rfl
  obtain ⟨l, -, hx⟩ := run_linked hrun
  refine ⟨_, c, hrun, hu, ?_⟩
  rw [show (c.buf firstBuf).refcnt = BitVec.ofNat 32 (c.users firstBuf) from hx.count firstBuf, hu]
  rfl

end Xv6Boot.Kernel.Bcache
