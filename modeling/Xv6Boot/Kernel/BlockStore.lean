import Xv6Boot.Kernel.Bio
import Xv6Boot.Kernel.LogGate

/-! # The buffer cache under the log

The processes of `Bio` that also call `begin_op`, `log_write` and `end_op`; the commit runs `write_log`,
`write_head` and `install_trans` with the same `bread`, `bwrite`, `bunpin` and `brelse` as everybody else.
The last two fields of the state are history: the contents last recorded for a block by a `log_write` or a
`bwrite` of a client, and whether a buffer has been modified since.
-/

namespace Xv6Boot.Kernel.BlockStore
open Function Transition Counting Log ProcTable Bio

/-! ## The machine -/

/-- Where `commit` is, with the buffers in its local variables; `erase` tells the two calls of
`write_head` apart. -/
inductive CommitPc where
  | start
  | logTo (tail : ℕ)
  | logFrom (tail : ℕ) (dst : BufNo)
  | logCopy (tail : ℕ) (dst src : BufNo)
  | logWrite (tail : ℕ) (dst src : BufNo)
  | logRelseFrom (tail : ℕ) (dst src : BufNo)
  | logRelseTo (tail : ℕ) (dst : BufNo)
  | head (erase : Bool)
  | headFill (erase : Bool) (buf : BufNo)
  | headWrite (erase : Bool) (buf : BufNo)
  | headRelse (erase : Bool) (buf : BufNo)
  | insLog (tail : ℕ)
  | insDst (tail : ℕ) (lbuf : BufNo)
  | insCopy (tail : ℕ) (lbuf dbuf : BufNo)
  | insWrite (tail : ℕ) (lbuf dbuf : BufNo)
  | insUnpin (tail : ℕ) (lbuf dbuf : BufNo)
  | insRelseLog (tail : ℕ) (lbuf dbuf : BufNo)
  | insRelseDst (tail : ℕ) (dbuf : BufNo)
  | clear
  | done
  deriving DecidableEq

abbrev Loc := Log.Loc Unit CommitPc

structure State extends Gate Slot Unit CommitPc where
  io : Io
  store : BlockNo → Block
  unsaved : BufNo → Bool

inductive Action where
  | bread (p : Slot) (dev : BitVec 32) (blockno : BlockNo)
  | modify (p : Slot) (i : BufNo) (data : Block)
  | logWrite (p : Slot) (i : BufNo)
  | bwrite (p : Slot) (i : BufNo)
  | brelse (p : Slot) (i : BufNo)
  | beginOp (p : Slot)
  | endOp (p : Slot)
  | go (p : Slot)
  | kill (p : Slot)

def init (io : Io) : State where
  io := io
  outstanding := 0
  committing := false
  lh := []
  loc := fun _ => .idle
  store := io.disk
  unsaved := fun _ => false

def State.goto (s : State) (p : Slot) (l : Loc) : State := { s with loc := update s.loc p l }

def State.Free (s : State) (p : Slot) : Prop := s.io.pc p = .out ∧ (s.loc p = .idle ∨ s.loc p = .inOp ())

instance (s : State) (p : Slot) : Decidable (s.Free p) := inferInstanceAs (Decidable (_ ∧ _))

section Machine
variable (a : Area) (p : Slot) (s : State)

def State.lift (o : Outcome Io) : Outcome State := o.map fun io => { s with io := io }

def enter : State :=
  match s.toGate.enter p () with
  | none => s.goto p .asleep
  | some g => { s with toGate := g }

def logWrite (i : BufNo) : Outcome State :=
  let b := s.io.buf i
  (s.toGate.logWrite a b.blockno).map fun g =>
    { s with toGate := g, io := if b.blockno ∈ s.lh then s.io else s.io.bpin i,
             store := update s.store b.blockno b.data, unsaved := update s.unsaved i false }

def bwrite (i : BufNo) : Outcome State :=
  (s.io.bwrite p i).map fun io =>
    { s with io := io, store := update s.store (s.io.buf i).blockno (s.io.buf i).data,
             unsaved := update s.unsaved i false }

def endOp : Outcome State := (s.toGate.endOp p .start).map fun g => { s with toGate := g }

/-- What `bread` returned goes into the next local variable. -/
def CommitPc.got (i : BufNo) : CommitPc → CommitPc
  | .logTo tail => .logFrom tail i
  | .logFrom tail dst => .logCopy tail dst i
  | .head erase => .headFill erase i
  | .insLog tail => .insDst tail i
  | .insDst tail lbuf => .insCopy tail lbuf i
  | pc => pc

def Loc.got (i : BufNo) : Loc → Loc
  | .committing pc => .committing (pc.got i)
  | l => l

def commitStep : CommitPc → Outcome State
  | .start => .next (s.goto p (.committing (if s.lh.length > 0 then .logTo 0 else .done)))
  | .logTo tail =>
    if tail < s.lh.length then s.lift (s.io.bget p ROOTDEV (a.block tail))
    else .next (s.goto p (.committing (.head false)))
  | .logFrom tail _ => s.lift (s.io.bget p ROOTDEV (s.lh.getD tail 0))
  | .logCopy tail dst src =>
    .next ({ s with io := s.io.setData dst (s.io.buf src).data }.goto p (.committing (.logWrite tail dst src)))
  | .logWrite tail dst src => (s.goto p (.committing (.logRelseFrom tail dst src))).lift (s.io.bwrite p dst)
  | .logRelseFrom tail dst src => (s.goto p (.committing (.logRelseTo tail dst))).lift (s.io.brelse p src)
  | .logRelseTo tail dst => (s.goto p (.committing (.logTo (tail + 1)))).lift (s.io.brelse p dst)
  | .head _ => s.lift (s.io.bget p ROOTDEV a.start)
  | .headFill erase buf =>
    .next ({ s with io := s.io.setData buf (putHead s.lh (s.io.buf buf).data) }.goto p
      (.committing (.headWrite erase buf)))
  | .headWrite erase buf => (s.goto p (.committing (.headRelse erase buf))).lift (s.io.bwrite p buf)
  | .headRelse erase buf => (s.goto p (.committing (if erase then .done else .insLog 0))).lift (s.io.brelse p buf)
  | .insLog tail =>
    if tail < s.lh.length then s.lift (s.io.bget p ROOTDEV (a.block tail))
    else .next (s.goto p (.committing .clear))
  | .insDst tail _ => s.lift (s.io.bget p ROOTDEV (s.lh.getD tail 0))
  | .insCopy tail lbuf dbuf =>
    .next ({ s with io := s.io.setData dbuf (s.io.buf lbuf).data }.goto p (.committing (.insWrite tail lbuf dbuf)))
  | .insWrite tail lbuf dbuf => (s.goto p (.committing (.insUnpin tail lbuf dbuf))).lift (s.io.bwrite p dbuf)
  | .insUnpin tail lbuf dbuf =>
    .next ({ s with io := s.io.bunpin dbuf }.goto p (.committing (.insRelseLog tail lbuf dbuf)))
  | .insRelseLog tail lbuf dbuf => (s.goto p (.committing (.insRelseDst tail dbuf))).lift (s.io.brelse p lbuf)
  | .insRelseDst tail dbuf => (s.goto p (.committing (.insLog (tail + 1)))).lift (s.io.brelse p dbuf)
  | .clear => .next ({ s with lh := [] }.goto p (.committing (.head true)))
  | .done => .next { s with committing := false, loc := update (wakeup s.loc) p .idle }

def go : Outcome State :=
  match s.io.pc p with
  | .locking dev b i => s.lift (s.io.acquiresleep p i dev b)
  | .filling _ _ i => .next ({ s with io := s.io.fill p i }.goto p (Loc.got i (s.loc p)))
  | .dropping i => .next { s with io := s.io.drop p i }
  | .out =>
    match s.loc p with
    | .entering => .next (enter p s)
    | .committing pc => commitStep a p s pc
    | _ => .disabled

def step : Action → Outcome State
  | .bread p dev b => if s.Free p then s.lift (s.io.bget p dev b) else .disabled
  | .modify p i data =>
    if s.Free p ∧ (s.io.buf i).lock = some p then
      .next { s with io := s.io.setData i data, unsaved := update s.unsaved i true }
    else .disabled
  | .logWrite p i => if s.Free p then logWrite a s i else .disabled
  | .bwrite p i => if s.Free p then bwrite p s i else .disabled
  | .brelse p i => if s.Free p then s.lift (s.io.brelse p i) else .disabled
  | .beginOp p => if s.Free p ∧ s.loc p = .idle then .next (s.goto p .entering) else .disabled
  | .endOp p => if s.Free p ∧ s.loc p = .inOp () then endOp p s else .disabled
  | .go p => go a p s
  | .kill p => if s.loc p = .asleep then .next (s.goto p .entering) else .disabled

end Machine

/-! ## What a step can do -/

section Cases
variable {a : Area} {s s' : State}

inductive StepCases (a : Area) (s : State) (e : Action) (s' : State) : Prop
  | bread (p : Slot) (dev : BitVec 32) (b : BlockNo) (io : Io) (he : e = .bread p dev b) (hp : s.Free p)
      (hg : s.io.bget p dev b = .next io) (h : s' = { s with io := io })
  | modify (p : Slot) (i : BufNo) (data : Block) (hp : s.Free p) (hl : (s.io.buf i).lock = some p)
      (h : s' = { s with io := s.io.setData i data, unsaved := update s.unsaved i true })
  | logWrite (p : Slot) (i : BufNo) (he : e = .logWrite p i) (hp : s.Free p) (hle : s.lh.length < LOGSIZE)
      (hlt : (s.lh.length : ℤ) < a.size - 1)
      (h : s' = { s with io := if (s.io.buf i).blockno ∈ s.lh then s.io else s.io.bpin i,
                         lh := absorb s.lh (s.io.buf i).blockno,
                         store := update s.store (s.io.buf i).blockno (s.io.buf i).data,
                         unsaved := update s.unsaved i false })
  | bwrite (p : Slot) (i : BufNo) (io : Io) (he : e = .bwrite p i) (hp : s.Free p) (hg : s.io.bwrite p i = .next io)
      (h : s' = { s with io := io, store := update s.store (s.io.buf i).blockno (s.io.buf i).data,
                         unsaved := update s.unsaved i false })
  | brelse (p : Slot) (i : BufNo) (io : Io) (he : e = .brelse p i) (hp : s.Free p) (hg : s.io.brelse p i = .next io)
      (h : s' = { s with io := io })
  | acquire (p : Slot) (dev : BitVec 32) (b : BlockNo) (i : BufNo) (io : Io) (hp : s.io.pc p = .locking dev b i)
      (hg : s.io.acquiresleep p i dev b = .next io) (h : s' = { s with io := io })
  | fill (p : Slot) (dev : BitVec 32) (b : BlockNo) (i : BufNo) (hp : s.io.pc p = .filling dev b i)
      (h : s' = { s with io := s.io.fill p i }.goto p (Loc.got i (s.loc p)))
  | drop (p : Slot) (i : BufNo) (hp : s.io.pc p = .dropping i) (h : s' = { s with io := s.io.drop p i })
  | moved (p : Slot) (l : Loc) (hp : (s.loc p).outside = true) (hl : l.outside = true) (h : s' = s.goto p l)
  | entered (p : Slot) (hp : s.loc p = .entering) (hc : s.committing = false)
      (h : s' = { s.goto p (.inOp ()) with outstanding := s.outstanding + 1 })
  | last (p : Slot) (hp : s.Free p) (hl : s.loc p = .inOp ()) (hc : s.committing = false) (ho : s.outstanding = 1)
      (h : s' = { s.goto p (.committing .start) with outstanding := 0, committing := true })
  | left (p : Slot) (hl : s.loc p = .inOp ()) (hc : s.committing = false) (ho : s.outstanding ≠ 1)
      (h : s' = { s with outstanding := s.outstanding - 1, loc := update (wakeup s.loc) p .idle })
  | commit (p : Slot) (pc : CommitPc) (hp : s.io.pc p = .out) (hl : s.loc p = .committing pc)
      (h : commitStep a p s pc = .next s')

theorem lift_eq_next {s s' : State} {o : Outcome Io} (h : s.lift o = .next s') :
    ∃ io, o = .next io ∧ s' = { s with io := io } := by
  obtain ⟨io, ho, hs⟩ := Outcome.map_eq_next h
  exact ⟨io, ho, hs.symm⟩

theorem go_cases {e : Action} {p : Slot} (h : go a p s = .next s') : StepCases a s e s' := by
  unfold go at h
  split at h
  · rename_i dev b i hp
    obtain ⟨io, hg, hs⟩ := lift_eq_next h
    exact .acquire p dev b i io hp hg hs
  · rename_i dev b i hp
    cases h
    exact .fill p dev b i hp rfl
  · rename_i i hp
    cases h
    exact .drop p i hp rfl
  · rename_i hp
    split at h
    · rename_i hl
      cases h
      unfold enter
      split
      · exact .moved p .asleep (by rw [hl]; rfl) rfl rfl
      · rename_i g hg
        obtain ⟨hc, -, rfl⟩ := Gate.enter_eq_some hg
        exact .entered p hl hc rfl
    · rename_i pc hl
      exact .commit p pc hp hl h
    · cases h

theorem step_cases {e : Action} (h : step a s e = .next s') : StepCases a s e s' := by
  cases e with
  | bread p dev b =>
    simp only [step] at h
    split at h
    · rename_i hp
      obtain ⟨io, hg, hs⟩ := lift_eq_next h
      exact .bread p dev b io rfl hp hg hs
    · cases h
  | modify p i data =>
    simp only [step] at h
    split at h
    · rename_i hp
      cases h
      exact .modify p i data hp.1 hp.2 rfl
    · cases h
  | logWrite p i =>
    simp only [step] at h
    split at h
    · rename_i hp
      obtain ⟨g, hg, rfl⟩ := Outcome.map_eq_next h
      obtain ⟨hle, hlt, rfl⟩ := Gate.logWrite_eq_next hg
      exact .logWrite p i rfl hp hle hlt rfl
    · cases h
  | bwrite p i =>
    simp only [step] at h
    split at h
    · rename_i hp
      obtain ⟨io, hg, hs⟩ := Outcome.map_eq_next h
      exact .bwrite p i io rfl hp hg hs.symm
    · cases h
  | brelse p i =>
    simp only [step] at h
    split at h
    · rename_i hp
      obtain ⟨io, hg, hs⟩ := lift_eq_next h
      exact .brelse p i io rfl hp hg hs
    · cases h
  | beginOp p =>
    simp only [step] at h
    split at h
    · rename_i hp
      cases h
      exact .moved p .entering (by rw [hp.2]; rfl) rfl rfl
    · cases h
  | endOp p =>
    simp only [step] at h
    split at h
    · rename_i hp
      obtain ⟨g, hg, rfl⟩ := Outcome.map_eq_next h
      obtain ⟨hc, ⟨ho, rfl⟩ | ⟨ho, rfl⟩⟩ := Gate.endOp_eq_next hg
      · exact .last p hp.1 hp.2 hc ho rfl
      · exact .left p hp.2 hc ho (by rw [hc])
    · cases h
  | go p => exact go_cases h
  | kill p =>
    simp only [step] at h
    split at h
    · rename_i hp
      cases h
      exact .moved p .entering (by rw [hp]; rfl) rfl rfl
    · cases h

end Cases

/-! ## The books of the log -/

/-- `log.lh.n = 0` has been executed. -/
def CommitPc.cleared : CommitPc → Bool
  | .head erase | .headFill erase _ | .headWrite erase _ | .headRelse erase _ => erase
  | .done => true
  | _ => false

def State.Booked (s : State) : Prop := Books CommitPc.cleared s.outstanding s.committing s.lh s.loc

end Xv6Boot.Kernel.BlockStore
