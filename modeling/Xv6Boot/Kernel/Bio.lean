import Xv6Boot.Foundations.Counting
import Xv6Boot.Kernel.Log
import Xv6Boot.Kernel.Proc

/-! # `bio.c`: the buffer cache

One function for each section under `bcache.lock` or a buffer's sleep lock, and for each request to the
disk. `order` is the list `bcache.head`, from `head.next` on. `pc` says where a process is inside `bread` or
`brelse`; a process waiting in `acquiresleep` is one whose next step is not enabled. `pins` is history: how
often a buffer was pinned and not yet unpinned.
-/

namespace Xv6Boot.Kernel.Bio
open Function Transition Counting Log ProcTable

def NBUF : ℕ := MAXOPBLOCKS * 3

abbrev BufNo := Fin NBUF

theorem NBUF_pos : 0 < NBUF := by decide

/-- `lock` has both `lk.locked` and `lk.pid`. -/
structure Buf where
  valid : Bool
  dev : BitVec 32
  blockno : BlockNo
  lock : Option Slot
  refcnt : BitVec 32
  data : Block

inductive Pc where
  | out
  | locking (dev : BitVec 32) (blockno : BlockNo) (i : BufNo)
  | filling (dev : BitVec 32) (blockno : BlockNo) (i : BufNo)
  | dropping (i : BufNo)
  deriving DecidableEq

structure Io where
  buf : BufNo → Buf
  order : List BufNo
  disk : Disk
  pc : Slot → Pc
  pins : BufNo → ℕ

namespace Io

def modBuf (io : Io) (i : BufNo) (f : Buf → Buf) : Io := { io with buf := update io.buf i (f (io.buf i)) }

def goto (io : Io) (p : Slot) (pc : Pc) : Io := { io with pc := update io.pc p pc }

end Io

def binit (disk : Disk) : Io where
  buf := fun _ => ⟨false, 0, 0, none, 0, fun _ => 0⟩
  order := (List.finRange NBUF).reverse
  disk := disk
  pc := fun _ => .out
  pins := fun _ => 0

namespace Io
variable (io : Io) (p : Slot) (i : BufNo)

def cached (dev : BitVec 32) (blockno : BlockNo) : Option BufNo :=
  io.order.find? fun i => (io.buf i).dev == dev && (io.buf i).blockno == blockno

def unused : Option BufNo := io.order.reverse.find? fun i => (io.buf i).refcnt == 0

/-- `bget`, up to `acquiresleep` -/
def bget (dev : BitVec 32) (blockno : BlockNo) : Outcome Io :=
  match io.cached dev blockno with
  | some i => .next ((io.modBuf i fun b => { b with refcnt := b.refcnt + 1 }).goto p (.locking dev blockno i))
  | none =>
    match io.unused with
    | some i =>
      .next ((io.modBuf i fun b => { b with dev := dev, blockno := blockno, valid := false, refcnt := 1 }).goto p
        (.locking dev blockno i))
    | none => .panic "bget: no buffers"

def acquiresleep (dev : BitVec 32) (blockno : BlockNo) : Outcome Io :=
  if (io.buf i).lock = none then
    .next ((io.modBuf i fun b => { b with lock := some p }).goto p (.filling dev blockno i))
  else .disabled

/-- The rest of `bread` -/
def fill : Io :=
  (if (io.buf i).valid then io
    else io.modBuf i fun b => { b with data := io.disk b.blockno, valid := true }).goto p .out

def bwrite : Outcome Io :=
  if (io.buf i).lock = some p then
    .next { io with disk := update io.disk (io.buf i).blockno (io.buf i).data }
  else .panic "bwrite"

/-- `brelse`, up to `releasesleep` -/
def brelse : Outcome Io :=
  if (io.buf i).lock = some p then .next ((io.modBuf i fun b => { b with lock := none }).goto p (.dropping i))
  else .panic "brelse"

/-- The rest of `brelse` -/
def drop : Io :=
  let io' := (io.modBuf i fun b => { b with refcnt := b.refcnt - 1 }).goto p .out
  if (io.buf i).refcnt - 1 = 0 then { io' with order := i :: io.order.erase i } else io'

def bpin : Io :=
  { io.modBuf i fun b => { b with refcnt := b.refcnt + 1 } with pins := update io.pins i (io.pins i + 1) }

def bunpin : Io :=
  { io.modBuf i fun b => { b with refcnt := b.refcnt - 1 } with pins := update io.pins i (io.pins i - 1) }

def setData (data : Block) : Io := io.modBuf i fun b => { b with data := data }

end Io

section Fields
variable (io : Io) (i : BufNo) (f : Buf → Buf) (p : Slot) (pc : Pc)

@[simp] theorem Io.modBuf_buf : (io.modBuf i f).buf = update io.buf i (f (io.buf i)) := rfl
@[simp] theorem Io.modBuf_order : (io.modBuf i f).order = io.order := rfl
@[simp] theorem Io.modBuf_disk : (io.modBuf i f).disk = io.disk := rfl
@[simp] theorem Io.modBuf_pc : (io.modBuf i f).pc = io.pc := rfl
@[simp] theorem Io.modBuf_pins : (io.modBuf i f).pins = io.pins := rfl
@[simp] theorem Io.goto_buf : (io.goto p pc).buf = io.buf := rfl
@[simp] theorem Io.goto_order : (io.goto p pc).order = io.order := rfl
@[simp] theorem Io.goto_disk : (io.goto p pc).disk = io.disk := rfl
@[simp] theorem Io.goto_pc : (io.goto p pc).pc = update io.pc p pc := rfl
@[simp] theorem Io.goto_pins : (io.goto p pc).pins = io.pins := rfl

theorem Io.setData_buf (data : Block) (j : BufNo) :
    (io.setData i data).buf j = { io.buf j with data := if j = i then data else (io.buf j).data } := by
  by_cases hj : j = i
  · subst hj
    simp [Io.setData]
  · simp [Io.setData, hj]

theorem Io.bpin_buf (j : BufNo) :
    (io.bpin i).buf j = { io.buf j with refcnt := if j = i then (io.buf j).refcnt + 1 else (io.buf j).refcnt } := by
  by_cases hj : j = i
  · subst hj
    simp [Io.bpin]
  · simp [Io.bpin, hj]

theorem Io.bunpin_buf (j : BufNo) :
    (io.bunpin i).buf j = { io.buf j with refcnt := if j = i then (io.buf j).refcnt - 1 else (io.buf j).refcnt } := by
  by_cases hj : j = i
  · subst hj
    simp [Io.bunpin]
  · simp [Io.bunpin, hj]

end Fields

/-! ## Who uses a buffer -/

/-- Between `refcnt++` and the lock, or between the lock and `refcnt--`. -/
def Pc.waits (i : BufNo) : Pc → Bool
  | .locking _ _ j | .dropping j => j == i
  | _ => false

def Io.waiting (io : Io) (i : BufNo) : ℕ := count (Pc.waits i) io.pc

def Io.users (io : Io) (i : BufNo) : ℕ := io.waiting i + (io.buf i).lock.isSome.toNat + io.pins i

theorem Io.waiting_le (io : Io) (i : BufNo) : io.waiting i ≤ NPROC := by
  have h := count_le (Pc.waits i) io.pc
  rwa [Fintype.card_fin] at h

/-- The cache between sections: all buffers are on the list, none is cached twice and the counts are exact. None of it
depends on `refcnt` not wrapping around. -/
structure Exact (io : Io) : Prop where
  listed : ∀ i, i ∈ io.order
  keys : ∀ i j, (io.buf i).dev ≠ 0 → (io.buf i).dev = (io.buf j).dev → (io.buf i).blockno = (io.buf j).blockno → i = j
  count : ∀ i, (io.buf i).refcnt = BitVec.ofNat 32 (io.users i)

def ROOTDEV : BitVec 32 := 1

theorem Exact.unique {io : Io} {i j : BufNo} (h : Exact io) (hi : (io.buf i).dev = ROOTDEV)
    (hj : (io.buf j).dev = ROOTDEV) (hb : (io.buf i).blockno = (io.buf j).blockno) : i = j :=
  h.keys i j (by rw [hi]; decide) (hi.trans hj.symm) hb

/-- And a process has the buffer it asked for. -/
structure Sound (io : Io) : Prop extends Exact io where
  locking : ∀ p dev b i, io.pc p = .locking dev b i → (io.buf i).dev = dev ∧ (io.buf i).blockno = b
  filling : ∀ p dev b i, io.pc p = .filling dev b i →
    (io.buf i).dev = dev ∧ (io.buf i).blockno = b ∧ (io.buf i).lock = some p
  valid : ∀ i p, (io.buf i).lock = some p → (io.buf i).valid = true ∨ ∃ dev b, io.pc p = .filling dev b i

/-- So few users that `refcnt` does not wrap around. -/
def Few (io : Io) : Prop := ∀ i, io.users i < 2 ^ 32

section Exact
variable {io io' : Io} {p : Slot} {i : BufNo} {dev : BitVec 32} {blockno : BlockNo}

theorem Exact.cached_none (h : Exact io) (hc : io.cached dev blockno = none) (i : BufNo) :
    ¬ ((io.buf i).dev = dev ∧ (io.buf i).blockno = blockno) := by
  have := List.find?_eq_none.mp hc i (h.listed i)
  simpa using this

theorem cached_some (hc : io.cached dev blockno = some i) : (io.buf i).dev = dev ∧ (io.buf i).blockno = blockno := by
  simpa using List.find?_some hc

theorem unused_some (hc : io.unused = some i) : (io.buf i).refcnt = 0 := by
  simpa using List.find?_some hc

theorem Exact.bget_cases (h : Exact io) (hg : io.bget p dev blockno = .next io') :
    (∃ i, ((io.buf i).dev = dev ∧ (io.buf i).blockno = blockno) ∧
      io' = (io.modBuf i fun b => { b with refcnt := b.refcnt + 1 }).goto p (.locking dev blockno i)) ∨
    ∃ i, (io.buf i).refcnt = 0 ∧ (∀ j, ¬ ((io.buf j).dev = dev ∧ (io.buf j).blockno = blockno)) ∧
      io' = (io.modBuf i fun b =>
        { b with dev := dev, blockno := blockno, valid := false, refcnt := 1 }).goto p (.locking dev blockno i) := by
  unfold Io.bget at hg
  split at hg
  · rename_i i hc
    cases hg
    exact .inl ⟨i, cached_some hc, rfl⟩
  · rename_i hc
    split at hg
    · rename_i i hu
      cases hg
      exact .inr ⟨i, unused_some hu, h.cached_none hc, rfl⟩
    · cases hg

theorem ofNat_sub_one {m n : ℕ} (h : m = n + 1) : BitVec.ofNat 32 m - 1 = BitVec.ofNat 32 n := by
  rw [h, BitVec.ofNat_add]
  exact BitVec.add_sub_cancel _ _

/-- A section of `p` on buffer `i`. -/
structure Section (io io' : Io) (p : Slot) (i : BufNo) : Prop where
  buf : ∀ j, j ≠ i → io'.buf j = io.buf j
  pins : ∀ j, j ≠ i → io'.pins j = io.pins j
  pc : io'.pc = update io.pc p (io'.pc p)
  before : ∀ j, j ≠ i → (io.pc p).waits j = false
  after : ∀ j, j ≠ i → (io'.pc p).waits j = false

theorem Section.waiting (hs : Section io io' p i) (j : BufNo) :
    io'.waiting j + ((io.pc p).waits j).toNat = io.waiting j + ((io'.pc p).waits j).toNat := by
  rw [Io.waiting, hs.pc]
  have := count_update (Pc.waits j) io.pc p (io'.pc p)
  simpa [Io.waiting] using this

theorem Exact.count_of_section (h : Exact io) (hs : Section io io' p i)
    (hi : (io'.buf i).refcnt = BitVec.ofNat 32 (io'.users i)) (j : BufNo) :
    (io'.buf j).refcnt = BitVec.ofNat 32 (io'.users j) := by
  by_cases hj : j = i
  · rw [hj, hi]
  · have hw := hs.waiting j
    rw [hs.before j hj, hs.after j hj, Nat.add_right_cancel_iff] at hw
    rw [Io.users, hw, hs.buf j hj, hs.pins j hj, h.count j, Io.users]

def Pc.On (pc : Pc) (i : BufNo) : Prop := ∀ j, j ≠ i → pc.waits j = false

theorem Pc.On.out : Pc.out.On i := fun _ _ => rfl

theorem Pc.On.locking : (Pc.locking dev blockno i).On i := fun _ hj => beq_eq_false_iff_ne.mpr (Ne.symm hj)

theorem Pc.On.filling : (Pc.filling dev blockno i).On i := fun _ _ => rfl

theorem Pc.On.dropping : (Pc.dropping i).On i := fun _ hj => beq_eq_false_iff_ne.mpr (Ne.symm hj)

theorem section_modBuf (f : Buf → Buf) {pc pc' : Pc} (hp : io.pc p = pc) (hb : pc.On i) (ha : pc'.On i) :
    Section io ((io.modBuf i f).goto p pc') p i := by
  refine ⟨fun j hj => ?_, fun j _ => rfl, ?_, ?_, ?_⟩
  · simp [hj]
  · simp
  · rwa [hp]
  · rw [Io.goto_pc, update_self]
    exact ha

theorem Exact.bget (h : Exact io) (hp : io.pc p = .out) (hg : io.bget p dev blockno = .next io') : Exact io' := by
  rcases h.bget_cases hg with ⟨i, hi, he⟩ | ⟨i, h0, hnew, he⟩
  · have hs : Section io io' p i := he ▸ section_modBuf _ hp .out .locking
    have hw := hs.waiting i
    have hc := h.count_of_section hs (by
      subst he
      simp [Io.users, hp, Pc.waits] at hw ⊢
      rw [hw, h.count i, Io.users]
      simp only [BitVec.ofNat_add]
      ac_rfl)
    subst he
    obtain ⟨listed, keys, -⟩ := h
    refine ⟨listed, ?_, hc⟩
    simp only [Io.goto_buf, Io.modBuf_buf, update_apply]
    grind
  · have hs : Section io io' p i := he ▸ section_modBuf _ hp .out .locking
    have hw := hs.waiting i
    have hc := h.count_of_section hs (by
      have hzero : BitVec.ofNat 32 (io.users i) = 0 := (h.count i).symm.trans h0
      have hu : io'.users i = io.users i + 1 := by
        subst he
        simp [Io.users, hp, Pc.waits] at hw ⊢
        omega
      rw [hu, BitVec.ofNat_add, hzero, he]
      simp)
    subst he
    obtain ⟨listed, keys, -⟩ := h
    refine ⟨listed, ?_, hc⟩
    simp only [Io.goto_buf, Io.modBuf_buf, update_apply]
    grind

theorem Exact.acquiresleep (h : Exact io) (hp : io.pc p = .locking dev blockno i)
    (hg : io.acquiresleep p i dev blockno = .next io') : Exact io' := by
  unfold Io.acquiresleep at hg
  split at hg
  · rename_i hlock
    cases hg
    have hs := section_modBuf (fun b => { b with lock := some p }) hp .locking
      (@Pc.On.filling i dev blockno)
    have hw := hs.waiting i
    have hc := h.count_of_section hs (by
      simp [Io.users, hp, Pc.waits] at hw ⊢
      rw [h.count i, Io.users, hlock, ← hw]
      rfl)
    obtain ⟨listed, keys, -⟩ := h
    refine ⟨listed, ?_, hc⟩
    simp only [Io.goto_buf, Io.modBuf_buf, update_apply]
    grind
  · cases hg

theorem Io.fill_eq (io : Io) (p : Slot) (i : BufNo) : ∃ f : Buf → Buf, io.fill p i = (io.modBuf i f).goto p .out ∧
    ∃ data, f (io.buf i) = { io.buf i with valid := true, data := data } := by
  unfold Io.fill
  split
  · rename_i hv
    refine ⟨id, ?_, (io.buf i).data, ?_⟩
    · simp [Io.modBuf]
    · rw [← hv]
      rfl
  · exact ⟨_, rfl, _, rfl⟩

theorem Exact.fill (h : Exact io) (hp : io.pc p = .filling dev blockno i) : Exact (io.fill p i) := by
  obtain ⟨f, he, data, hf⟩ := io.fill_eq p i
  have hs := section_modBuf f hp .filling .out
  have hw := hs.waiting i
  have hc := h.count_of_section hs (by
    simp [Io.users, hp, Pc.waits, hf] at hw ⊢
    rw [h.count i, Io.users, hw])
  rw [he]
  obtain ⟨listed, keys, -⟩ := h
  refine ⟨listed, ?_, hc⟩
  simp only [Io.goto_buf, Io.modBuf_buf, update_apply, hf]
  grind

theorem Exact.brelse (h : Exact io) (hp : io.pc p = .out) (hg : io.brelse p i = .next io') : Exact io' := by
  unfold Io.brelse at hg
  split at hg
  · rename_i hlock
    cases hg
    have hs := section_modBuf (fun b => { b with lock := none }) hp .out (.dropping (i := i))
    have hw := hs.waiting i
    have hc := h.count_of_section hs (by
      simp [Io.users, hp, Pc.waits] at hw ⊢
      rw [h.count i, Io.users, hlock, hw]
      rfl)
    obtain ⟨listed, keys, -⟩ := h
    refine ⟨listed, ?_, hc⟩
    simp only [Io.goto_buf, Io.modBuf_buf, update_apply]
    grind
  · cases hg

theorem Exact.drop (h : Exact io) (hp : io.pc p = .dropping i) : Exact (io.drop p i) := by
  have hs := section_modBuf (fun b => { b with refcnt := b.refcnt - 1 }) hp .dropping .out
  have hw := hs.waiting i
  have hc := h.count_of_section hs (by
    simp [Io.users, hp, Pc.waits] at hw ⊢
    rw [h.count i, Io.users, ← hw]
    refine ofNat_sub_one ?_
    omega)
  obtain ⟨listed, keys, -⟩ := h
  have hexact : Exact ((io.modBuf i fun b => { b with refcnt := b.refcnt - 1 }).goto p .out) := by
    refine ⟨listed, ?_, hc⟩
    simp only [Io.goto_buf, Io.modBuf_buf, update_apply]
    grind
  unfold Io.drop
  dsimp only
  split
  · refine ⟨fun j => ?_, hexact.keys, hexact.count⟩
    by_cases hj : j = i
    · exact hj ▸ List.mem_cons_self
    · exact List.mem_cons_of_mem _ ((List.mem_erase_of_ne hj).mpr (listed j))
  · exact hexact

theorem Exact.bpin (h : Exact io) : Exact (io.bpin i) := by
  refine ⟨h.listed, ?_, fun j => ?_⟩
  · simp only [Io.bpin_buf]
    exact h.keys
  · have := h.count j
    by_cases hj : j = i
    · subst hj
      simp only [Io.bpin, Io.users, Io.waiting, Io.modBuf_buf, Io.modBuf_pc, update_self] at this ⊢
      rw [this, ← Nat.add_assoc, BitVec.ofNat_add _ 1]
      rfl
    · simpa [Io.bpin, Io.users, Io.waiting, hj] using this

theorem Exact.bunpin (h : Exact io) (hi : 0 < io.pins i) : Exact (io.bunpin i) := by
  refine ⟨h.listed, ?_, fun j => ?_⟩
  · simp only [Io.bunpin_buf]
    exact h.keys
  · have := h.count j
    by_cases hj : j = i
    · subst hj
      simp only [Io.bunpin, Io.users, Io.waiting, Io.modBuf_buf, Io.modBuf_pc, update_self] at this ⊢
      rw [this]
      refine ofNat_sub_one ?_
      omega
    · simpa [Io.bunpin, Io.users, Io.waiting, hj] using this

end Exact

variable {io io' : Io} {p : Slot} {i : BufNo} {dev : BitVec 32} {blockno : BlockNo}

theorem few_of_pins (h : ∀ i, io.pins i ≤ 1) : Few io := by
  intro i
  have h1 := h i
  have h2 := io.waiting_le i
  have h3 := Bool.toNat_le (io.buf i).lock.isSome
  rw [NPROC] at h2
  rw [Io.users]
  omega

theorem Sound.refcnt_eq_zero (h : Sound io) (hf : Few io) : (io.buf i).refcnt = 0 ↔ io.users i = 0 := by
  rw [h.count i, ← BitVec.toNat_inj, BitVec.toNat_ofNat, Nat.mod_eq_of_lt (hf i)]
  rfl

/-- A buffer that `bget` recycles has no user. -/
structure Idle (io : Io) (i : BufNo) : Prop where
  waits : ∀ p, (io.pc p).waits i = false
  lock : (io.buf i).lock = none
  pins : io.pins i = 0

theorem Sound.idle (h : Sound io) (hf : Few io) (h0 : (io.buf i).refcnt = 0) : Idle io i := by
  have hu := (h.refcnt_eq_zero hf).mp h0
  rw [Io.users] at hu
  refine ⟨fun p => ?_, ?_, by omega⟩
  · by_contra hp
    have := count_pos_iff.mpr ⟨p, by simpa using hp⟩
    rw [Io.waiting] at hu
    omega
  · cases hl : (io.buf i).lock with
    | none => rfl
    | some q => simp [hl] at hu

/-- `bget` finds the block, or takes a buffer nobody uses. -/
inductive BgetCases (io : Io) (p : Slot) (dev : BitVec 32) (blockno : BlockNo) (io' : Io) : Prop
  | found (i : BufNo) (hi : (io.buf i).dev = dev ∧ (io.buf i).blockno = blockno)
      (h : io' = (io.modBuf i fun b => { b with refcnt := b.refcnt + 1 }).goto p (.locking dev blockno i))
  | recycled (i : BufNo) (hi : Idle io i)
      (hnew : ∀ j, ¬ ((io.buf j).dev = dev ∧ (io.buf j).blockno = blockno))
      (h : io' = (io.modBuf i fun b =>
        { b with dev := dev, blockno := blockno, valid := false, refcnt := 1 }).goto p (.locking dev blockno i))

theorem Sound.bget_cases (h : Sound io) (hf : Few io) (hg : io.bget p dev blockno = .next io') :
    BgetCases io p dev blockno io' := by
  rcases h.toExact.bget_cases hg with ⟨i, hi, he⟩ | ⟨i, h0, hnew, he⟩
  · exact .found i hi he
  · exact .recycled i (h.idle hf h0) hnew he

theorem binit_sound (disk : Disk) : Sound (binit disk) := by
  refine ⟨⟨fun i => ?_, fun i j h0 => absurd rfl h0, fun i => ?_⟩, ?_, ?_, ?_⟩
  · simp [binit]
  · simp [binit, Io.users, Io.waiting, count, Pc.waits]
  · simp [binit]
  · simp [binit]
  · simp [binit]

section
variable (h : Sound io)
include h

theorem Sound.bget (hf : Few io) (hp : io.pc p = .out) (hg : io.bget p dev blockno = .next io') : Sound io' := by
  have hex := h.toExact.bget hp hg
  cases h.bget_cases hf hg with
  | found i hi he =>
    subst he
    obtain ⟨-, locking, filling, valid⟩ := h
    refine ⟨hex, ?_, ?_, ?_⟩ <;>
      simp only [Io.goto_buf, Io.modBuf_buf, Io.goto_pc, Io.modBuf_pc, update_apply]
    · grind
    · grind
    · grind
  | recycled i hi hnew he =>
    have hwaits := hi.waits
    have hlock := hi.lock
    subst he
    obtain ⟨-, locking, filling, valid⟩ := h
    refine ⟨hex, ?_, ?_, ?_⟩ <;>
      simp only [Io.goto_buf, Io.modBuf_buf, Io.goto_pc, Io.modBuf_pc, update_apply]
    · grind [Pc.waits]
    · grind
    · grind

theorem Sound.acquiresleep (hp : io.pc p = .locking dev blockno i)
    (hg : io.acquiresleep p i dev blockno = .next io') : Sound io' := by
  have hex := h.toExact.acquiresleep hp hg
  unfold Io.acquiresleep at hg
  split at hg
  · rename_i hlock
    cases hg
    have hkey := h.locking p dev blockno i hp
    obtain ⟨-, locking, filling, valid⟩ := h
    refine ⟨hex, ?_, ?_, ?_⟩ <;>
      simp only [Io.goto_buf, Io.modBuf_buf, Io.goto_pc, Io.modBuf_pc, update_apply]
    · grind
    · grind
    · grind
  · cases hg

theorem Sound.fill (hp : io.pc p = .filling dev blockno i) : Sound (io.fill p i) := by
  have hkey := h.filling p dev blockno i hp
  have hex := h.toExact.fill hp
  obtain ⟨f, he, data, hf⟩ := io.fill_eq p i
  rw [he] at hex ⊢
  obtain ⟨-, locking, filling, valid⟩ := h
  refine ⟨hex, ?_, ?_, ?_⟩ <;>
    simp only [Io.goto_buf, Io.modBuf_buf, Io.goto_pc, Io.modBuf_pc, update_apply, hf]
  · grind
  · grind
  · grind

theorem Sound.bwrite (hg : io.bwrite p i = .next io') : Sound io' := by
  unfold Io.bwrite at hg
  split at hg
  · cases hg
    exact ⟨⟨h.listed, h.keys, h.count⟩, h.locking, h.filling, h.valid⟩
  · cases hg

theorem Sound.setData (data : Block) : Sound (io.setData i data) := by
  have hu : ∀ j, (io.setData i data).users j = io.users j := by
    intro j
    by_cases hj : j = i <;> simp [Io.setData, Io.users, Io.waiting, hj]
  have hc : ∀ j, ((io.setData i data).buf j).refcnt = BitVec.ofNat 32 ((io.setData i data).users j) := by
    intro j
    rw [hu, ← h.count j]
    by_cases hj : j = i <;> simp [Io.setData, hj]
  obtain ⟨⟨listed, keys, -⟩, locking, filling, valid⟩ := h
  refine ⟨⟨listed, ?_, hc⟩, ?_, ?_, ?_⟩ <;> simp only [Io.setData, Io.modBuf_buf, Io.modBuf_pc, update_apply]
  · grind
  · grind
  · grind
  · grind

theorem Sound.brelse (hp : io.pc p = .out) (hg : io.brelse p i = .next io') : Sound io' := by
  have hex := h.toExact.brelse hp hg
  unfold Io.brelse at hg
  split at hg
  · rename_i hlock
    cases hg
    obtain ⟨-, locking, filling, valid⟩ := h
    refine ⟨hex, ?_, ?_, ?_⟩ <;>
      simp only [Io.goto_buf, Io.modBuf_buf, Io.goto_pc, Io.modBuf_pc, update_apply]
    · grind
    · grind
    · grind
  · cases hg

theorem Sound.drop (hp : io.pc p = .dropping i) : Sound (io.drop p i) := by
  have hex := h.toExact.drop hp
  have hbuf : (io.drop p i).buf = update io.buf i { io.buf i with refcnt := (io.buf i).refcnt - 1 } := by
    unfold Io.drop
    dsimp only
    split <;> rfl
  have hpc : (io.drop p i).pc = update io.pc p .out := by
    unfold Io.drop
    dsimp only
    split <;> rfl
  obtain ⟨-, locking, filling, valid⟩ := h
  refine ⟨hex, ?_, ?_, ?_⟩ <;> simp only [hbuf, hpc, update_apply]
  · grind
  · grind
  · grind

theorem Sound.bpin : Sound (io.bpin i) := by
  have hex := h.toExact.bpin (i := i)
  refine ⟨hex, ?_, ?_, ?_⟩ <;> simp only [Io.bpin_buf]
  · exact h.locking
  · exact h.filling
  · exact h.valid

theorem Sound.bunpin (hi : 0 < io.pins i) : Sound (io.bunpin i) := by
  have hex := h.toExact.bunpin hi
  refine ⟨hex, ?_, ?_, ?_⟩ <;> simp only [Io.bunpin_buf]
  · exact h.locking
  · exact h.filling
  · exact h.valid

end

/-! ## Steps of a process -/

/-- What a process that calls the functions of `bio.c` one after another can do; it unpins only what is
pinned. -/
inductive Step (io : Io) (p : Slot) : Io → Prop
  | none : Step io p io
  | bget (dev : BitVec 32) (blockno : BlockNo) (io' : Io) (hp : io.pc p = .out)
      (h : io.bget p dev blockno = .next io') : Step io p io'
  | acquiresleep (dev : BitVec 32) (blockno : BlockNo) (i : BufNo) (io' : Io) (hp : io.pc p = .locking dev blockno i)
      (h : io.acquiresleep p i dev blockno = .next io') : Step io p io'
  | fill (dev : BitVec 32) (blockno : BlockNo) (i : BufNo) (hp : io.pc p = .filling dev blockno i) :
      Step io p (io.fill p i)
  | bwrite (i : BufNo) (io' : Io) (h : io.bwrite p i = .next io') : Step io p io'
  | brelse (i : BufNo) (io' : Io) (hp : io.pc p = .out) (h : io.brelse p i = .next io') : Step io p io'
  | drop (i : BufNo) (hp : io.pc p = .dropping i) : Step io p (io.drop p i)
  | bpin (i : BufNo) : Step io p (io.bpin i)
  | bunpin (i : BufNo) (hi : 0 < io.pins i) : Step io p (io.bunpin i)
  | setData (i : BufNo) (data : Block) : Step io p (io.setData i data)

theorem Step.kept (hst : Step io p io') (h : Sound io) (hf : Few io) (hi : 0 < io.users i) :
    (io'.buf i).dev = (io.buf i).dev ∧ (io'.buf i).blockno = (io.buf i).blockno := by
  cases hst with
  | none => exact ⟨rfl, rfl⟩
  | bget dev blockno _ hp hg =>
    cases h.bget_cases hf hg with
    | found j hj he =>
      subst he
      by_cases hij : i = j <;> simp [hij]
    | recycled j hj hnew he =>
      subst he
      have hij : i ≠ j := by
        rintro rfl
        have hw : io.waiting i = 0 := count_eq_zero_iff.mpr hj.waits
        rw [Io.users, hw, hj.lock, hj.pins] at hi
        cases hi
      simp [hij]
  | acquiresleep dev blockno j _ hp hg =>
    unfold Io.acquiresleep at hg
    split at hg
    · cases hg
      by_cases hij : i = j <;> simp [hij]
    · cases hg
  | fill dev blockno j hp =>
    unfold Io.fill
    split <;> by_cases hij : i = j <;> simp [hij]
  | bwrite j _ hg =>
    unfold Io.bwrite at hg
    split at hg <;> cases hg
    exact ⟨rfl, rfl⟩
  | brelse j _ hp hg =>
    unfold Io.brelse at hg
    split at hg
    · cases hg
      by_cases hij : i = j <;> simp [hij]
    · cases hg
  | drop j hp =>
    unfold Io.drop
    dsimp only
    split <;> by_cases hij : i = j <;> simp [hij]
  | bpin j =>
    rw [Io.bpin_buf]
    exact ⟨rfl, rfl⟩
  | bunpin j hj =>
    rw [Io.bunpin_buf]
    exact ⟨rfl, rfl⟩
  | setData j data =>
    rw [Io.setData_buf]
    exact ⟨rfl, rfl⟩

end Xv6Boot.Kernel.Bio
