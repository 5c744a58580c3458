import Xv6Boot.Foundations.Ring
import Xv6Boot.Foundations.Transition

/-! # `virtio_disk.c`

Processes of type `P` in `virtio_disk_rw` with buffers of type `B`, the interrupt handler, and the device. What
runs under `vdisk_lock` is cut where the device may see a difference: at the store to `avail->ring`, at
`avail->idx += 1`, and at each turn of the loop in `virtio_disk_intr`. A sleeping process may be woken at any
time. The callers, `bread` and `bwrite`, hold the sleep lock of the buffer, so there is one call at a time for a
buffer. The fields from `published` on are history; the number of a request is its place in `published`.
-/

namespace Xv6Boot.Kernel.VirtioDisk
open Function Transition

def NUM : ℕ := 8

def VRING_DESC_F_NEXT : BitVec 16 := 1
def VRING_DESC_F_WRITE : BitVec 16 := 2
def VIRTIO_BLK_T_IN : BitVec 32 := 0
def VIRTIO_BLK_T_OUT : BitVec 32 := 1
def BSIZE : ℕ := 1024

/-- What the driver gives the device addresses of. -/
inductive Addr (B : Type) where
  | null
  | op (i : ℕ)
  | data (b : B)
  | status (i : ℕ)

structure Desc (B : Type) where
  addr : Addr B
  len : ℕ
  flags : BitVec 16
  next : ℕ

structure Info (B : Type) where
  b : Option B
  status : BitVec 8

/-- `struct virtio_blk_req` -/
structure Op where
  type : BitVec 32
  reserved : BitVec 32
  sector : BitVec 64

/-- The buffer and the three descriptors of a request. -/
structure Chain (B : Type) where
  b : B
  idx0 : ℕ
  idx1 : ℕ
  idx2 : ℕ

/-- `wait` and `asleep` are the loop at the end, with and without the lock; the last argument is the number of
the request. -/
inductive Pc (B : Type) where
  | out
  | start (b : B) (write : Bool)
  | ring (c : Chain B)
  | publish (c : Chain B)
  | wait (c : Chain B) (n : ℕ)
  | asleep (c : Chain B) (n : ℕ)

inductive Holder (P : Type) where
  | proc (p : P)
  | intr
  deriving DecidableEq

structure State (P B : Type) where
  lock : Option (Holder P)
  desc : ℕ → Desc B
  availIdx : BitVec 16
  availRing : ℕ → ℕ
  usedRingIdx : BitVec 16
  usedRing : ℕ → ℕ
  free : ℕ → Bool
  usedIdx : BitVec 16
  info : ℕ → Info B
  ops : ℕ → Op
  /-- `b->disk` -/
  busy : B → Bool
  blockno : B → BitVec 32
  /-- who holds `b->lock` for a call -/
  held : B → Option P
  pc : P → Pc B
  /-- how far the device has looked in the avail ring -/
  lastAvail : BitVec 16
  /-- the chains the device works on, by number and first descriptor -/
  pending : List (ℕ × ℕ)
  published : List ℕ
  consumed : List ℕ
  completed : List (ℕ × ℕ)
  processed : List ℕ

inductive Action (P B : Type) where
  | call (p : P) (b : B) (write : Bool)
  | go (p : P)
  | intr
  | intrGo
  | consume
  | complete (k : ℕ)

variable {P B : Type}

/-- After `virtio_disk_init` -/
def init (blockno : B → BitVec 32) : State P B where
  lock := none
  desc := fun _ => ⟨.null, 0, 0, 0⟩
  availIdx := 0
  availRing := fun _ => 0
  usedRingIdx := 0
  usedRing := fun _ => 0
  free := fun i => i < NUM
  usedIdx := 0
  info := fun _ => ⟨none, 0⟩
  ops := fun _ => ⟨0, 0, 0⟩
  busy := fun _ => false
  blockno := blockno
  held := fun _ => none
  pc := fun _ => .out
  lastAvail := 0
  pending := []
  published := []
  consumed := []
  completed := []
  processed := []

namespace State
variable (s : State P B)

def allocDesc : Option (ℕ × State P B) :=
  match (List.range NUM).find? s.free with
  | some i => some (i, { s with free := update s.free i false })
  | none => none

def freeDesc (i : ℕ) : Outcome (State P B) :=
  if NUM ≤ i then .panic "free_desc 1"
  else if s.free i then .panic "free_desc 2"
  else .next { s with
    desc := update s.desc i ⟨.null, 0, 0, 0⟩
    free := update s.free i true }

/-- There are `NUM` descriptors to free at most, and freeing one twice is a panic. -/
def freeChain : ℕ → ℕ → State P B → Outcome (State P B)
  | 0, _, _ => .disabled
  | fuel + 1, i, s =>
    let flag := (s.desc i).flags
    let nxt := (s.desc i).next
    (s.freeDesc i).bind fun s' => if flag &&& VRING_DESC_F_NEXT ≠ 0 then freeChain fuel nxt s' else .next s'

def alloc3Desc : Outcome (Option (ℕ × ℕ × ℕ) × State P B) :=
  match s.allocDesc with
  | none => .next (none, s)
  | some (i0, s1) =>
    match s1.allocDesc with
    | none => (s1.freeDesc i0).map fun s' => (none, s')
    | some (i1, s2) =>
      match s2.allocDesc with
      | none => ((s2.freeDesc i0).bind fun s' => s'.freeDesc i1).map fun s' => (none, s')
      | some (i2, s3) => .next (some (i0, i1, i2), s3)

variable [DecidableEq B]

def format (write : Bool) (c : Chain B) : State P B :=
  let ops := update s.ops c.idx0
    ⟨if write then VIRTIO_BLK_T_OUT else VIRTIO_BLK_T_IN, 0,
      (s.blockno c.b * BitVec.ofNat 32 (BSIZE / 512)).setWidth 64⟩
  let desc := update s.desc c.idx0 ⟨.op c.idx0, 16, VRING_DESC_F_NEXT, c.idx1⟩
  let desc := update desc c.idx1
    ⟨.data c.b, BSIZE, (if write then 0 else VRING_DESC_F_WRITE) ||| VRING_DESC_F_NEXT, c.idx2⟩
  let desc := update desc c.idx2 ⟨.status c.idx0, 1, VRING_DESC_F_WRITE, 0⟩
  { s with
    ops := ops
    desc := desc
    info := update s.info c.idx0 ⟨some c.b, 0xff⟩
    busy := update s.busy c.b true }

variable [DecidableEq P]

def goto (p : P) (pc : Pc B) : State P B := { s with pc := update s.pc p pc }

end State

variable [DecidableEq P] [DecidableEq B]

/-- `virtio_disk_rw` from `acquire` on, or from where `sleep` in the first loop returns. -/
def start (s : State P B) (p : P) (b : B) (write : Bool) : Outcome (State P B) :=
  if s.lock = none then
    s.alloc3Desc.map fun r =>
      match r with
      | (some (i0, i1, i2), s') =>
        let c : Chain B := ⟨b, i0, i1, i2⟩
        { (s'.format write c).goto p (.ring c) with lock := some (.proc p) }
      | (none, s') => s'
  else .disabled

/-- The rest of `virtio_disk_rw`, when the request is done. -/
def finish (s : State P B) (p : P) (c : Chain B) : Outcome (State P B) :=
  (State.freeChain NUM c.idx0 { s with
    info := update s.info c.idx0 { s.info c.idx0 with b := none } }).map fun s' =>
      { s'.goto p .out with lock := none, held := update s'.held c.b none }

/-- One turn of the loop of `virtio_disk_intr`, or its end. -/
def intrTurn (s : State P B) : Outcome (State P B) :=
  if s.usedIdx ≠ s.usedRingIdx then
    let id := s.usedRing (s.usedIdx.toNat % NUM)
    if (s.info id).status ≠ 0 then .panic "virtio_disk_intr status"
    else
      match (s.info id).b with
      | none => .panic "kernel fault: b is 0"
      | some b => .next { s with
          busy := update s.busy b false
          usedIdx := s.usedIdx + 1
          processed := s.processed ++ [id] }
  else .next { s with lock := none }

def consume (s : State P B) : Outcome (State P B) :=
  if s.lastAvail ≠ s.availIdx then
    let head := s.availRing (s.lastAvail.toNat % NUM)
    .next { s with
      pending := s.pending ++ [(s.consumed.length, head)]
      lastAvail := s.lastAvail + 1
      consumed := s.consumed ++ [head] }
  else .disabled

def State.statusAddr (s : State P B) (head : ℕ) : Addr B :=
  (s.desc (s.desc (s.desc head).next).next).addr

def complete (s : State P B) (k : ℕ) : Outcome (State P B) :=
  match s.pending[k]? with
  | none => .disabled
  | some (n, head) => .next { s with
      info := match s.statusAddr head with
        | .status i => update s.info i { s.info i with status := 0 }
        | _ => s.info
      usedRing := update s.usedRing (s.usedRingIdx.toNat % NUM) head
      usedRingIdx := s.usedRingIdx + 1
      pending := s.pending.eraseIdx k
      completed := s.completed ++ [(n, head)] }

def step (s : State P B) : Action P B → Outcome (State P B)
  | .call p b write =>
    match s.pc p with
    | .out =>
      if s.held b = none then
        .next { s.goto p (.start b write) with held := update s.held b (some p) }
      else .disabled
    | _ => .disabled
  | .go p =>
    match s.pc p with
    | .out => .disabled
    | .start b write => start s p b write
    | .ring c => .next { s.goto p (.publish c) with
        availRing := update s.availRing (s.availIdx.toNat % NUM) c.idx0 }
    | .publish c => .next { s.goto p (.wait c s.published.length) with
        availIdx := s.availIdx + 1
        published := s.published ++ [c.idx0] }
    | .wait c n => if s.busy c.b then .next { s.goto p (.asleep c n) with lock := none } else finish s p c
    | .asleep c n => if s.lock = none then .next { s.goto p (.wait c n) with lock := some (.proc p) } else .disabled
  | .intr => if s.lock = none then .next { s with lock := some .intr } else .disabled
  | .intrGo => if s.lock = some .intr then intrTurn s else .disabled
  | .consume => consume s
  | .complete k => complete s k

end Xv6Boot.Kernel.VirtioDisk
