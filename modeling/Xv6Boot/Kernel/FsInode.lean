import Xv6Boot.Foundations.Program
import Xv6Boot.Kernel.FsFormat

/-! # `fs.c`: blocks, inodes and their contents

One caller at a time, on one device: blocks are read from and written to one store, and the sleep locks of buffers
and inodes are left out. `cache` is what `bread` returns; `store` is what is on the disk or recorded with
`log_write`; `log` lists the calls of `log_write`. An `ip` is a place in the table of inodes.
-/

namespace Xv6Boot.Kernel.Fs
open Function Program

def NINODE : ℕ := 50

abbrev Ip := Fin NINODE

theorem NINODE_pos : 0 < NINODE := by decide

instance : NeZero NINODE := ⟨NINODE_pos.ne'⟩

structure Inode where
  inum : ℕ
  ref : ℤ
  valid : Bool
  /-- copy of disk inode -/
  d : Dinode

structure State where
  cache : ℕ → Data
  store : ℕ → Data
  log : List ℕ
  inode : Ip → Inode

abbrev M := Prog State

/-! ## Buffers -/

def bread (b : ℕ) : M Data := do
  let s ← get
  return s.cache b

def setData (b : ℕ) (d : Data) : M Unit := modify fun s => { s with cache := update s.cache b d }

def logWrite (b : ℕ) : M Unit :=
  modify fun s => { s with store := update s.store b (s.cache b), log := s.log ++ [b] }

/-- Stores to `ip` -/
def setInode (ip : Ip) (f : Inode → Inode) : M Unit :=
  modify fun s => { s with inode := update s.inode ip (f (s.inode ip)) }

def setCopy (ip : Ip) (f : Dinode → Dinode) : M Unit := setInode ip fun i => { i with d := f i.d }

variable (sb : Superblock)

/-! ## Blocks -/

def bzero (b : ℕ) : M Unit := do
  setData b fun _ => 0
  logWrite b

/-- The first free block: `b` runs through the map's blocks, `bi` through the bits of one. -/
def freeBlock (c : ℕ → Data) : Option ℕ :=
  (List.range ((sb.size + BPB - 1) / BPB)).findSome? fun k =>
    let b := k * BPB
    ((List.range BPB).find? fun bi => decide (b + bi < sb.size) && !bit (c (sb.BBLOCK b)) bi).map (b + ·)

def balloc : M (BitVec 32) := do
  let s ← get
  match freeBlock sb s.cache with
  | some b =>
    setData (sb.BBLOCK b) (setBit (s.cache (sb.BBLOCK b)) (b % BPB))
    logWrite (sb.BBLOCK b)
    bzero b
    return BitVec.ofNat 32 b
  | none => return 0

def bfree (b : BitVec 32) : M Unit := do
  let d ← bread (sb.BBLOCK b.toNat)
  if bit d (b.toNat % BPB) then
    setData (sb.BBLOCK b.toNat) (clearBit d (b.toNat % BPB))
    logWrite (sb.BBLOCK b.toNat)
  else stop "freeing free block"

/-! ## Inodes -/

def iget (inum : ℕ) : M Ip := do
  let s ← get
  match (List.finRange NINODE).find? fun ip => decide (0 < (s.inode ip).ref ∧ (s.inode ip).inum = inum) with
  | some ip =>
    setInode ip fun i => { i with ref := i.ref + 1 }
    return ip
  | none =>
    match (List.finRange NINODE).find? fun ip => decide ((s.inode ip).ref = 0) with
    | some ip =>
      setInode ip fun i => { i with inum := inum, ref := 1, valid := false }
      return ip
    | none => stop "iget: no inodes"

def freeInode (c : ℕ → Data) : Option ℕ :=
  (List.range' 1 (sb.ninodes - 1)).find? fun inum => decide ((dinode sb c inum).type = 0)

def ialloc (type : BitVec 16) : M (Option Ip) := do
  let s ← get
  match freeInode sb s.cache with
  | some inum =>
    setData (sb.IBLOCK inum) (putDinode (s.cache (sb.IBLOCK inum)) (inum % IPB) { Dinode.zero with type := type })
    logWrite (sb.IBLOCK inum)
    let ip ← iget inum
    return some ip
  | none => return none

def iupdate (ip : Ip) : M Unit := do
  let s ← get
  let inum := (s.inode ip).inum
  let d ← bread (sb.IBLOCK inum)
  setData (sb.IBLOCK inum) (putDinode d (inum % IPB) (s.inode ip).d)
  logWrite (sb.IBLOCK inum)

def idup (ip : Ip) : M Ip := do
  setInode ip fun i => { i with ref := i.ref + 1 }
  return ip

def ilock (ip : Ip) : M Unit := do
  let s ← get
  if (s.inode ip).ref < 1 then stop "ilock"
  else if (s.inode ip).valid then return
  else
    let d ← bread (sb.IBLOCK (s.inode ip).inum)
    let x := getDinode d ((s.inode ip).inum % IPB)
    setInode ip fun i => { i with d := x, valid := true }
    if x.type = 0 then stop "ilock: no type"
    else return

def iunlock (ip : Ip) : M Unit := do
  let s ← get
  if (s.inode ip).ref < 1 then stop "iunlock" else return

/-! ## Inode content -/

/-- `ip->addrs[NDIRECT]` -/
def indirect : Fin (NDIRECT + 1) := Fin.last NDIRECT

def Dinode.setAddr (x : Dinode) (i : Fin (NDIRECT + 1)) (a : BitVec 32) : Dinode :=
  { x with addrs := update x.addrs i a }

/-- `addr`, or a new block if there is none; `put` records a new one. -/
def orAlloc (addr : BitVec 32) (put : BitVec 32 → M Unit) : M (BitVec 32) :=
  if addr = 0 then do
    let addr ← balloc sb
    if addr = 0 then return 0
    else
      put addr
      return addr
  else return addr

def bmap (ip : Ip) (bn : ℕ) : M (BitVec 32) := do
  let s ← get
  if h : bn < NDIRECT then
    let i : Fin (NDIRECT + 1) := ⟨bn, Nat.lt_succ_of_lt h⟩
    orAlloc sb ((s.inode ip).d.addrs i) fun addr => setCopy ip fun x => x.setAddr i addr
  else if bn - NDIRECT < NINDIRECT then
    let addr ← orAlloc sb ((s.inode ip).d.addrs indirect) fun addr => setCopy ip fun x => x.setAddr indirect addr
    if addr = 0 then return 0
    else
      let d ← bread addr.toNat
      orAlloc sb (word d (bn - NDIRECT)) fun a => do
        let d ← bread addr.toNat
        setData addr.toNat (setWord d (bn - NDIRECT) a)
        logWrite addr.toNat
  else stop "bmap: out of range"

def truncDirect (ip : Ip) (i : Fin (NDIRECT + 1)) : M Unit := do
  let s ← get
  if (s.inode ip).d.addrs i ≠ 0 then
    bfree sb ((s.inode ip).d.addrs i)
    setCopy ip fun x => x.setAddr i 0
  else return

/-- The blocks of the indirect block `b`, one turn of the loop. -/
def truncEntry (b : ℕ) (j : ℕ) : M Unit := do
  let d ← bread b
  if word d j ≠ 0 then bfree sb (word d j) else return

def truncIndirect (ip : Ip) : M Unit := do
  let s ← get
  let addr := (s.inode ip).d.addrs indirect
  if addr ≠ 0 then
    (List.range NINDIRECT).forM (truncEntry sb addr.toNat)
    bfree sb addr
    setCopy ip fun x => x.setAddr indirect 0
  else return

def itrunc (ip : Ip) : M Unit := do
  (List.finRange NDIRECT).forM fun i => truncDirect sb ip i.castSucc
  truncIndirect sb ip
  setCopy ip fun x => { x with size := 0 }
  iupdate sb ip

def iput (ip : Ip) : M Unit := do
  let s ← get
  let i := s.inode ip
  if i.ref = 1 ∧ i.valid = true ∧ i.d.nlink = 0 then
    itrunc sb ip
    setCopy ip fun x => { x with type := 0 }
    iupdate sb ip
    setInode ip fun i => { i with valid := false }
  else pure ()
  setInode ip fun i => { i with ref := i.ref - 1 }

def iunlockput (ip : Ip) : M Unit := do
  iunlock ip
  iput sb ip

/-- How many bytes `copyin` or `copyout` copies before a page that is not mapped. -/
def mappedPrefix (ok : ℕ → Bool) (m : ℕ) : ℕ := (List.range m).findIdx fun i => !ok i

/-- The loop of `readi`; `acc` is what has been copied to `dst`. -/
def readLoop (ip : Ip) (dst : ℕ → Bool) (n : ℕ) : ℕ → ℕ → ℕ → List Byte → M (ℤ × List Byte)
  | 0, tot, _, acc => return ((tot : ℤ), acc)
  | fuel + 1, tot, off, acc =>
    if tot < n then do
      let addr ← bmap sb ip (off / BSIZE)
      if addr = 0 then return ((tot : ℤ), acc)
      else
        let d ← bread addr.toNat
        let m := min (n - tot) (BSIZE - off % BSIZE)
        let j := mappedPrefix (fun i => dst (tot + i)) m
        let out := (List.range j).map fun i => d (off % BSIZE + i)
        if j < m then return (-1, acc ++ out)
        else readLoop ip dst n fuel (tot + m) (off + m) (acc ++ out)
    else return ((tot : ℤ), acc)

/-- `dst i` says whether `dst + i` can be written; the second result is what is copied there. A turn of the loop
copies at least one byte. -/
def readi (ip : Ip) (dst : ℕ → Bool) (off n : BitVec 32) : M (ℤ × List Byte) := do
  let s ← get
  let size := (s.inode ip).d.size
  if off > size ∨ off + n < off then return (0, [])
  else
    let n := if off + n > size then size - off else n
    readLoop sb ip dst n.toNat n.toNat 0 off.toNat []

/-- Bytes `j` of `src`, from `tot` on, copied into a block at `o`. -/
def copyInto (d : Data) (o : ℕ) (src : ℕ → Option Byte) (tot j : ℕ) : Data := fun i =>
  if o ≤ i ∧ i < o + j then (src (tot + (i - o))).getD 0 else d i

/-- The loop of `writei`; it returns `tot` and `off`. -/
def writeLoop (ip : Ip) (src : ℕ → Option Byte) (n : ℕ) : ℕ → ℕ → ℕ → M (ℕ × ℕ)
  | 0, tot, off => return (tot, off)
  | fuel + 1, tot, off =>
    if tot < n then do
      let addr ← bmap sb ip (off / BSIZE)
      if addr = 0 then return (tot, off)
      else
        let d ← bread addr.toNat
        let m := min (n - tot) (BSIZE - off % BSIZE)
        let j := mappedPrefix (fun i => (src (tot + i)).isSome) m
        setData addr.toNat (copyInto d (off % BSIZE) src tot j)
        if j < m then return (tot, off)
        else
          logWrite addr.toNat
          writeLoop ip src n fuel (tot + m) (off + m)
    else return (tot, off)

/-- `src i` is the byte at `src + i`, if it can be read. -/
def writei (ip : Ip) (src : ℕ → Option Byte) (off n : BitVec 32) : M ℤ := do
  let s ← get
  if off > (s.inode ip).d.size ∨ off + n < off then return -1
  else if off + n > BitVec.ofNat 32 (MAXFILE * BSIZE) then return -1
  else
    let (tot, off') ← writeLoop sb ip src n.toNat n.toNat 0 off.toNat
    let s ← get
    if off' > (s.inode ip).d.size.toNat then setCopy ip fun x => { x with size := BitVec.ofNat 32 off' }
    else pure ()
    iupdate sb ip
    return (tot : ℤ)

end Xv6Boot.Kernel.Fs
