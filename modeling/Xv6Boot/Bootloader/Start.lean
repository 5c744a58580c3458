import Xv6Boot.Bootloader.Sha256C
import Xv6Boot.Bootloader.Elf

/-! # `load.c` and `start.c`: verify, load, jump

A run of one hart from `_entry`'s call to `start`. `none` stands for a run that does not come back:
`panic` is an endless loop. Local variables live in registers except the two `struct buf`, which are
addressed and therefore placed on the boot stack.
-/

namespace Xv6Boot.Start
open ByteMemory Loop StringC Layout Elf Sha256C

/-! ## `kernel_copy` -/

def kernelCopy (ktype : Kernel) (b : Addr) (m : Mem) : Option Mem :=
  if FSSIZE ≤ (load 32 m (off b Buf.blockno)).toNat then
    none
  else
    let diskaddr := (load 32 m (off b Buf.blockno) * BitVec.ofNat 32 BSIZE).setWidth 64
    let m := memmove m (off b Buf.data) (ktype.disk + diskaddr) BSIZE
    some (store m (off b Buf.valid) 1#32)

/-! ## `is_secure_boot` -/

def verifyBlock (b kernelLoadAddr : Addr) (i : ℕ) (m : Mem) : Option Mem :=
  if i < 4 then do
    let m := store m (off b Buf.blockno) (BitVec.ofNat 32 i)
    let m ← kernelCopy .NORMAL b m
    some (sha256Update m sha256Ctx (off b Buf.data) BSIZE)
  else do
    let m := store m (off b Buf.blockno) (BitVec.ofNat 32 i)
    let m ← kernelCopy .NORMAL b m
    let m := memmove m (off kernelLoadAddr ((i - 4) * BSIZE)) (off b Buf.data) BSIZE
    some (sha256Update m sha256Ctx (off b Buf.data) BSIZE)

/-- Up to the last `sha256_update`. -/
def measureKernel (b : Addr) (m : Mem) : Option Mem := do
  let m := sha256Init m sha256Ctx
  let kernelLoadAddr := (findKernelLoadAddr .NORMAL m).1
  let m := (findKernelLoadAddr .NORMAL m).2
  let kernelBinarySize := (findKernelSize .NORMAL m).1
  let m := (findKernelSize .NORMAL m).2
  let numBlocks := kernelBinarySize.toNat / BSIZE
  let m ← forLoopM (verifyBlock b kernelLoadAddr) 0 numBlocks m
  let remSize := kernelBinarySize.toNat - BSIZE * numBlocks
  let m := store m (off b Buf.blockno) (BitVec.ofNat 32 numBlocks)
  let m ← kernelCopy .NORMAL b m
  some (sha256Update m sha256Ctx (off b Buf.data) remSize)

/-- `sha256_final` into the table, then the expected hash beside it. -/
def recordHashes (m : Mem) : Mem :=
  let m := sha256Final m sha256Ctx (off (load 64 m sysInfoPtr) SysInfo.observed)
  memcpy m (off (load 64 m sysInfoPtr) SysInfo.expected) trustedKernelHash 32

def isSecureBoot (hart : Fin NCPU) (m : Mem) : Option (Bool × Mem) := do
  let m ← measureKernel (secureBootBuf hart) m
  let m := recordHashes m
  let differ := memcmp m (off (load 64 m sysInfoPtr) SysInfo.observed)
    (off (load 64 m sysInfoPtr) SysInfo.expected) 32
  some (decide (differ = 0), m)

/-! ## `start` -/

structure Machine where
  mem : Mem
  tp : BitVec 64
  mepc : BitVec 64
  ra : BitVec 64

/-- How `start` is left: back to `_entry`, or by the jump into the image. -/
inductive Exit where
  | returned
  | jumped (pc : Addr)
  deriving DecidableEq

def loadBlock (b kernelLoadAddr : Addr) (i : ℕ) (m : Mem) : Option Mem :=
  if i < 4 then some m
  else do
    let m := store m (off b Buf.blockno) (BitVec.ofNat 32 i)
    let m ← kernelCopy .NORMAL b m
    some (memmove m (off kernelLoadAddr ((i - 4) * BSIZE)) (off b Buf.data) BSIZE)

/-- The second load, counted in units of `FSSIZE`. -/
def loadKernel (b : Addr) (m : Mem) : Option Mem := do
  let kernelLoadAddr := (findKernelLoadAddr .NORMAL m).1
  let m := (findKernelLoadAddr .NORMAL m).2
  let kernelBinarySize := (findKernelSize .NORMAL m).1
  let m := (findKernelSize .NORMAL m).2
  let numBlocks := kernelBinarySize.toNat / FSSIZE
  forLoopM (loadBlock b kernelLoadAddr) 0 numBlocks m

/-- `end` is an object of type `uint64` to the compiler: its value is read, not its address. -/
def publishSysInfo (m : Mem) : Mem :=
  let m := store m (off (load 64 m sysInfoPtr) SysInfo.blStart) entry
  let m := store m (off (load 64 m sysInfoPtr) SysInfo.blEnd) (load 64 m endSym)
  let m := store m (off (load 64 m sysInfoPtr) SysInfo.drStart) (0x80000000#64 : Addr)
  store m (off (load 64 m sysInfoPtr) SysInfo.drEnd) PHYSTOP

def start (hart : Fin NCPU) (s : Machine) : Option (Exit × Machine) := do
  let m := store s.mem sysInfoPtr sysInfo
  let tp := BitVec.ofNat 64 hart
  let r ← isSecureBoot hart m
  if r.1 then
    let m ← loadKernel (startBuf hart) r.2
    let mepc := (findKernelEntryAddr .NORMAL m).1
    let m := (findKernelEntryAddr .NORMAL m).2
    let m := publishSysInfo m
    let kernelEntry := (findKernelEntryAddr .NORMAL m).1
    let m := (findKernelEntryAddr .NORMAL m).2
    some (.jumped kernelEntry, ⟨m, tp, mepc, panicAddr⟩)
  else
    some (.returned, { s with mem := r.2, tp := tp })

end Xv6Boot.Start
