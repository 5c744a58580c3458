import Xv6Boot.Foundations.ByteMemory

/-! # Where everything lives

The linked addresses of `bootloader.sym`, the fixed addresses of `defs.h` and `start.c`, the
parameters of `param.h`/`buf.h`/`layout.h`, and the byte offsets of the C structures. `struct buf b` is
a local variable of `is_secure_boot` and of `start`: its address is the stack pointer `entry.S` sets up
for the hart, less the frame offsets of `bootloader.asm`.
-/

namespace Xv6Boot.Layout
open ByteMemory

/-! ## Parameters -/

def BSIZE : ℕ := 1024
def FSSIZE : ℕ := 2000
def NCPU : ℕ := 8
instance : NeZero NCPU := ⟨by decide⟩
def STSIZE : ℕ := 4096
def KERNBASE : Addr := 0x80000000#64
def PHYSTOP : Addr := KERNBASE + 128 * 1024 * 1024

inductive Kernel where
  | NORMAL
  | RECOVERY
  deriving DecidableEq

def RAMDISK : Addr := 0x84000000#64
def RECOVERYDISK : Addr := 0x84500000#64

def Kernel.disk : Kernel → Addr
  | .NORMAL => RAMDISK
  | .RECOVERY => RECOVERYDISK

/-! ## Symbols -/

def entry : Addr := 0x80000000#64
def panicAddr : Addr := 0x8000001c#64
def trustedKernelHash : Addr := 0x80000ad8#64
def kTable : Addr := 0x80000af8#64
def sha256Ctx : Addr := 0x80000c20#64
def blStack : Addr := 0x80000c90#64
def sysInfoPtr : Addr := 0x80008c90#64
def kernelPhdr : Addr := 0x80008c98#64
def kernelElfhdr : Addr := 0x80008ca0#64
def endSym : Addr := 0x80008c90#64
def sysInfo : Addr := 0x80080000#64

def bootloaderSize : ℕ := 0x8ca8
def bootloaderMem : Set Addr := span entry bootloaderSize

/-! ## The boot stack -/

def bootStack : Set Addr := span blStack (STSIZE * NCPU)

/-- `struct buf b` of `start`, whose frame is 1152 bytes with the buffer 1144 below its top. -/
def startBuf (hart : Fin NCPU) : Addr := off blStack (STSIZE * hart + STSIZE - 1144)

/-- `struct buf b` of `is_secure_boot`, 1160 bytes below the top of its frame under `start`'s. -/
def secureBootBuf (hart : Fin NCPU) : Addr := off blStack (STSIZE * hart + STSIZE - 1152 - 1160)

/-! ## Structure offsets -/

namespace Buf
def valid : ℕ := 0
def blockno : ℕ := 12
def data : ℕ := 40
def size : ℕ := 1064
end Buf

namespace Elfhdr
def magic : ℕ := 0
def entry : ℕ := 24
def phoff : ℕ := 32
def shoff : ℕ := 40
def phentsize : ℕ := 54
def phnum : ℕ := 56
def shentsize : ℕ := 58
def shnum : ℕ := 60
def size : ℕ := 64
end Elfhdr

namespace Proghdr
def type : ℕ := 0
def offset : ℕ := 8
def vaddr : ℕ := 16
def filesz : ℕ := 32
def memsz : ℕ := 40
def size : ℕ := 56
end Proghdr

namespace Ctx
def data : ℕ := 0
def datalen : ℕ := 64
def bitlen : ℕ := 72
def state : ℕ := 80
def size : ℕ := 112
end Ctx

namespace SysInfo
def blStart : ℕ := 0
def blEnd : ℕ := 8
def drStart : ℕ := 16
def drEnd : ℕ := 24
def expected : ℕ := 32
def observed : ℕ := 64
def size : ℕ := 96
end SysInfo

end Xv6Boot.Layout
