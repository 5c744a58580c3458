import Xv6Boot.Kernel.ProcPagetable
import Xv6Boot.Kernel.FsDir

/-! # `exec.c`

The process that calls, the file system it reads from and the memory it runs in. The path and the headers of the file
are lists of bytes; the pages, the argument strings and `ustack` are in memory. A panic in `vm.c` or a loop there that
does not end stops with "vm". `begin_op` and `end_op` only count here.
-/

namespace Xv6Boot.Kernel.Exec
open ByteMemory Pages Program
open Xv6Boot.Kernel.Fs (Superblock Ip readi ilock iunlockput namei slash)

def MAXARG : ℕ := 32
def USERSTACK : ℕ := 1
def ELF_MAGIC : BitVec 32 := 0x464C457F
def ELF_PROG_LOAD : BitVec 32 := 1

/-- The part of `struct proc` that `exec` uses. -/
structure Proc where
  pagetable : Addr
  sz : BitVec 64
  trapframe : Addr
  name : ℕ → Byte
  cwd : Ip

structure Machine where
  fs : Fs.State
  mem : Kmem
  /-- Calls of `begin_op` less those of `end_op`. -/
  ops : ℤ
  proc : Proc

abbrev X := Prog Machine

variable {α : Type}

def onFs (m : Fs.M α) : X α := fun s =>
  match m s.fs with
  | .ok (a, fs) => .ok (a, { s with fs := fs })
  | .error e => .error e

def onMem (f : Kmem → Option (α × Kmem)) : X α := fun s =>
  match f s.mem with
  | some (a, k) => .ok (a, { s with mem := k })
  | none => .error "vm"

def beginOp : X Unit := modify fun s => { s with ops := s.ops + 1 }

def endOp : X Unit := modify fun s => { s with ops := s.ops - 1 }

def setMem (f : Mem → Mem) : X Unit := modify fun s => { s with mem := ⟨f s.mem.mem, s.mem.freelist⟩ }

/-! ## Headers -/

/-- The number at offset `o` of a header. -/
def field (w : ℕ) (header : List Byte) (o : ℕ) : BitVec w :=
  BitVec.ofNat w (leNat (fun k => header.getD (o + k) 0) (w / 8))

def sizeofElfhdr : BitVec 32 := 64

section Elfhdr
variable (elf : List Byte)

def magic : BitVec 32 := field 32 elf 0
def entry : BitVec 64 := field 64 elf 24
def phoff : BitVec 64 := field 64 elf 32
def phnum : BitVec 16 := field 16 elf 56

end Elfhdr

def sizeofProghdr : BitVec 32 := 56

section Proghdr
variable (ph : List Byte)

def phType : BitVec 32 := field 32 ph 0
def phFlags : BitVec 32 := field 32 ph 4
def phOff : BitVec 64 := field 64 ph 8
def vaddr : BitVec 64 := field 64 ph 16
def filesz : BitVec 64 := field 64 ph 32
def memsz : BitVec 64 := field 64 ph 40

end Proghdr

def flags2perm (flags : BitVec 32) : BitVec 64 :=
  let perm := if flags &&& 1 ≠ 0 then PTE_X else 0
  if flags &&& 2 ≠ 0 then perm ||| PTE_W else perm

/-! ## Strings -/

/-- For strings that end before `PGSIZE` bytes. -/
def strlen (m : Mem) (s : Addr) : ℕ := (List.range PGSIZE).findIdx fun n => decide (m (off s n) = 0)

/-- `last` after the loop that looks for slashes. -/
def lastElem : List Byte → List Byte → List Byte
  | last, [] => last
  | last, c :: s => lastElem (if c = slash then s else last) s

def safestrcpy (s : ℕ → Byte) (t : List Byte) (n : ℕ) : ℕ → Byte := fun i =>
  if i < min t.length (n - 1) then t.getD i 0
  else if i ≤ min (t.length + 1) (n - 1) then 0
  else s i

/-! ## Loading -/

variable (sym : Symbols) (sb : Superblock)

/-- `readi(ip, 0, dst, off, n)` for a physical address -/
def readInto (ip : Ip) (dst : Addr) (off n : BitVec 32) : X ℤ := do
  let (r, bytes) ← onFs (readi sb ip (fun _ => true) off n)
  setMem fun m => put m dst bytes.length fun i => bytes.getD i 0
  return r

/-- `for (i = 0; i < sz; i += PGSIZE)` -/
def loadsegLoop (pagetable va : Addr) (ip : Ip) (offset sz : BitVec 32) : ℕ → BitVec 32 → X ℤ
  | 0, _ => stop "loadseg: turns"
  | turns + 1, i =>
    if i < sz then do
      let pa ← onMem fun s => (walkaddr pagetable (va + i.setWidth 64) s).map fun pa => (pa, s)
      if pa = 0 then stop "loadseg: address should exist"
      else
        let n := if sz - i < BitVec.ofNat 32 PGSIZE then sz - i else BitVec.ofNat 32 PGSIZE
        let r ← readInto sb ip pa (offset + i) n
        if r ≠ n.toNat then return -1
        else loadsegLoop pagetable va ip offset sz turns (i + BitVec.ofNat 32 PGSIZE)
    else return 0

def loadseg (pagetable va : Addr) (ip : Ip) (offset sz : BitVec 32) : X ℤ :=
  loadsegLoop sb pagetable va ip offset sz (sz.toNat / PGSIZE + 2) 0

/-- The program headers from `off` on; whether all could be loaded, and `sz`. -/
def loadSegments (pagetable : Addr) (ip : Ip) : ℕ → BitVec 32 → BitVec 64 → X (Bool × BitVec 64)
  | 0, _, sz => return (true, sz)
  | k + 1, off, sz => do
    let (r, ph) ← onFs (readi sb ip (fun _ => true) off sizeofProghdr)
    if r ≠ sizeofProghdr.toNat then return (false, sz)
    else if phType ph ≠ ELF_PROG_LOAD then loadSegments pagetable ip k (off + sizeofProghdr) sz
    else if memsz ph < filesz ph then return (false, sz)
    else if vaddr ph + memsz ph < vaddr ph then return (false, sz)
    else if (vaddr ph).toNat % PGSIZE ≠ 0 then return (false, sz)
    else
      let sz1 ← onMem (uvmalloc sym pagetable sz (vaddr ph + memsz ph) (flags2perm (phFlags ph)))
      if sz1 = 0 then return (false, sz)
      else
        let r ← loadseg sb pagetable (vaddr ph) ip ((phOff ph).setWidth 32) ((filesz ph).setWidth 32)
        if r < 0 then return (false, sz1)
        else loadSegments pagetable ip k (off + sizeofProghdr) sz1

/-! ## `exec` -/

def freeImage (pagetable : Addr) (sz : BitVec 64) : X Unit :=
  onMem fun s => (procFreepagetable sym pagetable sz s).map fun s => ((), s)

/-- `if(pagetable) proc_freepagetable(pagetable, sz);` -/
def discard (pagetable : Addr) (sz : BitVec 64) : X Unit := if pagetable ≠ 0 then freeImage sym pagetable sz else pure ()

/-- `iunlockput(ip); end_op();` -/
def closeFile (ip : Ip) : X Unit := do
  onFs (iunlockput sb ip)
  endOp

/-- `bad:`, up to `return -1` -/
def bad (pagetable : Addr) (sz : BitVec 64) (ip : Option Ip) : X Unit := do
  discard sym pagetable sz
  match ip with
  | none => return ()
  | some ip => closeFile sb ip

/-- The argument strings are pushed and their addresses put into `ustack`; `argc` and `sp` at the end. -/
def pushArgs (pagetable ustack stackbase : Addr) : List Addr → ℕ → BitVec 64 → X (Option (ℕ × BitVec 64))
  | [], argc, sp => return some (argc, sp)
  | arg :: argv, argc, sp =>
    if MAXARG ≤ argc then return none
    else do
      let s ← get
      let n := BitVec.ofNat 64 (strlen s.mem.mem arg + 1)
      let sp := sp - n
      -- riscv sp must be 16-byte aligned
      let sp := sp - sp % 16
      if sp < stackbase then return none
      else
        let r ← onMem (copyout pagetable sp arg n)
        if r < 0 then return none
        else
          setMem fun m => store m (off ustack (8 * argc)) sp
          pushArgs pagetable ustack stackbase argv (argc + 1) sp

def pushStack (pagetable ustack stackbase : Addr) (argv : List Addr) (sp : BitVec 64) : X (Option (ℕ × BitVec 64)) := do
  match ← pushArgs pagetable ustack stackbase argv 0 sp with
  | none => return none
  | some (argc, sp) =>
    setMem fun m => store m (off ustack (8 * argc)) (0 : BitVec 64)
    let sp := sp - BitVec.ofNat 64 (8 * (argc + 1))
    let sp := sp - sp % 16
    if sp < stackbase then return none
    else
      let r ← onMem (copyout pagetable sp ustack (BitVec.ofNat 64 (8 * (argc + 1))))
      if r < 0 then return none else return some (argc, sp)

def commit (path : List Byte) (pagetable : Addr) (sz entry sp : BitVec 64) : X Unit := do
  let s ← get
  let p := s.proc
  setMem fun m => store m (off p.trapframe 120) sp
  modify fun s => { s with proc := { p with
    name := safestrcpy p.name (lastElem path path) 16, pagetable := pagetable, sz := sz } }
  setMem fun m => store (store m (off p.trapframe 24) entry) (off p.trapframe 48) sp
  freeImage sym p.pagetable p.sz

/-- Two pages at the next page boundary: the first is made inaccessible, the other is the user stack. The size, if
there is enough memory. -/
def allocStack (pagetable : Addr) (sz : BitVec 64) : X (Option (BitVec 64)) := do
  let sz1 ← onMem (uvmalloc sym pagetable sz (sz + BitVec.ofNat 64 ((USERSTACK + 1) * PGSIZE)) PTE_W)
  if sz1 = 0 then return none
  else
    onMem fun s => (uvmclear pagetable (sz1 - BitVec.ofNat 64 ((USERSTACK + 1) * PGSIZE)) s).map fun s => ((), s)
    return some sz1

/-- `ip` is locked: the program is loaded and gets a stack. The page table, `elf.entry` and `sz`; nothing after `bad`. -/
def loadProgram (ip : Ip) (trapframe : Addr) : X (Option (Addr × BitVec 64 × BitVec 64)) := do
  let (r, elf) ← onFs (readi sb ip (fun _ => true) 0 sizeofElfhdr)
  if r ≠ sizeofElfhdr.toNat then
    bad sym sb 0 0 (some ip)
    return none
  else if magic elf ≠ ELF_MAGIC then
    bad sym sb 0 0 (some ip)
    return none
  else
    let pagetable ← onMem (procPagetable sym trapframe)
    if pagetable = 0 then
      bad sym sb 0 0 (some ip)
      return none
    else
      let (ok, sz) ← loadSegments sym sb pagetable ip (phnum elf).toNat ((phoff elf).setWidth 32) 0
      if ok then
        closeFile sb ip
        let sz := PGROUNDUP sz
        match ← allocStack sym pagetable sz with
        | none =>
          bad sym sb pagetable sz none
          return none
        | some sz => return some (pagetable, entry elf, sz)
      else
        bad sym sb pagetable sz (some ip)
        return none

/-- `exec` until the stack is there. -/
def prepare (path : List Byte) : X (Option (Addr × BitVec 64 × BitVec 64)) := do
  beginOp
  let s ← get
  match ← onFs (namei sb path s.proc.cwd) with
  | none =>
    endOp
    return none
  | some ip =>
    onFs (ilock sb ip)
    loadProgram sym sb ip s.proc.trapframe

/-- The program is loaded and has a stack, up to `sz`. -/
def launch (path : List Byte) (argv : List Addr) (ustack : Addr) (pagetable : Addr) (entry sz : BitVec 64) : X ℤ := do
  match ← pushStack pagetable ustack (sz - BitVec.ofNat 64 (USERSTACK * PGSIZE)) argv sz with
  | none =>
    bad sym sb pagetable sz none
    return -1
  | some (argc, sp) =>
    commit sym path pagetable sz entry sp
    return argc

/-- `argv` up to its null pointer; `ustack` is on the kernel stack. -/
def exec (path : List Byte) (argv : List Addr) (ustack : Addr) : X ℤ := do
  match ← prepare sym sb path with
  | none => return -1
  | some (pagetable, entry, sz) => launch sym sb path argv ustack pagetable entry sz

end Xv6Boot.Kernel.Exec
