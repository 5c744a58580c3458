import Xv6Boot.Kernel.FsCalls
import Xv6Boot.Kernel.Log
import Xv6Boot.Kernel.Proc

/-! # `file.c` and `sysfile.c`: open files

One system call at a time. A page of memory is a number; what pipes and devices carry, and the copies to user memory,
are left out: a call says how they end. `opened` and `closed` list what each file was opened on and what was let go
when its count reached zero.
-/

namespace Xv6Boot.Kernel.SysFile
open Function Program Transition Fs
open ProcTable (NPROC ProcState)

def NOFILE : ℕ := 16
def NFILE : ℕ := 100
def MAXPATH : ℕ := 128

abbrev Pid := Fin NPROC
abbrev Fd := Fin NOFILE
abbrev Fp := Fin NFILE

instance : NeZero NPROC := ⟨by decide⟩
instance : NeZero NFILE := ⟨by decide⟩

inductive FdType where
  | FD_NONE
  | FD_PIPE
  | FD_INODE
  | FD_DEVICE
  deriving DecidableEq

structure File where
  type : FdType
  ref : ℤ
  readable : Bool
  writable : Bool
  pipe : ℕ
  ip : Ip
  off : BitVec 32
  major : BitVec 16

structure Pipe where
  readopen : Bool
  writeopen : Bool

structure Proc where
  /-- `used` stands for every state of a process that exists. -/
  state : ProcState
  cwd : Ip
  ofile : Fd → Option Fp

/-- What a file is open on. -/
inductive Obj where
  | inode (ip : Ip)
  | pipe (page : ℕ) (writable : Bool)
  deriving DecidableEq

structure Sys where
  fs : State
  file : Fp → File
  /-- the pipes, by their pages -/
  pipe : ℕ → Option Pipe
  /-- `kmem.freelist` -/
  freelist : List ℕ
  proc : Pid → Proc
  opened : Fp → List Obj
  closed : Fp → List Obj

variable {α : Type}

/-- A function of `fs.c` -/
def onFs (m : M α) : Prog Sys α := fun s =>
  match m s.fs with
  | .ok (a, fs) => .ok (a, { s with fs := fs })
  | .error e => .error e

def setFile (f : Fp) (g : File → File) : Prog Sys Unit :=
  modify fun s => { s with file := update s.file f (g (s.file f)) }

def setProc (p : Pid) (g : Proc → Proc) : Prog Sys Unit :=
  modify fun s => { s with proc := update s.proc p (g (s.proc p)) }

def setOfile (p : Pid) (fd : Fd) (f : Option Fp) : Prog Sys Unit :=
  setProc p fun q => { q with ofile := update q.ofile fd f }

def noteOpened (f : Fp) (o : Obj) : Prog Sys Unit :=
  modify fun s => { s with opened := update s.opened f (s.opened f ++ [o]) }

def noteClosed (f : Fp) (o : Obj) : Prog Sys Unit :=
  modify fun s => { s with closed := update s.closed f (s.closed f ++ [o]) }

/-! ## Memory -/

def kalloc : Prog Sys (Option ℕ) := do
  let s ← get
  match s.freelist with
  | [] => return none
  | page :: rest =>
    set { s with freelist := rest }
    return some page

def kfree (page : ℕ) : Prog Sys Unit :=
  modify fun s => { s with freelist := page :: s.freelist, pipe := update s.pipe page none }

/-! ## `file.c` -/

variable (sb : Superblock)

def filealloc : Prog Sys (Option Fp) := do
  let s ← get
  match (List.finRange NFILE).find? fun f => decide ((s.file f).ref = 0) with
  | some f =>
    setFile f fun g => { g with ref := 1 }
    return some f
  | none => return none

def filedup (f : Fp) : Prog Sys Unit := do
  let s ← get
  if (s.file f).ref < 1 then stop "filedup"
  else setFile f fun g => { g with ref := g.ref + 1 }

def pipeclose (page : ℕ) (writable : Bool) : Prog Sys Unit := do
  let s ← get
  match s.pipe page with
  | none => return
  | some pi =>
    let pi' : Pipe := if writable then { pi with writeopen := false } else { pi with readopen := false }
    if pi'.readopen = false ∧ pi'.writeopen = false then kfree page
    else modify fun s => { s with pipe := update s.pipe page (some pi') }

/-- What `fileclose` does with the copy `ff` of a file whose count has reached zero. -/
def releaseFile (f : Fp) (ff : File) : Prog Sys Unit :=
  match ff.type with
  | .FD_PIPE => do
    noteClosed f (.pipe ff.pipe ff.writable)
    pipeclose ff.pipe ff.writable
  | .FD_INODE => do
    noteClosed f (.inode ff.ip)
    onFs (iput sb ff.ip)
  | .FD_DEVICE => do
    noteClosed f (.inode ff.ip)
    onFs (iput sb ff.ip)
  | .FD_NONE => return

def fileclose (f : Fp) : Prog Sys Unit := do
  let s ← get
  if (s.file f).ref < 1 then stop "fileclose"
  else if 0 < (s.file f).ref - 1 then setFile f fun g => { g with ref := g.ref - 1 }
  else
    setFile f fun g => { g with ref := 0, type := .FD_NONE }
    releaseFile sb f (s.file f)

/-- `out` says whether `copyout` succeeds. -/
def filestat (f : Fp) (out : Bool) : Prog Sys ℤ := do
  let s ← get
  let g := s.file f
  if g.type = .FD_INODE ∨ g.type = .FD_DEVICE then
    onFs (ilock sb g.ip)
    onFs (iunlock g.ip)
    if out then return 0 else return -1
  else return -1

/-- `io` is what the pipe or the device returns. -/
def fileread (f : Fp) (dst : ℕ → Bool) (n : BitVec 32) (io : ℤ) : Prog Sys ℤ := do
  let s ← get
  let g := s.file f
  if g.readable = false then return -1
  else
    match g.type with
    | .FD_PIPE => return io
    | .FD_DEVICE => if g.major.toInt < 0 ∨ (NDEV : ℤ) ≤ g.major.toInt then return -1 else return io
    | .FD_INODE => do
      onFs (ilock sb g.ip)
      let r ← onFs (readi sb g.ip dst g.off n)
      setFile f fun g => if 0 < r.1 then { g with off := g.off + BitVec.ofInt 32 r.1 } else g
      onFs (iunlock g.ip)
      return r.1
    | .FD_NONE => stop "fileread"

def writeMax : ℕ := (Log.MAXOPBLOCKS - 1 - 1 - 2) / 2 * BSIZE

/-- The loop of `filewrite`; each turn writes `n1` bytes. -/
def filewriteLoop (f : Fp) (src : ℕ → Option Byte) (n : ℤ) : ℕ → ℕ → Prog Sys ℤ
  | 0, i => return if (i : ℤ) = n then n else -1
  | fuel + 1, i =>
    if (i : ℤ) < n then do
      let n1 : ℕ := min (n.toNat - i) writeMax
      let s ← get
      let g := s.file f
      onFs (ilock sb g.ip)
      let r ← onFs (writei sb g.ip (fun k => src (i + k)) g.off (BitVec.ofNat 32 n1))
      setFile f fun g => if 0 < r then { g with off := g.off + BitVec.ofInt 32 r } else g
      onFs (iunlock g.ip)
      if r ≠ n1 then return -1
      else filewriteLoop f src n fuel (i + n1)
    else return if (i : ℤ) = n then n else -1

def filewrite (f : Fp) (src : ℕ → Option Byte) (n : BitVec 32) (io : ℤ) : Prog Sys ℤ := do
  let s ← get
  let g := s.file f
  if g.writable = false then return -1
  else
    match g.type with
    | .FD_PIPE => return io
    | .FD_DEVICE => if g.major.toInt < 0 ∨ (NDEV : ℤ) ≤ g.major.toInt then return -1 else return io
    | .FD_INODE => filewriteLoop sb f src n.toInt n.toInt.toNat 0
    | .FD_NONE => stop "filewrite"

/-! ## `pipe.c` -/

def bindPipe (f0 f1 : Fp) (page : ℕ) : Prog Sys Unit := do
  modify fun s => { s with pipe := update s.pipe page (some ⟨true, true⟩) }
  setFile f0 fun g => { g with type := .FD_PIPE, readable := true, writable := false, pipe := page }
  noteOpened f0 (.pipe page false)
  setFile f1 fun g => { g with type := .FD_PIPE, readable := false, writable := true, pipe := page }
  noteOpened f1 (.pipe page true)

def pipealloc : Prog Sys (Option (Fp × Fp)) := do
  match ← filealloc with
  | none => return none
  | some f0 =>
    match ← filealloc with
    | none =>
      fileclose sb f0
      return none
    | some f1 =>
      match ← kalloc with
      | none =>
        fileclose sb f0
        fileclose sb f1
        return none
      | some page =>
        bindPipe f0 f1 page
        return some (f0, f1)

/-! ## `sysfile.c` -/

/-- A string argument: `none` if it cannot be read. -/
def argstr (a : Option (List Byte)) : Option (List Byte) := a.filter fun path => path.length < MAXPATH ∧ 0 ∉ path

def argfd (s : Sys) (p : Pid) (fd : ℤ) : Option (Fd × Fp) :=
  if h : 0 ≤ fd ∧ fd.toNat < NOFILE then ((s.proc p).ofile ⟨fd.toNat, h.2⟩).map fun f => (⟨fd.toNat, h.2⟩, f) else none

def fdalloc (p : Pid) (f : Fp) : Prog Sys (Option Fd) := do
  let s ← get
  match (List.finRange NOFILE).find? fun fd => decide ((s.proc p).ofile fd = none) with
  | some fd =>
    setOfile p fd (some f)
    return some fd
  | none => return none

def sysDup (p : Pid) (fd : ℤ) : Prog Sys ℤ := do
  let s ← get
  match argfd s p fd with
  | none => return -1
  | some (_, f) =>
    match ← fdalloc p f with
    | none => return -1
    | some fd' =>
      filedup f
      return (fd' : ℕ)

def sysRead (p : Pid) (fd : ℤ) (dst : ℕ → Bool) (n : BitVec 32) (io : ℤ) : Prog Sys ℤ := do
  let s ← get
  match argfd s p fd with
  | none => return -1
  | some (_, f) => fileread sb f dst n io

def sysWrite (p : Pid) (fd : ℤ) (src : ℕ → Option Byte) (n : BitVec 32) (io : ℤ) : Prog Sys ℤ := do
  let s ← get
  match argfd s p fd with
  | none => return -1
  | some (_, f) => filewrite sb f src n io

def sysClose (p : Pid) (fd : ℤ) : Prog Sys ℤ := do
  let s ← get
  match argfd s p fd with
  | none => return -1
  | some (fd', f) =>
    setOfile p fd' none
    fileclose sb f
    return 0

def sysFstat (p : Pid) (fd : ℤ) (out : Bool) : Prog Sys ℤ := do
  let s ← get
  match argfd s p fd with
  | none => return -1
  | some (_, f) => filestat sb f out

/-- The fields of a file that is open on `ip`. -/
def File.bindTo (g : File) (x : Dinode) (ip : Ip) (omode : BitVec 32) : File :=
  { g with
    type := if x.type = T_DEVICE then .FD_DEVICE else .FD_INODE
    major := if x.type = T_DEVICE then x.major else g.major
    off := if x.type = T_DEVICE then g.off else 0
    ip := ip
    readable := decide (omode &&& O_WRONLY = 0)
    writable := decide (omode &&& O_WRONLY ≠ 0) || decide (omode &&& O_RDWR ≠ 0) }

def bindInode (f : Fp) (ip : Ip) (omode : BitVec 32) : Prog Sys Unit := do
  let s ← get
  setFile f fun g => g.bindTo (s.fs.inode ip).d ip omode
  noteOpened f (.inode ip)

def truncOpened (ip : Ip) (omode : BitVec 32) : M Unit := do
  let s ← get
  if omode &&& O_TRUNC ≠ 0 ∧ (s.inode ip).d.type = T_FILE then itrunc sb ip else return

def sysOpen (p : Pid) (path : Option (List Byte)) (omode : BitVec 32) : Prog Sys ℤ := do
  match argstr path with
  | none => return -1
  | some path =>
    let s ← get
    match ← onFs (openInode sb path omode (s.proc p).cwd) with
    | none => return -1
    | some ip =>
      match ← filealloc with
      | none =>
        onFs (iunlockput sb ip)
        return -1
      | some f =>
        match ← fdalloc p f with
        | none =>
          fileclose sb f
          onFs (iunlockput sb ip)
          return -1
        | some fd =>
          bindInode f ip omode
          onFs (truncOpened sb ip omode)
          onFs (iunlock ip)
          return (fd : ℕ)

def sysLink (p : Pid) (old new : Option (List Byte)) : Prog Sys ℤ := do
  match argstr old, argstr new with
  | some old, some new =>
    let s ← get
    onFs (link sb old new (s.proc p).cwd)
  | _, _ => return -1

def sysUnlink (p : Pid) (path : Option (List Byte)) : Prog Sys ℤ := do
  match argstr path with
  | none => return -1
  | some path =>
    let s ← get
    onFs (unlink sb path (s.proc p).cwd)

def sysMkdir (p : Pid) (path : Option (List Byte)) : Prog Sys ℤ := do
  match argstr path with
  | none => return -1
  | some path =>
    let s ← get
    onFs (mkdir sb path (s.proc p).cwd)

def sysMknod (p : Pid) (path : Option (List Byte)) (major minor : BitVec 32) : Prog Sys ℤ := do
  match argstr path with
  | none => return -1
  | some path =>
    let s ← get
    onFs (mknod sb path (major.setWidth 16) (minor.setWidth 16) (s.proc p).cwd)

def sysChdir (p : Pid) (path : Option (List Byte)) : Prog Sys ℤ := do
  match argstr path with
  | none => return -1
  | some path =>
    let s ← get
    match ← onFs (chdirInode sb path (s.proc p).cwd) with
    | none => return -1
    | some ip =>
      onFs (iput sb (s.proc p).cwd)
      setProc p fun q => { q with cwd := ip }
      return 0

/-- What `exec` does to the file system: it reads the file at `path`. -/
def execRead (path : List Byte) (reads : List (BitVec 32 × BitVec 32)) (cwd : Ip) : M ℤ := do
  match ← namei sb path cwd with
  | none => return -1
  | some ip =>
    ilock sb ip
    reads.forM fun r => do
      let _ ← readi sb ip (fun _ => true) r.1 r.2
    iunlockput sb ip
    return 0

def sysExec (p : Pid) (path : Option (List Byte)) (reads : List (BitVec 32 × BitVec 32)) : Prog Sys ℤ := do
  match argstr path with
  | none => return -1
  | some path =>
    let s ← get
    onFs (execRead sb path reads (s.proc p).cwd)

def pipeBad (p : Pid) (fds : List Fd) (rf wf : Fp) : Prog Sys ℤ := do
  fds.forM fun fd => setOfile p fd none
  fileclose sb rf
  fileclose sb wf
  return -1

/-- `out` says whether the two calls of `copyout` succeed. -/
def sysPipe (p : Pid) (out : Bool) : Prog Sys ℤ := do
  match ← pipealloc sb with
  | none => return -1
  | some (rf, wf) =>
    match ← fdalloc p rf with
    | none => pipeBad sb p [] rf wf
    | some fd0 =>
      match ← fdalloc p wf with
      | none => pipeBad sb p [fd0] rf wf
      | some fd1 => if out then return 0 else pipeBad sb p [fd0, fd1] rf wf

/-! ## `proc.c` -/

def dupFd (p np : Pid) (fd : Fd) : Prog Sys Unit := do
  let s ← get
  match (s.proc p).ofile fd with
  | none => return
  | some f =>
    filedup f
    setOfile np fd (some f)

/-- `mem` says whether there is memory for the process and its pages. -/
def fork (p : Pid) (mem : Bool) : Prog Sys ℤ := do
  let s ← get
  match (List.finRange NPROC).find? fun q => decide ((s.proc q).state = .unused) with
  | none => return -1
  | some np =>
    if mem then
      (List.finRange NOFILE).forM (dupFd p np)
      let s ← get
      let ip ← onFs (idup (s.proc p).cwd)
      setProc np fun q => { q with cwd := ip, state := .used }
      return (np : ℕ)
    else return -1

def closeFd (p : Pid) (fd : Fd) : Prog Sys Unit := do
  let s ← get
  match (s.proc p).ofile fd with
  | none => return
  | some f =>
    fileclose sb f
    setOfile p fd none

def exit (initproc p : Pid) : Prog Sys ℤ := do
  if p = initproc then stop "init exiting"
  else
    (List.finRange NOFILE).forM (closeFd sb p)
    let s ← get
    onFs (iput sb (s.proc p).cwd)
    setProc p fun q => { q with state := .zombie }
    return 0

def wait (child : Pid) : Prog Sys ℤ := do
  let s ← get
  if (s.proc child).state = .zombie then
    setProc child fun q => { q with state := .unused }
    return (child : ℕ)
  else return -1

/-! ## Runs -/

inductive Call where
  | open_ (path : Option (List Byte)) (omode : BitVec 32)
  | close (fd : ℤ)
  | dup (fd : ℤ)
  | pipe (out : Bool)
  | read (fd : ℤ) (dst : ℕ → Bool) (n : BitVec 32) (io : ℤ)
  | write (fd : ℤ) (src : ℕ → Option Byte) (n : BitVec 32) (io : ℤ)
  | fstat (fd : ℤ) (out : Bool)
  | link (old new : Option (List Byte))
  | unlink (path : Option (List Byte))
  | mkdir (path : Option (List Byte))
  | mknod (path : Option (List Byte)) (major minor : BitVec 32)
  | chdir (path : Option (List Byte))
  | exec (path : Option (List Byte)) (reads : List (BitVec 32 × BitVec 32))
  | fork (mem : Bool)
  | exit
  | wait (child : Pid)

/-- A call of a process, or other parts of the kernel take and return pages. -/
inductive Event where
  | call (p : Pid) (c : Call)
  | pages (l : List ℕ)

def run (initproc p : Pid) : Call → Prog Sys ℤ
  | .open_ path omode => sysOpen sb p path omode
  | .close fd => sysClose sb p fd
  | .dup fd => sysDup p fd
  | .pipe out => sysPipe sb p out
  | .read fd dst n io => sysRead sb p fd dst n io
  | .write fd src n io => sysWrite sb p fd src n io
  | .fstat fd out => sysFstat sb p fd out
  | .link old new => sysLink sb p old new
  | .unlink path => sysUnlink sb p path
  | .mkdir path => sysMkdir sb p path
  | .mknod path major minor => sysMknod sb p path major minor
  | .chdir path => sysChdir sb p path
  | .exec path reads => sysExec sb p path reads
  | .fork mem => fork p mem
  | .exit => exit sb initproc p
  | .wait child => wait child

def step (initproc : Pid) (s : Sys) : Event → Outcome Sys
  | .call p c =>
    if (s.proc p).state = .used then
      match run sb initproc p c s with
      | .ok (_, s') => .next s'
      | .error msg => .panic msg
    else .disabled
  | .pages l => if l.Nodup ∧ ∀ page ∈ l, (s.pipe page).isNone then .next { s with freelist := l } else .disabled

end Xv6Boot.Kernel.SysFile
