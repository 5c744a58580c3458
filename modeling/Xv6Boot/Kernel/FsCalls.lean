import Xv6Boot.Kernel.FsDir

/-! # `sysfile.c`: the part of the system calls that works on the file system

`cwd` is the current directory of the process that calls. Both ends of a link are on the one device.
-/

namespace Xv6Boot.Kernel.Fs
open Program

def O_RDONLY : BitVec 32 := 0x000
def O_WRONLY : BitVec 32 := 0x001
def O_RDWR : BitVec 32 := 0x002
def O_CREATE : BitVec 32 := 0x200
def O_TRUNC : BitVec 32 := 0x400
def NDEV : ℕ := 10

/-- An entry after `memset(&de, 0, sizeof(de))` -/
def Dirent.zero : Dirent := ⟨0, fun _ => 0⟩

variable (sb : Superblock)

/-- `ip->nlink = f(ip->nlink); iupdate(ip)` -/
def setNlink (ip : Ip) (f : BitVec 16 → BitVec 16) : M Unit := do
  setCopy ip fun x => { x with nlink := f x.nlink }
  iupdate sb ip

/-! ## `sys_link` -/

/-- `bad:` -/
def linkBad (ip : Ip) : M ℤ := do
  ilock sb ip
  setNlink sb ip (· - 1)
  iunlockput sb ip
  return -1

def link (old new : List Byte) (cwd : Ip) : M ℤ := do
  match ← namei sb old cwd with
  | none => return -1
  | some ip =>
    ilock sb ip
    let s ← get
    if (s.inode ip).d.type = T_DIR then
      iunlockput sb ip
      return -1
    else
      setNlink sb ip (· + 1)
      iunlock ip
      match ← nameiparent sb new cwd with
      | none => linkBad sb ip
      | some (dp, name) =>
        ilock sb dp
        let s ← get
        let r ← dirlink sb dp name (s.inode ip).inum
        if r < 0 then
          iunlockput sb dp
          linkBad sb ip
        else
          iunlockput sb dp
          iput sb ip
          return 0

/-! ## `sys_unlink` -/

def isdiremptyLoop (dp : Ip) : ℕ → ℕ → M Bool
  | 0, _ => return true
  | fuel + 1, off => do
    let s ← get
    if off < (s.inode dp).d.size.toNat then
      let de ← readDirent sb dp off "isdirempty: readi"
      if de.inum ≠ 0 then return false
      else isdiremptyLoop dp fuel (off + direntSize)
    else return true

def isdirempty (dp : Ip) : M Bool := do
  let s ← get
  isdiremptyLoop sb dp (direntTurns s dp) (2 * direntSize)

/-- `bad:` -/
def unlinkBad (dp : Ip) : M ℤ := do
  iunlockput sb dp
  return -1

/-- `ip->type == T_DIR && !isdirempty(ip)` -/
def busyDir (ip : Ip) : M Bool := do
  let s ← get
  if (s.inode ip).d.type = T_DIR then
    let empty ← isdirempty sb ip
    return !empty
  else return false

def dropParentLink (dp ip : Ip) : M Unit := do
  let s ← get
  if (s.inode ip).d.type = T_DIR then setNlink sb dp (· - 1) else return

/-- From `memset(&de, ...)` on. -/
def removeEntry (dp ip : Ip) (off : ℕ) : M ℤ := do
  let r ← writei sb dp (fun i => some (Dirent.zero.byte i)) (BitVec.ofNat 32 off) (BitVec.ofNat 32 direntSize)
  if r ≠ direntSize then stop "unlink: writei"
  else
    dropParentLink sb dp ip
    iunlockput sb dp
    setNlink sb ip (· - 1)
    iunlockput sb ip
    return 0

def unlink (path : List Byte) (cwd : Ip) : M ℤ := do
  match ← nameiparent sb path cwd with
  | none => return -1
  | some (dp, name) =>
    ilock sb dp
    -- Cannot unlink "." or "..".
    if namecmp name dot = 0 ∨ namecmp name dotdot = 0 then unlinkBad sb dp
    else
      match ← dirlookup sb dp name with
      | none => unlinkBad sb dp
      | some (ip, off) =>
        ilock sb ip
        let s ← get
        if (s.inode ip).d.nlink.toInt < 1 then stop "unlink: nlink < 1"
        else
          let busy ← busyDir sb ip
          if busy then
            iunlockput sb ip
            unlinkBad sb dp
          else removeEntry sb dp ip off

/-! ## `create` -/

/-- The entries of a new inode: `.` and `..` of a directory, and its name in `dp`. -/
def dirlinks (dp ip : Ip) (name : Name) (type : BitVec 16) : M Bool := do
  let s ← get
  if type = T_DIR then
    let r ← dirlink sb ip dot (s.inode ip).inum
    if r < 0 then return false
    else
      let r ← dirlink sb ip dotdot (s.inode dp).inum
      if r < 0 then return false
      else
        let r ← dirlink sb dp name (s.inode ip).inum
        return decide (0 ≤ r)
  else
    let r ← dirlink sb dp name (s.inode ip).inum
    return decide (0 ≤ r)

def initInode (ip : Ip) (major minor : BitVec 16) : M Unit := do
  setCopy ip fun x => { x with major := major, minor := minor, nlink := 1 }
  iupdate sb ip

def addParentLink (dp : Ip) (type : BitVec 16) : M Unit :=
  if type = T_DIR then setNlink sb dp (· + 1) else return

/-- `ialloc` and what follows. -/
def createNew (dp : Ip) (name : Name) (type major minor : BitVec 16) : M (Option Ip) := do
  match ← ialloc sb type with
  | none =>
    iunlockput sb dp
    return none
  | some ip =>
    ilock sb ip
    initInode sb ip major minor
    let ok ← dirlinks sb dp ip name type
    if ok then
      addParentLink sb dp type
      iunlockput sb dp
      return some ip
    else
      -- something went wrong. de-allocate ip.
      setNlink sb ip fun _ => 0
      iunlockput sb ip
      iunlockput sb dp
      return none

def create (path : List Byte) (type major minor : BitVec 16) (cwd : Ip) : M (Option Ip) := do
  match ← nameiparent sb path cwd with
  | none => return none
  | some (dp, name) =>
    ilock sb dp
    match ← dirlookup sb dp name with
    | some (ip, _) =>
      iunlockput sb dp
      ilock sb ip
      let s ← get
      if type = T_FILE ∧ ((s.inode ip).d.type = T_FILE ∨ (s.inode ip).d.type = T_DEVICE) then return some ip
      else
        iunlockput sb ip
        return none
    | none => createNew sb dp name type major minor

def createOnly (path : List Byte) (type major minor : BitVec 16) (cwd : Ip) : M ℤ := do
  match ← create sb path type major minor cwd with
  | none => return -1
  | some ip =>
    iunlockput sb ip
    return 0

def mkdir (path : List Byte) (cwd : Ip) : M ℤ := createOnly sb path T_DIR 0 0 cwd

def mknod (path : List Byte) (major minor : BitVec 16) (cwd : Ip) : M ℤ := createOnly sb path T_DEVICE major minor cwd

/-! ## `sys_open` and `sys_chdir` -/

def openPath (path : List Byte) (omode : BitVec 32) (cwd : Ip) : M (Option Ip) :=
  if omode &&& O_CREATE ≠ 0 then create sb path T_FILE 0 0 cwd
  else do
    match ← namei sb path cwd with
    | none => return none
    | some ip =>
      ilock sb ip
      let s ← get
      if (s.inode ip).d.type = T_DIR ∧ omode ≠ O_RDONLY then
        iunlockput sb ip
        return none
      else return some ip

def openInode (path : List Byte) (omode : BitVec 32) (cwd : Ip) : M (Option Ip) := do
  match ← openPath sb path omode cwd with
  | none => return none
  | some ip =>
    let s ← get
    let major := (s.inode ip).d.major.toInt
    if (s.inode ip).d.type = T_DEVICE ∧ (major < 0 ∨ (NDEV : ℤ) ≤ major) then
      iunlockput sb ip
      return none
    else return some ip

def chdirInode (path : List Byte) (cwd : Ip) : M (Option Ip) := do
  match ← namei sb path cwd with
  | none => return none
  | some ip =>
    ilock sb ip
    let s ← get
    if (s.inode ip).d.type ≠ T_DIR then
      iunlockput sb ip
      return none
    else
      iunlock ip
      return some ip

end Xv6Boot.Kernel.Fs
