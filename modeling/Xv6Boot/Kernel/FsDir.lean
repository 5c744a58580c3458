import Xv6Boot.Kernel.FsInode

/-! # `fs.c`: directories and paths

A path is a list of bytes. A name is the array it is copied into; what stands behind a `0` in it is never read.
-/

namespace Xv6Boot.Kernel.Fs
open Program

def DIRSIZ : ℕ := 14
def direntSize : ℕ := 16

def T_DIR : BitVec 16 := 1
def T_FILE : BitVec 16 := 2
def T_DEVICE : BitVec 16 := 3

abbrev Name := ℕ → Byte

structure Dirent where
  inum : BitVec 16
  name : Name

def Dirent.byte (de : Dirent) (i : ℕ) : Byte := if i < 2 then byteOf de.inum i else de.name (i - 2)

def Dirent.ofBytes (f : ℕ → Byte) : Dirent := ⟨le16 f, fun i => f (2 + i)⟩

/-! ## `string.c` -/

def strncmp (p q : Name) : ℕ → ℤ
  | 0 => 0
  | n + 1 =>
    if p 0 ≠ 0 ∧ p 0 = q 0 then strncmp (fun i => p (i + 1)) (fun i => q (i + 1)) n
    else ((p 0).toNat : ℤ) - (q 0).toNat

def strncpy (t : Name) : Name := fun i => if (List.range i).all (fun j => t j ≠ 0) then t i else 0

def namecmp (s t : Name) : ℤ := strncmp s t DIRSIZ

/-- A string in the kernel, such as `"."`. -/
def literal (l : List Byte) : Name := fun i => l.getD i 0

def dot : Name := literal [46]
def dotdot : Name := literal [46, 46]

variable (sb : Superblock)

/-! ## Directories -/

/-- `readi(dp, 0, (uint64)&de, off, sizeof(de))`, which must not fall short. -/
def readDirent (dp : Ip) (off : ℕ) (msg : String) : M Dirent := do
  let (r, bytes) ← readi sb dp (fun _ => true) (BitVec.ofNat 32 off) (BitVec.ofNat 32 direntSize)
  if r ≠ direntSize then stop msg
  else return Dirent.ofBytes fun i => bytes.getD i 0

def dirlookupLoop (dp : Ip) (name : Name) : ℕ → ℕ → M (Option (Ip × ℕ))
  | 0, _ => return none
  | fuel + 1, off => do
    let s ← get
    if off < (s.inode dp).d.size.toNat then
      let de ← readDirent sb dp off "dirlookup read"
      if de.inum = 0 then dirlookupLoop dp name fuel (off + direntSize)
      else if namecmp name de.name = 0 then
        let ip ← iget de.inum.toNat
        return some (ip, off)
      else dirlookupLoop dp name fuel (off + direntSize)
    else return none

def direntTurns (s : State) (dp : Ip) : ℕ := (s.inode dp).d.size.toNat / direntSize + 1

/-- The inode and `*poff`. -/
def dirlookup (dp : Ip) (name : Name) : M (Option (Ip × ℕ)) := do
  let s ← get
  if (s.inode dp).d.type ≠ T_DIR then stop "dirlookup not DIR"
  else dirlookupLoop sb dp name (direntTurns s dp) 0

def emptyLoop (dp : Ip) : ℕ → ℕ → M ℕ
  | 0, off => return off
  | fuel + 1, off => do
    let s ← get
    if off < (s.inode dp).d.size.toNat then
      let de ← readDirent sb dp off "dirlink read"
      if de.inum = 0 then return off
      else emptyLoop dp fuel (off + direntSize)
    else return off

def dirlink (dp : Ip) (name : Name) (inum : ℕ) : M ℤ := do
  match ← dirlookup sb dp name with
  | some (ip, _) =>
    iput sb ip
    return -1
  | none =>
    let s ← get
    let off ← emptyLoop sb dp (direntTurns s dp) 0
    let de : Dirent := ⟨BitVec.ofNat 16 inum, strncpy name⟩
    let r ← writei sb dp (fun i => some (de.byte i)) (BitVec.ofNat 32 off) (BitVec.ofNat 32 direntSize)
    if r ≠ direntSize then return -1 else return 0

/-! ## Paths -/

def slash : Byte := 47

def skipelem (path : List Byte) : Option (List Byte × Name) :=
  match path.dropWhile (· = slash) with
  | [] => none
  | c :: p =>
    let elem := (c :: p).takeWhile (· ≠ slash)
    some (((c :: p).dropWhile (· ≠ slash)).dropWhile (· = slash), literal (elem.take DIRSIZ))

def namexLoop (nameiparent : Bool) : ℕ → List Byte → Ip → Name → M (Option (Ip × Name))
  | 0, _, _, _ => return none
  | fuel + 1, path, ip, name =>
    match skipelem path with
    | none =>
      if nameiparent then do
        iput sb ip
        return none
      else return some (ip, name)
    | some (rest, elem) => do
      ilock sb ip
      let s ← get
      if (s.inode ip).d.type ≠ T_DIR then
        iunlockput sb ip
        return none
      else if nameiparent = true ∧ rest = [] then
        iunlock ip
        return some (ip, elem)
      else
        match ← dirlookup sb ip elem with
        | none =>
          iunlockput sb ip
          return none
        | some (next, _) =>
          iunlockput sb ip
          namexLoop nameiparent fuel rest next elem

def namex (path : List Byte) (nameiparent : Bool) (cwd : Ip) : M (Option (Ip × Name)) := do
  let ip ← if path.head? = some slash then iget ROOTINO else idup cwd
  namexLoop sb nameiparent (path.length + 1) path ip (literal [])

def namei (path : List Byte) (cwd : Ip) : M (Option Ip) := do
  let r ← namex sb path false cwd
  return r.map Prod.fst

def nameiparent (path : List Byte) (cwd : Ip) : M (Option (Ip × Name)) := namex sb path true cwd

end Xv6Boot.Kernel.Fs
