import Xv6Boot.Kernel.SysFile

/-! # The panics of the file system

Whatever state the disk and the inodes are in, a function of `fs.c`, or the part of a system call that works on the
file system, stops with one of these messages if it stops.
-/

namespace Xv6Boot.Kernel.Fs
open Program

def panics : List String :=
  ["freeing free block", "iget: no inodes", "ilock", "ilock: no type", "iunlock", "bmap: out of range",
    "dirlookup not DIR", "dirlookup read", "dirlink read", "isdirempty: readi", "unlink: nlink < 1", "unlink: writei"]

abbrev Panics {α : Type} (m : M α) : Prop := Stops m (· ∈ panics)

variable {α : Type} {sb : Superblock} {ip dp cwd : Ip} {name : Name} {path : List Byte} {fuel : ℕ}

/-! ## Blocks -/

instance {b : ℕ} : Panics (bread b) := .bind fun _ => inferInstance

instance {b : ℕ} {d : Data} : Panics (setData b d) := inferInstanceAs (Panics (modify _))

instance {b : ℕ} : Panics (logWrite b) := inferInstanceAs (Panics (modify _))

instance {b : ℕ} : Panics (bzero b) := .bind fun _ => inferInstance

instance {f : Inode → Inode} : Panics (setInode ip f) := inferInstanceAs (Panics (modify _))

instance {f : Dinode → Dinode} : Panics (setCopy ip f) := inferInstanceAs (Panics (modify _))

instance : Panics (balloc sb) := by
  refine .bind fun s => ?_
  split <;> infer_instance

instance : Panics (stop "freeing free block" : M α) := .stop (by decide)

instance {b : BitVec 32} : Panics (bfree sb b) := .bind fun _ => inferInstance

/-! ## Inodes -/

instance : Panics (stop "iget: no inodes" : M α) := .stop (by decide)

instance {inum : ℕ} : Panics (iget inum) := by
  refine .bind fun s => ?_
  split
  · infer_instance
  · split <;> infer_instance

instance {type : BitVec 16} : Panics (ialloc sb type) := by
  refine .bind fun s => ?_
  split <;> infer_instance

instance : Panics (iupdate sb ip) := .bind fun _ => inferInstance

instance : Panics (idup ip) := .bind fun _ => inferInstance

instance : Panics (stop "ilock" : M α) := .stop (by decide)

instance : Panics (stop "ilock: no type" : M α) := .stop (by decide)

instance : Panics (ilock sb ip) := .bind fun _ => inferInstance

instance : Panics (stop "iunlock" : M α) := .stop (by decide)

instance : Panics (iunlock ip) := .bind fun _ => inferInstance

/-! ## Inode content -/

instance {addr : BitVec 32} {put : BitVec 32 → M Unit} [∀ a, Panics (put a)] : Panics (orAlloc sb addr put) := by
  unfold orAlloc
  infer_instance

instance : Panics (stop "bmap: out of range" : M α) := .stop (by decide)

instance {bn : ℕ} : Panics (bmap sb ip bn) := by
  refine .bind fun s => ?_
  split <;> infer_instance

instance {i : Fin (NDIRECT + 1)} : Panics (truncDirect sb ip i) := .bind fun _ => inferInstance

instance {b j : ℕ} : Panics (truncEntry sb b j) := .bind fun _ => inferInstance

instance : Panics (truncIndirect sb ip) := .bind fun _ => inferInstance

instance : Panics (itrunc sb ip) := .bind fun _ => inferInstance

instance : Panics (iput sb ip) := .bind fun _ => inferInstance

instance : Panics (iunlockput sb ip) := .bind fun _ => inferInstance

instance {dst : ℕ → Bool} {n tot off : ℕ} {acc : List Byte} : Panics (readLoop sb ip dst n fuel tot off acc) := by
  induction fuel generalizing tot off acc <;> unfold readLoop <;> infer_instance

instance {dst : ℕ → Bool} {off n : BitVec 32} : Panics (readi sb ip dst off n) := .bind fun _ => inferInstance

instance {src : ℕ → Option Byte} {n tot off : ℕ} : Panics (writeLoop sb ip src n fuel tot off) := by
  induction fuel generalizing tot off <;> unfold writeLoop <;> infer_instance

instance {src : ℕ → Option Byte} {off n : BitVec 32} : Panics (writei sb ip src off n) := .bind fun _ => inferInstance

/-! ## Directories and paths -/

theorem readDirent_panics {off : ℕ} {msg : String} (h : msg ∈ panics) : Panics (readDirent sb dp off msg) :=
  have : Panics (stop msg : M Dirent) := .stop h
  .bind fun _ => inferInstance

instance {off : ℕ} : Panics (readDirent sb dp off "dirlookup read") := readDirent_panics (by decide)

instance {off : ℕ} : Panics (dirlookupLoop sb dp name fuel off) := by
  induction fuel generalizing off <;> unfold dirlookupLoop <;> infer_instance

instance : Panics (stop "dirlookup not DIR" : M α) := .stop (by decide)

instance : Panics (dirlookup sb dp name) := .bind fun _ => inferInstance

instance {off : ℕ} : Panics (readDirent sb dp off "dirlink read") := readDirent_panics (by decide)

instance {off : ℕ} : Panics (emptyLoop sb dp fuel off) := by
  induction fuel generalizing off <;> unfold emptyLoop <;> infer_instance

instance {inum : ℕ} : Panics (dirlink sb dp name inum) := by
  refine .bind fun r => ?_
  split <;> infer_instance

instance {parent : Bool} : Panics (namexLoop sb parent fuel path ip name) := by
  induction fuel generalizing path ip name with
  | zero => exact inferInstanceAs (Panics (pure _))
  | succ fuel ih =>
    unfold namexLoop
    split
    · infer_instance
    · refine .bind fun _ => .bind fun s => .ite (.ite (.bind fun r => ?_))
      split <;> infer_instance

instance {parent : Bool} : Panics (namex sb path parent cwd) := by
  unfold namex
  infer_instance

instance : Panics (namei sb path cwd) := .bind fun _ => inferInstance

instance : Panics (nameiparent sb path cwd) := inferInstanceAs (Panics (namex sb path true cwd))

/-! ## System calls -/

instance {f : BitVec 16 → BitVec 16} : Panics (setNlink sb ip f) := .bind fun _ => inferInstance

instance : Panics (linkBad sb ip) := .bind fun _ => inferInstance

instance {old new : List Byte} : Panics (link sb old new cwd) := by
  refine .bind fun r => ?_
  split
  · infer_instance
  · refine .bind fun _ => .bind fun s => .ite (.bind fun _ => .bind fun _ => .bind fun r => ?_)
    split <;> infer_instance

instance {off : ℕ} : Panics (readDirent sb dp off "isdirempty: readi") := readDirent_panics (by decide)

instance {off : ℕ} : Panics (isdiremptyLoop sb dp fuel off) := by
  induction fuel generalizing off <;> unfold isdiremptyLoop <;> infer_instance

instance : Panics (isdirempty sb dp) := .bind fun _ => inferInstance

instance : Panics (busyDir sb ip) := .bind fun _ => inferInstance

instance : Panics (unlinkBad sb dp) := .bind fun _ => inferInstance

instance : Panics (dropParentLink sb dp ip) := .bind fun _ => inferInstance

instance : Panics (stop "unlink: writei" : M α) := .stop (by decide)

instance {off : ℕ} : Panics (removeEntry sb dp ip off) := .bind fun _ => inferInstance

instance : Panics (stop "unlink: nlink < 1" : M α) := .stop (by decide)

instance : Panics (unlink sb path cwd) := by
  refine .bind fun r => ?_
  split
  · infer_instance
  · refine .bind fun _ => .ite (.bind fun r => ?_)
    split <;> infer_instance

variable {type major minor : BitVec 16} {omode : BitVec 32}

instance : Panics (dirlinks sb dp ip name type) := .bind fun _ => inferInstance

instance : Panics (initInode sb ip major minor) := .bind fun _ => inferInstance

instance : Panics (addParentLink sb dp type) := .ite inferInstance

instance : Panics (createNew sb dp name type major minor) := by
  refine .bind fun r => ?_
  split
  · infer_instance
  · exact .bind fun _ => .bind fun _ => .bind fun ok => inferInstance

instance : Panics (create sb path type major minor cwd) := by
  refine .bind fun r => ?_
  split
  · infer_instance
  · refine .bind fun _ => .bind fun r => ?_
    split <;> infer_instance

instance : Panics (createOnly sb path type major minor cwd) := by
  refine .bind fun r => ?_
  split <;> infer_instance

instance : Panics (mkdir sb path cwd) := inferInstanceAs (Panics (createOnly sb path T_DIR 0 0 cwd))

instance : Panics (mknod sb path major minor cwd) := inferInstanceAs (Panics (createOnly sb path T_DEVICE major minor cwd))

instance : Panics (openPath sb path omode cwd) := by
  refine .ite (.bind fun r => ?_)
  split <;> infer_instance

instance : Panics (openInode sb path omode cwd) := by
  refine .bind fun r => ?_
  split <;> infer_instance

instance : Panics (chdirInode sb path cwd) := by
  refine .bind fun r => ?_
  split <;> infer_instance

instance : Panics (SysFile.truncOpened sb ip omode) := .bind fun _ => inferInstance

instance {reads : List (BitVec 32 × BitVec 32)} : Panics (SysFile.execRead sb path reads cwd) := by
  refine .bind fun r => ?_
  split <;> infer_instance

end Xv6Boot.Kernel.Fs
