import Mathlib

/-! # `fs.h`: the file system on disk

Blocks of bytes, and the three things the kernel sees in them: the free map, the inodes, and the block numbers of
an indirect block. Each store changes one of these views in one place and leaves the others as they are.
-/

namespace Xv6Boot.Kernel.Fs
open Function

def ROOTINO : ℕ := 1
def BSIZE : ℕ := 1024
def NDIRECT : ℕ := 12
def NINDIRECT : ℕ := BSIZE / 4
def MAXFILE : ℕ := NDIRECT + NINDIRECT
def dinodeSize : ℕ := 64
def IPB : ℕ := BSIZE / dinodeSize
def BPB : ℕ := BSIZE * 8

abbrev Byte := BitVec 8

/-- The bytes of a block; those from `BSIZE` on are never used. -/
abbrev Data := ℕ → Byte

/-- The fields that `fs.c` uses. -/
structure Superblock where
  size : ℕ
  nblocks : ℕ
  ninodes : ℕ
  inodestart : ℕ
  bmapstart : ℕ

namespace Superblock
variable (sb : Superblock)

def IBLOCK (i : ℕ) : ℕ := i / IPB + sb.inodestart
def BBLOCK (b : ℕ) : ℕ := b / BPB + sb.bmapstart

def nmeta : ℕ := sb.size - sb.nblocks

end Superblock

/-- `[ boot block | super block | log | inode blocks | free bit map | data blocks ]`, in numbers that an `int` and,
for inodes, the `ushort` of a directory entry can hold. -/
structure Layout (sb : Superblock) : Prop where
  inodestart : 2 ≤ sb.inodestart
  inodes : sb.inodestart + (sb.ninodes / IPB + 1) ≤ sb.bmapstart
  bmap : sb.bmapstart + (sb.size / BPB + 1) ≤ sb.nmeta
  nblocks : sb.nblocks ≤ sb.size
  size : sb.size < 2 ^ 31
  root : ROOTINO < sb.ninodes
  ninodes : sb.ninodes ≤ 2 ^ 16

/-! ## Numbers in bytes -/

def le16 (f : ℕ → Byte) : BitVec 16 := f 1 ++ f 0

def le32 (f : ℕ → Byte) : BitVec 32 := f 3 ++ f 2 ++ f 1 ++ f 0

def byteOf {w : ℕ} (x : BitVec w) (i : ℕ) : Byte := x.extractLsb' (8 * i) 8

theorem le16_byteOf (x : BitVec 16) : le16 (byteOf x) = x := by
  apply BitVec.eq_of_getLsbD_eq
  intro i hi
  simp only [le16, byteOf, BitVec.getLsbD_append, BitVec.getLsbD_extractLsb']
  by_cases h : i < 8
  · simp [h]
  · simp [h, show i - 8 < 8 by omega, show 8 + (i - 8) = i by omega]

theorem le32_byteOf (x : BitVec 32) : le32 (byteOf x) = x := by
  apply BitVec.eq_of_getLsbD_eq
  intro i hi
  simp only [le32, byteOf, BitVec.getLsbD_append, BitVec.getLsbD_extractLsb']
  by_cases h0 : i < 8
  · simp [h0]
  by_cases h1 : i < 16
  · simp [h0, show i - 8 < 8 by omega, show 8 + (i - 8) = i by omega]
  by_cases h2 : i < 24
  · simp [h0, show ¬ i - 8 < 8 by omega, show i - 8 - 8 < 8 by omega, show 16 + (i - 8 - 8) = i by omega]
  · simp [h0, show ¬ i - 8 < 8 by omega, show ¬ i - 8 - 8 < 8 by omega, show i - 8 - 8 - 8 < 8 by omega,
      show 24 + (i - 8 - 8 - 8) = i by omega]

theorem le16_congr {f g : ℕ → Byte} (h : ∀ i < 2, f i = g i) : le16 f = le16 g := by
  rw [le16, le16, h 0 (by omega), h 1 (by omega)]

theorem le32_congr {f g : ℕ → Byte} (h : ∀ i < 4, f i = g i) : le32 f = le32 g := by
  rw [le32, le32, h 0 (by omega), h 1 (by omega), h 2 (by omega), h 3 (by omega)]

/-! ## Bits of the free map -/

/-- `m = 1 << (bi % 8)` -/
def mask (bi : ℕ) : Byte := 1 <<< (bi % 8)

/-- `bp->data[bi/8] & m` -/
def bit (d : Data) (bi : ℕ) : Bool := d (bi / 8) &&& mask bi ≠ 0

def setBit (d : Data) (bi : ℕ) : Data := update d (bi / 8) (d (bi / 8) ||| mask bi)

def clearBit (d : Data) (bi : ℕ) : Data := update d (bi / 8) (d (bi / 8) &&& ~~~mask bi)

theorem mask_eq (bi : ℕ) : mask bi = BitVec.twoPow 8 (bi % 8) := (BitVec.twoPow_eq 8 (bi % 8)).symm

theorem bit_eq (d : Data) (bi : ℕ) : bit d bi = (d (bi / 8)).getLsbD (bi % 8) := by
  have hk : bi % 8 < 8 := Nat.mod_lt _ (by omega)
  rw [bit, mask_eq, BitVec.and_twoPow]
  cases (d (bi / 8)).getLsbD (bi % 8) with
  | false => simp
  | true =>
    simp only [if_true, decide_eq_true_eq]
    intro h
    have hbit := congrArg (fun y => y.getLsbD (bi % 8)) h
    simp [hk] at hbit

theorem mod_ne_of_div_eq {bi bj : ℕ} (h : bj ≠ bi) (hd : bj / 8 = bi / 8) : bi % 8 ≠ bj % 8 := by
  omega

theorem bit_setBit (d : Data) (bi bj : ℕ) : bit (setBit d bi) bj = (bit d bj || decide (bj = bi)) := by
  have hk : bi % 8 < 8 := Nat.mod_lt _ (by omega)
  rw [bit_eq, bit_eq, setBit, update_apply]
  by_cases hd : bj / 8 = bi / 8
  · rw [if_pos hd, BitVec.getLsbD_or, mask_eq, BitVec.getLsbD_twoPow, hd]
    by_cases hb : bj = bi
    · simp [hb, hk]
    · simp [hb, mod_ne_of_div_eq hb hd]
  · have hb : bj ≠ bi := fun he => hd (by rw [he])
    rw [if_neg hd]
    simp [hb]

theorem bit_clearBit (d : Data) (bi bj : ℕ) : bit (clearBit d bi) bj = (bit d bj && decide (bj ≠ bi)) := by
  have hk : bi % 8 < 8 := Nat.mod_lt _ (by omega)
  have hj : bj % 8 < 8 := Nat.mod_lt _ (by omega)
  rw [bit_eq, bit_eq, clearBit, update_apply]
  by_cases hd : bj / 8 = bi / 8
  · rw [if_pos hd, BitVec.getLsbD_and, BitVec.getLsbD_not, mask_eq, BitVec.getLsbD_twoPow, hd]
    by_cases hb : bj = bi
    · simp [hb, hk]
    · simp [hb, hj, mod_ne_of_div_eq hb hd]
  · have hb : bj ≠ bi := fun he => hd (by rw [he])
    rw [if_neg hd]
    simp [hb]

/-! ## Inodes in a block -/

instance (priority := 2000) : NeZero (NDIRECT + 1) := ⟨by decide⟩

structure Dinode where
  type : BitVec 16
  major : BitVec 16
  minor : BitVec 16
  nlink : BitVec 16
  size : BitVec 32
  addrs : Fin (NDIRECT + 1) → BitVec 32

def Dinode.zero : Dinode := ⟨0, 0, 0, 0, 0, fun _ => 0⟩

def Dinode.byte (x : Dinode) (i : ℕ) : Byte :=
  if i < 2 then byteOf x.type i
  else if i < 4 then byteOf x.major (i - 2)
  else if i < 6 then byteOf x.minor (i - 4)
  else if i < 8 then byteOf x.nlink (i - 6)
  else if i < 12 then byteOf x.size (i - 8)
  else byteOf (x.addrs (Fin.ofNat (NDIRECT + 1) ((i - 12) / 4))) ((i - 12) % 4)

/-- `(struct dinode*)bp->data + k` -/
def getDinode (d : Data) (k : ℕ) : Dinode where
  type := le16 fun i => d (dinodeSize * k + i)
  major := le16 fun i => d (dinodeSize * k + (2 + i))
  minor := le16 fun i => d (dinodeSize * k + (4 + i))
  nlink := le16 fun i => d (dinodeSize * k + (6 + i))
  size := le32 fun i => d (dinodeSize * k + (8 + i))
  addrs j := le32 fun i => d (dinodeSize * k + (12 + 4 * j.val + i))

def putDinode (d : Data) (k : ℕ) (x : Dinode) : Data := fun i =>
  if i / dinodeSize = k then x.byte (i % dinodeSize) else d i

theorem putDinode_self (d : Data) (k : ℕ) (x : Dinode) {i : ℕ} (hi : i < dinodeSize) :
    putDinode d k x (dinodeSize * k + i) = x.byte i := by
  unfold dinodeSize at hi
  rw [putDinode, dinodeSize, if_pos (by omega), show (64 * k + i) % 64 = i by omega]

variable {k : ℕ}

theorem putDinode_ne (d : Data) {k' : ℕ} (x : Dinode) (hk : k' ≠ k) {i : ℕ} (hi : i < dinodeSize) :
    putDinode d k x (dinodeSize * k' + i) = d (dinodeSize * k' + i) := by
  unfold dinodeSize at hi
  rw [putDinode, dinodeSize, if_neg (by omega)]

theorem getDinode_congr {d d' : Data} (h : ∀ i < dinodeSize, d (dinodeSize * k + i) = d' (dinodeSize * k + i)) :
    getDinode d k = getDinode d' k := by
  unfold getDinode
  congr 1
  · exact le16_congr fun i hi => h i (by unfold dinodeSize; omega)
  · exact le16_congr fun i hi => h (2 + i) (by unfold dinodeSize; omega)
  · exact le16_congr fun i hi => h (4 + i) (by unfold dinodeSize; omega)
  · exact le16_congr fun i hi => h (6 + i) (by unfold dinodeSize; omega)
  · exact le32_congr fun i hi => h (8 + i) (by unfold dinodeSize; omega)
  · funext j
    have hj : j.val < 13 := j.isLt
    exact le32_congr fun i hi => h (12 + 4 * j.val + i) (by unfold dinodeSize; omega)

theorem getDinode_bytes (d : Data) (k : ℕ) (x : Dinode) (h : ∀ i < dinodeSize, d (dinodeSize * k + i) = x.byte i) :
    getDinode d k = x := by
  have h16 : ∀ (y : BitVec 16) (o : ℕ), (∀ i < 2, o + i < dinodeSize ∧ x.byte (o + i) = byteOf y i) →
      le16 (fun i => d (dinodeSize * k + (o + i))) = y := by
    intro y o hy
    rw [← le16_byteOf y]
    exact le16_congr fun i hi => (h _ (hy i hi).1).trans (hy i hi).2
  have h32 : ∀ (y : BitVec 32) (o : ℕ), (∀ i < 4, o + i < dinodeSize ∧ x.byte (o + i) = byteOf y i) →
      le32 (fun i => d (dinodeSize * k + (o + i))) = y := by
    intro y o hy
    rw [← le32_byteOf y]
    exact le32_congr fun i hi => (h _ (hy i hi).1).trans (hy i hi).2
  have htype : le16 (fun i => d (dinodeSize * k + i)) = x.type := by
    simpa using h16 x.type 0 fun i hi => ⟨by unfold dinodeSize; omega, by rw [Nat.zero_add, Dinode.byte, if_pos hi]⟩
  have hmajor := h16 x.major 2 fun i hi => ⟨by unfold dinodeSize; omega, by
    rw [Dinode.byte, if_neg (by omega), if_pos (by omega), Nat.add_sub_cancel_left]⟩
  have hminor := h16 x.minor 4 fun i hi => ⟨by unfold dinodeSize; omega, by
    rw [Dinode.byte, if_neg (by omega), if_neg (by omega), if_pos (by omega), Nat.add_sub_cancel_left]⟩
  have hnlink := h16 x.nlink 6 fun i hi => ⟨by unfold dinodeSize; omega, by
    rw [Dinode.byte, if_neg (by omega), if_neg (by omega), if_neg (by omega), if_pos (by omega),
      Nat.add_sub_cancel_left]⟩
  have hsize := h32 x.size 8 fun i hi => ⟨by unfold dinodeSize; omega, by
    rw [Dinode.byte, if_neg (by omega), if_neg (by omega), if_neg (by omega), if_neg (by omega),
      if_pos (by omega), Nat.add_sub_cancel_left]⟩
  have haddrs : (fun j : Fin (NDIRECT + 1) => le32 fun i => d (dinodeSize * k + (12 + 4 * j.val + i))) = x.addrs := by
    funext j
    have hj : j.val < 13 := j.isLt
    refine h32 (x.addrs j) (12 + 4 * j.val) fun i hi => ⟨by unfold dinodeSize; omega, ?_⟩
    have hidx : Fin.ofNat (NDIRECT + 1) ((12 + 4 * j.val + i - 12) / 4) = j := by
      apply Fin.ext
      rw [Fin.val_ofNat]
      unfold NDIRECT
      omega
    rw [Dinode.byte, if_neg (by omega), if_neg (by omega), if_neg (by omega), if_neg (by omega), if_neg (by omega),
      hidx, show (12 + 4 * j.val + i - 12) % 4 = i by omega]
  rw [getDinode, htype, hmajor, hminor, hnlink, hsize, haddrs]

theorem getDinode_putDinode (d : Data) (k k' : ℕ) (x : Dinode) :
    getDinode (putDinode d k x) k' = if k' = k then x else getDinode d k' := by
  split
  · next hk =>
    subst hk
    exact getDinode_bytes _ _ _ fun i hi => putDinode_self d k' x hi
  · next hk => exact getDinode_congr fun i hi => putDinode_ne d x hk hi

/-! ## Block numbers in an indirect block -/

/-- `((uint*)bp->data)[j]` -/
def word (d : Data) (j : ℕ) : BitVec 32 := le32 fun i => d (4 * j + i)

def setWord (d : Data) (j : ℕ) (w : BitVec 32) : Data := fun i => if i / 4 = j then byteOf w (i % 4) else d i

theorem word_setWord (d : Data) (j j' : ℕ) (w : BitVec 32) :
    word (setWord d j w) j' = if j' = j then w else word d j' := by
  split
  · next hj =>
    subst hj
    rw [← le32_byteOf w]
    refine le32_congr fun i hi => ?_
    rw [setWord, if_pos (by omega), show (4 * j' + i) % 4 = i by omega, le32_byteOf]
  · next hj =>
    refine le32_congr fun i hi => ?_
    rw [setWord, if_neg (by omega)]

theorem word_zero (j : ℕ) : word (fun _ => 0) j = 0 := by simp [word, le32]

/-! ## The disk as a whole -/

variable (sb : Superblock)

def marked (c : ℕ → Data) (b : ℕ) : Bool := bit (c (sb.BBLOCK b)) (b % BPB)

def dinode (c : ℕ → Data) (n : ℕ) : Dinode := getDinode (c (sb.IBLOCK n)) (n % IPB)

def mark (c : ℕ → Data) (b : ℕ) : ℕ → Data :=
  update c (sb.BBLOCK b) (setBit (c (sb.BBLOCK b)) (b % BPB))

def unmark (c : ℕ → Data) (b : ℕ) : ℕ → Data :=
  update c (sb.BBLOCK b) (clearBit (c (sb.BBLOCK b)) (b % BPB))

def setDinode (c : ℕ → Data) (n : ℕ) (x : Dinode) : ℕ → Data :=
  update c (sb.IBLOCK n) (putDinode (c (sb.IBLOCK n)) (n % IPB) x)

variable {sb} {c : ℕ → Data} {b b' n n' : ℕ} {x : Dinode} {d : Data}

theorem Layout.iblock_lt (h : Layout sb) (hn : n < sb.ninodes) : sb.IBLOCK n < sb.bmapstart := by
  have := h.inodes
  have hd : n / IPB ≤ sb.ninodes / IPB := Nat.div_le_div_right hn.le
  rw [Superblock.IBLOCK]
  omega

theorem Layout.le_bblock (b : ℕ) : sb.bmapstart ≤ sb.BBLOCK b := Nat.le_add_left ..

theorem Layout.bblock_lt (h : Layout sb) (hb : b < sb.size) : sb.BBLOCK b < sb.nmeta := by
  have := h.bmap
  have hd : b / BPB ≤ sb.size / BPB := Nat.div_le_div_right hb.le
  rw [Superblock.BBLOCK]
  omega

theorem Layout.iblock_lt_nmeta (h : Layout sb) (hn : n < sb.ninodes) : sb.IBLOCK n < sb.nmeta := by
  have h1 := h.iblock_lt hn
  have h2 : sb.bmapstart ≤ sb.nmeta := (Nat.le_add_right _ _).trans h.bmap
  omega

theorem Layout.iblock_ne_bblock (h : Layout sb) (hn : n < sb.ninodes) : sb.IBLOCK n ≠ sb.BBLOCK b := by
  have h1 := h.iblock_lt hn
  have h2 : sb.bmapstart ≤ sb.BBLOCK b := Layout.le_bblock b
  omega

theorem bblock_mod (b b' : ℕ) (h : sb.BBLOCK b' = sb.BBLOCK b) : b' % BPB = b % BPB ↔ b' = b := by
  rw [Superblock.BBLOCK, Superblock.BBLOCK] at h
  have h1 := Nat.div_add_mod b BPB
  have h2 := Nat.div_add_mod b' BPB
  have h3 : b' / BPB = b / BPB := by omega
  rw [h3] at h2
  omega

theorem iblock_mod (n n' : ℕ) (h : sb.IBLOCK n' = sb.IBLOCK n) : n' % IPB = n % IPB ↔ n' = n := by
  rw [Superblock.IBLOCK, Superblock.IBLOCK] at h
  have h1 := Nat.div_add_mod n IPB
  have h2 := Nat.div_add_mod n' IPB
  have h3 : n' / IPB = n / IPB := by omega
  rw [h3] at h2
  omega

theorem marked_mark : marked sb (mark sb c b) b' = (marked sb c b' || decide (b' = b)) := by
  rw [marked, marked, mark, update_apply]
  split
  · next h =>
    rw [bit_setBit, ← h]
    simp only [bblock_mod b b' h]
  · next h =>
    have hb : b' ≠ b := fun he => h (by rw [he])
    simp [hb]

theorem marked_unmark : marked sb (unmark sb c b) b' = (marked sb c b' && decide (b' ≠ b)) := by
  rw [marked, marked, unmark, update_apply]
  split
  · next h =>
    rw [bit_clearBit, ← h]
    simp only [ne_eq, bblock_mod b b' h]
  · next h =>
    have hb : b' ≠ b := fun he => h (by rw [he])
    simp [hb]

theorem dinode_setDinode : dinode sb (setDinode sb c n x) n' = if n' = n then x else dinode sb c n' := by
  rw [dinode, dinode, setDinode, update_apply]
  split
  · next h =>
    rw [getDinode_putDinode, ← h]
    simp only [iblock_mod n n' h]
  · next h =>
    have hn : n' ≠ n := fun he => h (by rw [he])
    rw [if_neg hn]

section
variable (h : Layout sb)
include h

theorem dinode_mark (hn : n < sb.ninodes) : dinode sb (mark sb c b) n = dinode sb c n := by
  rw [dinode, mark, update_of_ne (h.iblock_ne_bblock hn), dinode]

theorem dinode_unmark (hn : n < sb.ninodes) : dinode sb (unmark sb c b) n = dinode sb c n := by
  rw [dinode, unmark, update_of_ne (h.iblock_ne_bblock hn), dinode]

theorem marked_setDinode (hn : n < sb.ninodes) : marked sb (setDinode sb c n x) b = marked sb c b := by
  rw [marked, setDinode, update_of_ne (h.iblock_ne_bblock hn).symm, marked]

theorem mark_data (hb : b < sb.size) (hk : sb.nmeta ≤ k) : mark sb c b k = c k :=
  update_of_ne ((h.bblock_lt hb).trans_le hk).ne' _ _

theorem unmark_data (hb : b < sb.size) (hk : sb.nmeta ≤ k) : unmark sb c b k = c k :=
  update_of_ne ((h.bblock_lt hb).trans_le hk).ne' _ _

theorem setDinode_data (hn : n < sb.ninodes) (hk : sb.nmeta ≤ k) : setDinode sb c n x k = c k :=
  update_of_ne ((h.iblock_lt_nmeta hn).trans_le hk).ne' _ _

theorem marked_data (hb : b < sb.size) (hk : sb.nmeta ≤ k) : marked sb (update c k d) b = marked sb c b := by
  rw [marked, update_of_ne ((h.bblock_lt hb).trans_le hk).ne, marked]

theorem dinode_data (hn : n < sb.ninodes) (hk : sb.nmeta ≤ k) : dinode sb (update c k d) n = dinode sb c n := by
  rw [dinode, update_of_ne ((h.iblock_lt_nmeta hn).trans_le hk).ne, dinode]

end

end Xv6Boot.Kernel.Fs
