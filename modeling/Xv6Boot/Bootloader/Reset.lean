import Xv6Boot.Bootloader.Image

/-! # Memories at reset

`resetMem T image ram` is the machine when `_entry` is reached: the linked bootloader with trusted hash
`T`, the disk image, and whatever the RAM held. `KernelFile` writes out the header of a small kernel
image with chosen fields; its load address, sizes and contents are the attacker's or the builder's.
-/

namespace Xv6Boot.Start
open ByteMemory Loop StringC Layout Elf Sha256C

def kByte (o : ℕ) : Byte := leByte (k.getD (o / 4) 0).toNat (o % 4)

def resetMem (T : List Byte) (image : ℕ → Byte) (ram : Mem) : Mem :=
  put (put (put ram kTable 256 kByte) trustedKernelHash 32 fun i => T.getD i 0) RAMDISK (FSSIZE * BSIZE) image

section Reset
variable (T : List Byte) (image : ℕ → Byte) (ram : Mem)

theorem resetMem_disk {o : ℕ} (ho : o < FSSIZE * BSIZE) : resetMem T image ram (off RAMDISK o) = image o :=
  put_off _ _ _ ho (ho.trans (by decide))

theorem resetMem_load {w p : ℕ} (hp : p + w / 8 ≤ FSSIZE * BSIZE) :
    load w (resetMem T image ram) (off RAMDISK p) = BitVec.ofNat w (leNat (fun k => image (p + k)) (w / 8)) := by
  rw [load]
  congr 1
  apply leNat_congr
  intro k hk
  rw [off_off]
  exact resetMem_disk T image ram (by omega)

theorem resetMem_field {w p v : ℕ} (hp : p + w / 8 ≤ FSSIZE * BSIZE) (hw : 8 * (w / 8) = w)
    (h : ∀ k < w / 8, image (p + k) = leByte v k) :
    load w (resetMem T image ram) (off RAMDISK p) = BitVec.ofNat w v := by
  rw [resetMem_load T image ram hp, leNat_congr h, leNat_leByte]
  apply BitVec.eq_of_toNat_eq
  rw [BitVec.toNat_ofNat, BitVec.toNat_ofNat, show 256 = 2 ^ 8 from rfl, ← Nat.pow_mul, hw, Nat.mod_mod]

theorem resetMem_linked (hT : T.length = 32) : Linked (resetMem T image ram) T where
  k_loaded := by
    intro i hi
    set base := put ram kTable 256 kByte with hbase
    have hf : Frame (span trustedKernelHash 32 ∪ span RAMDISK (FSSIZE * BSIZE)) base
        (resetMem T image ram) := (put_frame base _ _ _).trans_union (put_frame _ RAMDISK _ image)
    have hd : Disjoint (span kTable 256) (span trustedKernelHash 32 ∪ span RAMDISK (FSSIZE * BSIZE)) :=
      Set.disjoint_union_right.mpr
        ⟨(span_disjoint (by decide) (by decide)).symm, span_disjoint (by decide) (by decide)⟩
    rw [hf.load_eq (hd.mono_left (span_off_subset kTable (by omega) (by norm_num))) (by norm_num), load]
    have hb : ∀ j < 4, base (off (off kTable (4 * i)) j) = leByte (k.getD i 0).toNat j := by
      intro j hj
      rw [off_off, hbase, put_off ram kTable kByte (by omega) (by omega), kByte,
        show (4 * i + j) / 4 = i by omega, show (4 * i + j) % 4 = j by omega]
    rw [leNat_congr (n := 4) hb, leNat_leByte]
    apply BitVec.eq_of_toNat_eq
    have hlt := (k.getD i 0).isLt
    rw [BitVec.toNat_ofNat]
    omega
  trusted := by
    apply List.ext_getElem (by simp [hT])
    intro q hq hq'
    have hq32 : q < 32 := by simpa using hq
    rw [List.getElem_eq_getD 0, List.getElem_eq_getD 0, bytesAt_getD _ _ hq32]
    unfold resetMem
    rw [put_frame _ RAMDISK _ image]
    · exact put_off _ _ _ hq32 (by omega)
    · refine Set.disjoint_left.mp ?_ (off_mem_span trustedKernelHash hq32 (by omega))
      exact span_disjoint (by decide) (by decide)

end Reset

/-! ## A small kernel image -/

/-- Little-endian fields `(position, length, value)`; the rest is zero. -/
def fieldByte : List (ℕ × ℕ × ℕ) → ℕ → Byte
  | [], _ => 0
  | (pos, len, val) :: fs, o => if pos ≤ o ∧ o < pos + len then leByte val (o - pos) else fieldByte fs o

structure KernelFile where
  vaddr : ℕ
  size : ℕ
  filesz : ℕ
  memsz : ℕ
  entryAddr : ℕ
  body : ℕ → Byte

/-- Two program headers at 64, the second one loadable; no section headers, so `shoff` is the size. -/
def KernelFile.header (f : KernelFile) : List (ℕ × ℕ × ℕ) :=
  [(0, 4, 0x464C457F), (24, 8, f.entryAddr), (32, 8, 64), (40, 8, f.size), (54, 2, 56), (56, 2, 2), (58, 2, 64),
    (60, 2, 0), (64, 4, 4), (120, 4, 1), (128, 8, 4096), (136, 8, f.vaddr), (152, 8, f.filesz),
    (160, 8, f.memsz)]

def KernelFile.byte (f : KernelFile) (o : ℕ) : Byte := if o < 4096 then fieldByte f.header o else f.body o

namespace KernelFile
variable (f : KernelFile) (T : List Byte) (ram : Mem)

def mem : Mem := resetMem T f.byte ram

theorem shoff_eq : load 64 (f.mem T ram) (off RAMDISK Elfhdr.shoff) = BitVec.ofNat 64 f.size :=
  resetMem_field T f.byte ram (by decide) (by norm_num) fun k hk => by interval_cases k <;> rfl

theorem shentsize_eq : load 16 (f.mem T ram) (off RAMDISK Elfhdr.shentsize) = 64#16 :=
  resetMem_field T f.byte ram (by decide) (by norm_num) fun k hk => by interval_cases k <;> rfl

theorem shnum_eq : load 16 (f.mem T ram) (off RAMDISK Elfhdr.shnum) = 0#16 :=
  resetMem_field T f.byte ram (by decide) (by norm_num) fun k hk => by interval_cases k <;> rfl

theorem phoff_eq : load 64 (f.mem T ram) (off RAMDISK Elfhdr.phoff) = 64#64 :=
  resetMem_field T f.byte ram (by decide) (by norm_num) fun k hk => by interval_cases k <;> rfl

theorem phentsize_eq : load 16 (f.mem T ram) (off RAMDISK Elfhdr.phentsize) = 56#16 :=
  resetMem_field T f.byte ram (by decide) (by norm_num) fun k hk => by interval_cases k <;> rfl

theorem phnum_eq : phnum (f.mem T ram) = 2 := by
  have h : load 16 (f.mem T ram) (off RAMDISK Elfhdr.phnum) = 2#16 :=
    resetMem_field T f.byte ram (by decide) (by norm_num) fun k hk => by interval_cases k <;> rfl
  rw [phnum, h]
  rfl

theorem textPhdr_eq : textPhdr (f.mem T ram) RAMDISK = off RAMDISK 120 := by
  rw [textPhdr, f.phoff_eq, f.phentsize_eq]
  rfl

theorem kernelSize_eq (h : f.size < 2 ^ 64) : kernelSize (f.mem T ram) = f.size := by
  rw [Start.kernelSize_eq, elfSize, f.shoff_eq, f.shentsize_eq, f.shnum_eq]
  have h0 : ((64#16).setWidth 32 * (0#16).setWidth 32 : BitVec 32).signExtend 64 = 0#64 := by decide
  rw [h0, BitVec.add_zero, BitVec.toNat_ofNat, Nat.mod_eq_of_lt h]

theorem segVaddr_eq : segVaddr (f.mem T ram) = BitVec.ofNat 64 f.vaddr := by
  rw [segVaddr, f.textPhdr_eq, off_off]
  exact resetMem_field T f.byte ram (by decide) (by norm_num) fun k hk => by interval_cases k <;> rfl

theorem segOffset_eq : segOffset (f.mem T ram) = 4 * BSIZE := by
  have h : load 64 (f.mem T ram) (off RAMDISK (120 + Proghdr.offset)) = 4096#64 :=
    resetMem_field T f.byte ram (by decide) (by norm_num) fun k hk => by interval_cases k <;> rfl
  rw [segOffset, f.textPhdr_eq, off_off, h]
  rfl

theorem phdrAddr_eq (j : ℕ) : phdrAddr (f.mem T ram) j = off RAMDISK (64 + Proghdr.size * j) := by
  rw [phdrAddr, f.phoff_eq, ← off_off]
  rfl

theorem kernelImage (hlo : 4096 ≤ f.size) (hhi : f.size < 2 ^ 64) : KernelImage (f.mem T ram) where
  magic := resetMem_field T f.byte ram (by decide) (by norm_num) fun k hk => by interval_cases k <;> rfl
  header := by
    rw [f.kernelSize_eq T ram hhi]
    exact le_trans (by decide) hlo
  phentsize := f.phentsize_eq T ram
  phnum_ge := (f.phnum_eq T ram).ge
  table := by
    rw [f.phoff_eq, f.phnum_eq, f.kernelSize_eq T ram hhi]
    exact le_trans (by decide) hlo
  segment := by
    rw [f.phdrAddr_eq, off_off]
    exact resetMem_field T f.byte ram (by decide) (by norm_num) fun k hk => by interval_cases k <;> rfl
  single := by
    intro j hj hne
    rw [f.phnum_eq] at hj
    obtain rfl : j = 0 := by omega
    have h : load 32 (f.mem T ram) (off RAMDISK (64 + Proghdr.size * 0 + Proghdr.type)) = 4#32 :=
      resetMem_field T f.byte ram (by decide) (by norm_num) fun k hk => by interval_cases k <;> rfl
    rw [f.phdrAddr_eq, off_off, h]
    decide
  offset := f.segOffset_eq T ram

theorem body_eq {o : ℕ} (hlo : 4096 ≤ o) (hhi : o < FSSIZE * BSIZE) : f.mem T ram (off RAMDISK o) = f.body o := by
  rw [mem, resetMem_disk T f.byte ram hhi, byte, if_neg (by omega)]

def hash : List Byte := Sha256.digest ((List.range f.size).map f.byte)

theorem hash_length : f.hash.length = 32 := Sha256.digest_length _

theorem image_eq (h : f.size ≤ FSSIZE * BSIZE) :
    bytesAt (f.mem T ram) RAMDISK f.size = (List.range f.size).map f.byte :=
  List.map_congr_left fun _ ho => resetMem_disk T f.byte ram ((List.mem_range.mp ho).trans_le h)

/-! ## Images that keep to the RAM between the table and the disk -/

/-- The image ends in the disk and asks to be loaded below it, above the bootloader and its table. -/
structure WellPlaced : Prop where
  size_ge : 4096 ≤ f.size
  size_lt : f.size < FSSIZE * BSIZE
  vaddr_ge : 0x80100000 ≤ f.vaddr
  vaddr_le : f.vaddr + f.size ≤ 0x84000000

variable {f} (hw : f.WellPlaced)
include hw

theorem WellPlaced.kernelSize_eq : kernelSize (f.mem T ram) = f.size :=
  f.kernelSize_eq T ram (hw.size_lt.trans (by decide))

theorem WellPlaced.kernelSize_lt : kernelSize (f.mem T ram) < FSSIZE * BSIZE := by
  rw [hw.kernelSize_eq]
  exact hw.size_lt

theorem WellPlaced.image : KernelImage (f.mem T ram) :=
  f.kernelImage T ram hw.size_ge (hw.size_lt.trans (by decide))

theorem WellPlaced.headersInside : HeadersInside (f.mem T ram) :=
  (hw.image T ram).headersInside (hw.kernelSize_lt T ram)

theorem WellPlaced.span_clear {n : ℕ} (hn : f.vaddr + n ≤ 0x84000000) :
    Disjoint (span (BitVec.ofNat 64 f.vaddr) n)
      (imageSpan (f.mem T ram) ∪ bootloaderMem ∪ span sysInfo SysInfo.size) := by
  have hv : (BitVec.ofNat 64 f.vaddr).toNat = f.vaddr := by
    rw [BitVec.toNat_ofNat]
    omega
  have hlo := hw.vaddr_ge
  have hsz := hw.size_lt
  unfold FSSIZE BSIZE at hsz
  have hram : RAMDISK.toNat = 0x84000000 := rfl
  have hent : entry.toNat = 0x80000000 := rfl
  have hinfo : sysInfo.toNat = 0x80080000 := rfl
  refine Set.disjoint_union_right.mpr ⟨Set.disjoint_union_right.mpr ⟨?_, ?_⟩, ?_⟩
  · rw [imageSpan, hw.kernelSize_eq]
    exact span_disjoint (by omega) (by omega)
  · exact (span_disjoint (by rw [hent, hv, bootloaderSize]; omega) (by omega)).symm
  · exact (span_disjoint (by rw [hinfo, hv, SysInfo.size]; omega) (by omega)).symm

theorem WellPlaced.rangeClear : RangeClear (f.mem T ram) := by
  have hle : BSIZE * (f.size / BSIZE - 4) ≤ f.size :=
    (Nat.mul_le_mul_left _ (Nat.sub_le _ _)).trans (Nat.mul_div_le _ _)
  have h := hw.vaddr_le
  unfold RangeClear kernelRange numBlocks
  rw [f.segVaddr_eq, hw.kernelSize_eq]
  exact hw.span_clear T ram (by omega)

theorem WellPlaced.digest_eq : Sha256.digest (bytesAt (f.mem T ram) RAMDISK (kernelSize (f.mem T ram))) = f.hash := by
  rw [hw.kernelSize_eq, f.image_eq T ram hw.size_lt.le, hash]

theorem WellPlaced.boots (hart : Fin NCPU) :
    ∃ pc s', start hart ⟨f.mem f.hash ram, 0, 0, 0⟩ = some (.jumped pc, s') := by
  have h := start_decides hart (s := ⟨f.mem f.hash ram, 0, 0, 0⟩)
    (resetMem_linked f.hash f.byte ram f.hash_length) (hw.headersInside _ ram) (hw.rangeClear _ ram)
    (hw.kernelSize_lt _ ram)
  rwa [if_pos (hw.digest_eq f.hash ram)] at h

end KernelFile

theorem exists_other_hash (d : List Byte) : ∃ T : List Byte, T.length = 32 ∧ d ≠ T := by
  by_cases h : d = List.replicate 32 0
  · exact ⟨List.replicate 32 1, by simp, by rw [h]; decide⟩
  · exact ⟨List.replicate 32 0, by simp, h⟩

end Xv6Boot.Start
