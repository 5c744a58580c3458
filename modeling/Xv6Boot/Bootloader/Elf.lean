import Xv6Boot.Bootloader.Layout

/-! # `elf.c`: what the bootloader reads from the image headers

Each function first points the global `kernel_elfhdr` at the disk region and reads through it, so each
has a memory effect besides its value. The fields are attacker data: the address of the second program
header is a sum of image fields, and may lie anywhere.
-/

namespace Xv6Boot.Elf
open ByteMemory Layout

/-! ## The functions -/

def findKernelLoadAddr (ktype : Kernel) (m : Mem) : Addr × Mem :=
  let m := store m kernelElfhdr ktype.disk
  let phoff := load 64 m (off (load 64 m kernelElfhdr) Elfhdr.phoff)
  let phsize := (load 16 m (off (load 64 m kernelElfhdr) Elfhdr.phentsize)).setWidth 64
  let textPhdrAddr := ktype.disk + phoff + phsize
  let m := store m kernelPhdr textPhdrAddr
  (load 64 m (off (load 64 m kernelPhdr) Proghdr.vaddr), m)

/-- The product of the two `ushort` fields is an `int`, widened with its sign (`mulw`). -/
def findKernelSize (ktype : Kernel) (m : Mem) : BitVec 64 × Mem :=
  let m := store m kernelElfhdr ktype.disk
  let startOfSectionHeaders := load 64 m (off (load 64 m kernelElfhdr) Elfhdr.shoff)
  let shentsize := (load 16 m (off (load 64 m kernelElfhdr) Elfhdr.shentsize)).setWidth 32
  let shnum := (load 16 m (off (load 64 m kernelElfhdr) Elfhdr.shnum)).setWidth 32
  let sizeOfSectionHeaders := (shentsize * shnum).signExtend 64
  (startOfSectionHeaders + sizeOfSectionHeaders, m)

def findKernelEntryAddr (ktype : Kernel) (m : Mem) : Addr × Mem :=
  let m := store m kernelElfhdr ktype.disk
  (load 64 m (off (load 64 m kernelElfhdr) Elfhdr.entry), m)

/-! ## The same values as functions of the image -/

/-- The disk as an ELF file: its size by the section headers, its entry, its second program header. -/
def elfSize (m : Mem) (disk : Addr) : BitVec 64 :=
  load 64 m (off disk Elfhdr.shoff) +
    ((load 16 m (off disk Elfhdr.shentsize)).setWidth 32 *
      (load 16 m (off disk Elfhdr.shnum)).setWidth 32 : BitVec 32).signExtend 64

def elfEntry (m : Mem) (disk : Addr) : Addr := load 64 m (off disk Elfhdr.entry)

def textPhdr (m : Mem) (disk : Addr) : Addr :=
  disk + load 64 m (off disk Elfhdr.phoff) + (load 16 m (off disk Elfhdr.phentsize)).setWidth 64

/-- `kernel_phdr` and `kernel_elfhdr`, which are adjacent. -/
def headerPtrs : Set Addr := span kernelPhdr 16

theorem kernelElfhdr_subset : span kernelElfhdr 8 ⊆ headerPtrs :=
  span_subset_of_toNat (by decide) (by decide) (by decide)

theorem kernelPhdr_subset : span kernelPhdr 8 ⊆ headerPtrs := span_mono _ (by norm_num)

theorem headerPtrs_subset : headerPtrs ⊆ bootloaderMem :=
  span_subset_of_toNat (by decide) (by decide) (by decide)

theorem header_disjoint (ktype : Kernel) : Disjoint (span ktype.disk Elfhdr.size) headerPtrs := by
  cases ktype <;> exact (span_disjoint (by decide) (by decide)).symm

variable {s : Set Addr} {m m' : Mem} {disk : Addr}

theorem header_load (hf : Frame s m m') (hd : Disjoint (span disk Elfhdr.size) s) {w k : ℕ}
    (hk : k + w / 8 ≤ Elfhdr.size) (hw : w ≤ 64) : load w m' (off disk k) = load w m (off disk k) :=
  hf.load_eq (hd.mono_left (span_off_subset disk hk (by decide))) (by omega)

theorem elfSize_frame (hf : Frame s m m') (hd : Disjoint (span disk Elfhdr.size) s) :
    elfSize m' disk = elfSize m disk := by
  unfold elfSize
  rw [header_load hf hd (by decide) (by decide), header_load hf hd (by decide) (by decide),
    header_load hf hd (by decide) (by decide)]

theorem elfEntry_frame (hf : Frame s m m') (hd : Disjoint (span disk Elfhdr.size) s) :
    elfEntry m' disk = elfEntry m disk :=
  header_load hf hd (by decide) (by decide)

theorem textPhdr_frame (hf : Frame s m m') (hd : Disjoint (span disk Elfhdr.size) s) :
    textPhdr m' disk = textPhdr m disk := by
  unfold textPhdr
  rw [header_load hf hd (by decide) (by decide), header_load hf hd (by decide) (by decide)]

theorem store_kernelElfhdr_frame (m : Mem) (a : Addr) : Frame headerPtrs m (store m kernelElfhdr a) :=
  (store64_frame m kernelElfhdr a).mono kernelElfhdr_subset

/-! ## Value and effect of each function -/

theorem findKernelSize_eq (ktype : Kernel) (m : Mem) : (findKernelSize ktype m).1 = elfSize m ktype.disk := by
  unfold findKernelSize
  dsimp only
  rw [load_store64]
  exact elfSize_frame (store_kernelElfhdr_frame m ktype.disk) (header_disjoint ktype)

theorem findKernelSize_frame (ktype : Kernel) (m : Mem) : Frame headerPtrs m (findKernelSize ktype m).2 :=
  store_kernelElfhdr_frame m ktype.disk

theorem findKernelEntryAddr_eq (ktype : Kernel) (m : Mem) :
    (findKernelEntryAddr ktype m).1 = elfEntry m ktype.disk := by
  unfold findKernelEntryAddr
  dsimp only
  rw [load_store64]
  exact elfEntry_frame (store_kernelElfhdr_frame m ktype.disk) (header_disjoint ktype)

theorem findKernelEntryAddr_frame (ktype : Kernel) (m : Mem) :
    Frame headerPtrs m (findKernelEntryAddr ktype m).2 := store_kernelElfhdr_frame m ktype.disk

theorem findKernelLoadAddr_frame (ktype : Kernel) (m : Mem) : Frame headerPtrs m (findKernelLoadAddr ktype m).2 := by
  unfold findKernelLoadAddr
  exact (store_kernelElfhdr_frame m ktype.disk).trans ((store64_frame _ kernelPhdr _).mono kernelPhdr_subset)

theorem findKernelLoadAddr_load (ktype : Kernel) (m : Mem) : (findKernelLoadAddr ktype m).1 =
    load 64 (findKernelLoadAddr ktype m).2 (off (textPhdr m ktype.disk) Proghdr.vaddr) := by
  have h : textPhdr (store m kernelElfhdr ktype.disk) ktype.disk = textPhdr m ktype.disk :=
    textPhdr_frame (store_kernelElfhdr_frame m ktype.disk) (header_disjoint ktype)
  unfold findKernelLoadAddr
  dsimp only
  rw [load_store64, load_store64, ← h]
  rfl

theorem findKernelLoadAddr_eq {ktype : Kernel}
    (hd : Disjoint (span (off (textPhdr m ktype.disk) Proghdr.vaddr) 8) headerPtrs) :
    (findKernelLoadAddr ktype m).1 = load 64 m (off (textPhdr m ktype.disk) Proghdr.vaddr) := by
  rw [findKernelLoadAddr_load]
  exact (findKernelLoadAddr_frame ktype m).load_eq hd (by norm_num)

end Xv6Boot.Elf
