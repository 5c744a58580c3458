import Xv6Boot.Bootloader.Verdict

/-! # Runs of `start`

Inversion of `start` at its two exits, and what an accepted run leaves behind: the whole blocks of the
image at the load address, the system table filled in, the jump to the entry the header names.
-/

namespace Xv6Boot.Start
open ByteMemory Loop StringC Layout Elf Sha256C

/-! ## Up to the verdict -/

/-- The memory `is_secure_boot` is called with: the table's location has been set. -/
def handover (m : Mem) : Mem := store m sysInfoPtr sysInfo

theorem handover_frame (m : Mem) : Frame (span sysInfoPtr 8) m (handover m) := store64_frame m _ _

theorem handover_sysInfoPtr (m : Mem) : load 64 (handover m) sysInfoPtr = sysInfo := load_store64 m _ _

variable {m : Mem} {hart : Fin NCPU} {s : Machine}

theorem kernelSize_frame {m' : Mem} {s : Set Addr} (hf : Frame s m m') (hd : Disjoint (span RAMDISK Elfhdr.size) s) :
    kernelSize m' = kernelSize m := by
  rw [kernelSize_eq, kernelSize_eq, elfSize_frame hf hd]

theorem handover_kernelSize (m : Mem) : kernelSize (handover m) = kernelSize m :=
  kernelSize_frame (handover_frame m) (header_disjoint_bootloader.mono_right sysInfoPtr_subset)

theorem handover_numBlocks (m : Mem) : numBlocks (handover m) = numBlocks m := by
  rw [numBlocks, handover_kernelSize, numBlocks]

theorem handover_linked {T : List Byte} (h : Linked m T) : Linked (handover m) T where
  k_loaded := h.k_loaded.frame (handover_frame m) (span_disjoint (by decide) (by decide))
  trusted := by
    rw [← h.trusted]
    exact bytesAt_congr fun k hk =>
      (handover_frame m).byte (span_disjoint (by decide) (by decide)) hk (by omega)

theorem bytesAt_disk_frame {m' : Mem} {s : Set Addr} (hf : Frame s m m') {n : ℕ} (hd : Disjoint (span RAMDISK n) s)
    (hn : n ≤ 2 ^ 64) : bytesAt m' RAMDISK n = bytesAt m RAMDISK n :=
  bytesAt_congr fun k hk => hf.byte hd hk (by omega)

theorem imageSpan_subset (hs : kernelSize m < FSSIZE * BSIZE) : imageSpan m ⊆ diskSpan .NORMAL :=
  span_mono _ hs.le

theorem imageSpan_disjoint (hs : kernelSize m < FSSIZE * BSIZE) : Disjoint (imageSpan m) bootloaderMem :=
  (diskSpan_disjoint .NORMAL).mono_left (imageSpan_subset hs)

theorem handover_image (hs : kernelSize m < FSSIZE * BSIZE) :
    bytesAt (handover m) RAMDISK (kernelSize m) = bytesAt m RAMDISK (kernelSize m) :=
  bytesAt_disk_frame (handover_frame m) ((imageSpan_disjoint hs).mono_right sysInfoPtr_subset)
    (hs.le.trans (by decide))

/-! ## The two exits -/

def enterKernel (m : Mem) : Addr × Mem :=
  findKernelEntryAddr .NORMAL (publishSysInfo (findKernelEntryAddr .NORMAL m).2)

theorem start_eq (hart : Fin NCPU) (s : Machine) : start hart s =
    (isSecureBoot hart (handover s.mem)).bind fun r =>
      if r.1 then (loadKernel (startBuf hart) r.2).bind fun m =>
        some (.jumped (enterKernel m).1, ⟨(enterKernel m).2, BitVec.ofNat 64 hart,
          (findKernelEntryAddr .NORMAL m).1, panicAddr⟩)
      else some (.returned, { s with mem := r.2, tp := BitVec.ofNat 64 hart }) := rfl

theorem start_jumped {s' : Machine} {pc : Addr} (h : start hart s = some (.jumped pc, s')) :
    ∃ m1 m2, isSecureBoot hart (handover s.mem) = some (true, m1) ∧
      loadKernel (startBuf hart) m1 = some m2 ∧ enterKernel m2 = (pc, s'.mem) := by
  rw [start_eq, Option.bind_eq_some_iff] at h
  obtain ⟨⟨ok, m1⟩, h1, h⟩ := h
  cases ok with
  | true =>
    rw [if_pos rfl, Option.bind_eq_some_iff] at h
    obtain ⟨m2, h2, h⟩ := h
    rw [Option.some.injEq, Prod.mk.injEq] at h
    obtain ⟨hpc, hs⟩ := h
    refine ⟨m1, m2, h1, h2, ?_⟩
    rw [← hs, ← Exit.jumped.inj hpc]
  | false =>
    rw [if_neg (by simp)] at h
    cases h

theorem start_of_rejected (h : isSecureBoot hart (handover s.mem) = some (false, m)) :
    start hart s = some (.returned, { s with mem := m, tp := BitVec.ofNat 64 hart }) := by
  rw [start_eq, h]
  rfl

/-! ## The second load -/

theorem loadKernel_eq (b : Addr) (m : Mem) : loadKernel b m =
    forLoopM (loadBlock b (findKernelLoadAddr .NORMAL m).1) 0 (kernelSize m / FSSIZE)
      (findKernelSize .NORMAL (findKernelLoadAddr .NORMAL m).2).2 := by
  have hf := findKernelLoadAddr_frame .NORMAL m
  have hs : kernelSize (findKernelLoadAddr .NORMAL m).2 = kernelSize m :=
    kernelSize_frame hf (header_disjoint .NORMAL)
  rw [← hs]
  rfl

theorem div_FSSIZE_le (n : ℕ) : n / FSSIZE ≤ n / BSIZE := Nat.div_le_div_left (by decide) (by decide)

theorem loadKernel_some {b : Addr} (hb : StackBuf b) (hs : kernelSize m < FSSIZE * BSIZE) :
    ∃ m', loadKernel b m = some m' := by
  rw [loadKernel_eq]
  have hn : kernelSize m / FSSIZE ≤ FSSIZE := (div_FSSIZE_le _).trans (numBlocks_lt hs).le
  exact (loadBlock_placing hb hn).run_some trivial

theorem start_of_accepted (h : isSecureBoot hart (handover s.mem) = some (true, m))
    (hs : kernelSize m < FSSIZE * BSIZE) : ∃ pc s', start hart s = some (.jumped pc, s') := by
  obtain ⟨m2, h2⟩ := loadKernel_some (startBuf_stackBuf hart) hs
  refine ⟨(enterKernel m2).1, ⟨(enterKernel m2).2, BitVec.ofNat 64 hart,
    (findKernelEntryAddr .NORMAL m2).1, panicAddr⟩, ?_⟩
  rw [start_eq, h, Option.bind_some, if_pos rfl, h2, Option.bind_some]

/-! ## Publishing the system table -/

theorem sysInfo_disjoint : Disjoint bootloaderMem (span sysInfo SysInfo.size) :=
  span_disjoint (by decide) (by decide)

theorem hashFields_subset : hashFields sysInfo ⊆ span sysInfo SysInfo.size :=
  span_off_subset sysInfo (by decide) (by decide)

theorem store_sysInfo_frame (m : Mem) (v : BitVec 64) {k : ℕ} (hk : k + 8 ≤ SysInfo.size) :
    Frame (span sysInfo SysInfo.size) m (store m (off sysInfo k) v) :=
  (store64_frame m _ v).mono (span_off_subset sysInfo hk (by decide))

theorem store_sysInfo_ptr (hp : load 64 m sysInfoPtr = sysInfo) (v : BitVec 64) {k : ℕ} (hk : k + 8 ≤ SysInfo.size) :
    load 64 (store m (off sysInfo k) v) sysInfoPtr = sysInfo := by
  have hd : Disjoint (span sysInfoPtr 8) (span sysInfo SysInfo.size) :=
    sysInfo_disjoint.mono_left sysInfoPtr_subset
  exact ((store_sysInfo_frame m v hk).load_eq hd (by norm_num)).trans hp

theorem endSym_eq : endSym = sysInfoPtr := rfl

theorem publishSysInfo_eq (hp : load 64 m sysInfoPtr = sysInfo) : publishSysInfo m =
    store (store (store (store m (off sysInfo SysInfo.blStart) entry) (off sysInfo SysInfo.blEnd) sysInfo)
      (off sysInfo SysInfo.drStart) KERNBASE) (off sysInfo SysInfo.drEnd) PHYSTOP := by
  have hp1 := store_sysInfo_ptr hp entry (k := SysInfo.blStart) (by decide)
  have hp2 := store_sysInfo_ptr hp1 sysInfo (k := SysInfo.blEnd) (by decide)
  have hp3 := store_sysInfo_ptr hp2 KERNBASE (k := SysInfo.drStart) (by decide)
  unfold publishSysInfo
  dsimp only
  rw [hp, hp1, endSym_eq, hp1, hp2, ← KERNBASE, hp3]

theorem publishSysInfo_spec (hp : load 64 m sysInfoPtr = sysInfo) :
    Frame (span sysInfo SysInfo.size) m (publishSysInfo m) ∧
      load 64 (publishSysInfo m) (off sysInfo SysInfo.drStart) = KERNBASE ∧
      load 64 (publishSysInfo m) (off sysInfo SysInfo.drEnd) = PHYSTOP := by
  rw [publishSysInfo_eq hp]
  set m1 := store m (off sysInfo SysInfo.blStart) entry
  set m2 := store m1 (off sysInfo SysInfo.blEnd) sysInfo
  set m3 := store m2 (off sysInfo SysInfo.drStart) KERNBASE
  have f4 : Frame (span (off sysInfo SysInfo.drEnd) 8) m3 (store m3 (off sysInfo SysInfo.drEnd) PHYSTOP) :=
    store64_frame m3 _ _
  refine ⟨?_, ?_, load_store64 m3 _ _⟩
  · exact (((store_sysInfo_frame m _ (by decide)).trans (store_sysInfo_frame m1 _ (by decide))).trans
      (store_sysInfo_frame m2 _ (by decide))).trans (store_sysInfo_frame m3 _ (by decide))
  · rw [f4.load_off (by decide) (by decide) (by decide)]
    exact load_store64 m2 _ _

theorem enterKernel_spec (hp : load 64 m sysInfoPtr = sysInfo) :
    (enterKernel m).1 = elfEntry m RAMDISK ∧
      Frame (headerPtrs ∪ span sysInfo SysInfo.size) m (enterKernel m).2 ∧
      load 64 (enterKernel m).2 (off sysInfo SysInfo.drStart) = KERNBASE ∧
      load 64 (enterKernel m).2 (off sysInfo SysInfo.drEnd) = PHYSTOP := by
  have hph : Disjoint (span sysInfoPtr 8) headerPtrs := span_disjoint (by decide) (by decide)
  have f1 := findKernelEntryAddr_frame .NORMAL m
  set m1 := (findKernelEntryAddr .NORMAL m).2 with h1
  obtain ⟨f2, hds, hde⟩ := publishSysInfo_spec (m := m1) (by rw [f1.load_eq hph (by norm_num), hp])
  set m2 := publishSysInfo m1 with h2
  have f3 := findKernelEntryAddr_frame .NORMAL m2
  have hsh : Disjoint (span sysInfo SysInfo.size) headerPtrs :=
    sysInfo_disjoint.symm.mono_right headerPtrs_subset
  have hh : ∀ {k : ℕ}, k + 8 ≤ SysInfo.size →
      load 64 (enterKernel m).2 (off sysInfo k) = load 64 m2 (off sysInfo k) := by
    intro k hk
    exact f3.load_eq (hsh.mono_left (span_off_subset sysInfo hk (by decide))) (by norm_num)
  refine ⟨?_, ?_, (hh (by decide)).trans hds, (hh (by decide)).trans hde⟩
  · have hhd : Disjoint (span RAMDISK Elfhdr.size) (headerPtrs ∪ span sysInfo SysInfo.size) :=
      Set.disjoint_union_right.mpr
        ⟨header_disjoint .NORMAL, (span_disjoint (by decide) (by decide)).symm⟩
    calc (enterKernel m).1 = elfEntry m2 RAMDISK := findKernelEntryAddr_eq .NORMAL m2
      _ = elfEntry m RAMDISK := elfEntry_frame (f1.trans_union f2) hhd
  · exact (f1.trans_union f2).trans (f3.mono Set.subset_union_left)

end Xv6Boot.Start
