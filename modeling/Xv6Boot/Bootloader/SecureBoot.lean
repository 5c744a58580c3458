import Xv6Boot.Bootloader.Reset

/-! # What the verdict is worth

Three results about `start` as a gate. The measurement is right whenever the load range is clear
(`isSecureBoot_measures`). The gate is sound when no block is placed over the bootloader or over bytes
yet to be measured (`start_jumped_authentic`); the load address is read from the image and used before
the comparison, and an image that places a block over `sys_info_ptr` makes the observed hash land on the
trusted one (`aliasFile_boots`). A rejected image has been copied all the same
(`start_returned_frame_iff`).
-/

namespace Xv6Boot.Start
open ByteMemory Loop StringC Layout Elf Sha256C

def sampleFile : KernelFile where
  vaddr := 0x81000000
  size := 5220
  filesz := 1024
  memsz := 1024
  entryAddr := 0x81000000
  body := fun o => BitVec.ofNat 8 (o + 1)

theorem sampleFile_wellPlaced : sampleFile.WellPlaced := ⟨by decide, by decide, by decide, by decide⟩

def sample (T : List Byte) : Machine := ⟨sampleFile.mem T fun _ => 0, 0, 0, 0⟩

theorem sample_linked {T : List Byte} (hT : T.length = 32) : Linked (sample T).mem T :=
  resetMem_linked T sampleFile.byte _ hT

/-! ## The measurement -/

theorem isSecureBoot_measures (hart : Fin NCPU) (m : Mem) (T : List Byte) (hl : Linked m T)
    (hp : load 64 m sysInfoPtr = sysInfo)
    (hv : Disjoint (bootRange m) (imageSpan m ∪ bootloaderMem ∪ span sysInfo SysInfo.size)) :
    (kernelSize m < FSSIZE * BSIZE → ∃ ok m', isSecureBoot hart m = some (ok, m') ∧
      bytesAt m' (off sysInfo SysInfo.observed) 32 = Sha256.digest (bytesAt m RAMDISK (kernelSize m)) ∧
      bytesAt m' (off sysInfo SysInfo.expected) 32 = bytesAt m trustedKernelHash 32 ∧
      (ok = true ↔ bytesAt m' (off sysInfo SysInfo.observed) 32 =
        bytesAt m' (off sysInfo SysInfo.expected) 32)) ∧
    (FSSIZE * BSIZE ≤ kernelSize m → isSecureBoot hart m = none) := by
  refine ⟨fun hs => ?_, isSecureBoot_panic hart⟩
  have hboot : Disjoint bootloaderMem (bootRange m) :=
    hv.symm.mono_left (Set.subset_union_right.trans Set.subset_union_left)
  have himg : Disjoint (imageSpan m) (bootRange m) :=
    hv.symm.mono_left (Set.subset_union_left.trans Set.subset_union_left)
  have hle : kernelSize m ≤ 2 ^ 64 := by
    unfold FSSIZE BSIZE at hs
    omega
  obtain ⟨ok, m', h⟩ := isSecureBoot_some hp hart hs
    (hboot.mono_left (Set.union_subset ctx_subset sysInfoPtr_subset))
  obtain ⟨hobs, hexp, hok⟩ := isSecureBoot_verdict hp hl hboot
    (readFirst_of_disjoint himg hle (numBlocks_lt hs).le) h
  refine ⟨ok, m', h, hobs, hexp.trans hl.trusted.symm, ?_⟩
  rw [hobs, hexp]
  exact hok

theorem sample_measured : ∃ ok m', isSecureBoot 0 (handover (sample (List.replicate 32 0)).mem) =
    some (ok, m') ∧ bytesAt m' (off sysInfo SysInfo.observed) 32 = sampleFile.hash := by
  have hw := sampleFile_wellPlaced
  set m := (sample (List.replicate 32 0)).mem with hm
  have hs : kernelSize m < FSSIZE * BSIZE := hw.kernelSize_lt _ _
  have hi : HeadersInside m := hw.headersInside _ _
  have hv : Disjoint (bootRange (handover m))
      (imageSpan (handover m) ∪ bootloaderMem ∪ span sysInfo SysInfo.size) := by
    rw [bootRange_handover hi hs, imageSpan, handover_kernelSize]
    exact hw.rangeClear _ _
  obtain ⟨ok, m', h, hobs, -, -⟩ := (isSecureBoot_measures 0 (handover m) (List.replicate 32 0)
    (handover_linked (sample_linked (by simp))) (handover_sysInfoPtr m) hv).1
    (by rw [handover_kernelSize]; exact hs)
  refine ⟨ok, m', h, ?_⟩
  rw [hobs, handover_kernelSize, handover_image hs]
  exact hw.digest_eq _ _

/-! ## Soundness of the gate -/

/-- No block is placed over the bootloader, nor over image bytes that are still to be measured. -/
structure SafelyPlaced (m : Mem) : Prop where
  boot : Disjoint bootloaderMem (bootRange m)
  read : ReadFirst (bootLoadAddr m) (numBlocks m) (kernelSize m)

theorem start_jumped_authentic (hart : Fin NCPU) (s s' : Machine) (pc : Addr) (T : List Byte)
    (hl : Linked s.mem T) (hp : SafelyPlaced (handover s.mem))
    (h : start hart s = some (.jumped pc, s')) :
    Sha256.digest (bytesAt s.mem RAMDISK (kernelSize s.mem)) = T := by
  obtain ⟨m1, m2, h1, -, -⟩ := start_jumped h
  have hs := kernelSize_lt_of_isSecureBoot h1
  obtain ⟨-, -, hok⟩ := isSecureBoot_verdict (handover_sysInfoPtr s.mem) (handover_linked hl) hp.boot
    hp.read h1
  rw [handover_kernelSize, handover_image hs] at hok
  exact hok.mp rfl

theorem sample_safelyPlaced (T : List Byte) : SafelyPlaced (handover (sample T).mem) := by
  have hw := sampleFile_wellPlaced
  have hs : kernelSize (sample T).mem < FSSIZE * BSIZE := hw.kernelSize_lt _ _
  have hi : HeadersInside (sample T).mem := hw.headersInside _ _
  have hc : RangeClear (sample T).mem := hw.rangeClear _ _
  have hrange := bootRange_handover hi hs
  have hs' : kernelSize (handover (sample T).mem) < FSSIZE * BSIZE := by
    rw [handover_kernelSize]
    exact hs
  refine ⟨?_, ?_⟩
  · rw [hrange]
    exact hc.own.mono_left Set.subset_union_left
  · have himg : Disjoint (span RAMDISK (kernelSize (handover (sample T).mem)))
        (bootRange (handover (sample T).mem)) := by
      rw [hrange, handover_kernelSize]
      exact hc.image
    have hle : kernelSize (handover (sample T).mem) ≤ 2 ^ 64 := by
      unfold FSSIZE BSIZE at hs'
      omega
    exact readFirst_of_disjoint himg hle (numBlocks_lt hs').le

theorem sample_authentic : ∃ pc s', start 0 (sample sampleFile.hash) = some (.jumped pc, s') ∧
    Sha256.digest (bytesAt (sample sampleFile.hash).mem RAMDISK
      (kernelSize (sample sampleFile.hash).mem)) = sampleFile.hash := by
  obtain ⟨pc, s', h⟩ := sampleFile_wellPlaced.boots (fun _ => 0) 0
  exact ⟨pc, s', h, start_jumped_authentic 0 (sample sampleFile.hash) s' pc sampleFile.hash
    (sample_linked sampleFile.hash_length) (sample_safelyPlaced _) h⟩

/-! ## An image that chooses where the hash goes

Block 4 is placed over `sys_info_ptr` and repoints it so that `observed_kernel_measurement` is the array
`trusted_kernel_hash`. The digest overwrites the trusted hash, the "expected" hash is copied from there,
and the comparison cannot fail.
-/

def aliasInfo : Addr := 0x80000a98#64

def aliasFile (payload : ℕ → Byte) : KernelFile where
  vaddr := 0x80008c90
  size := 5120
  filesz := 1024
  memsz := 1024
  entryAddr := 0x80008ca8
  body := fun o => if o < 4104 then leByte aliasInfo.toNat (o - 4096) else payload o

theorem aliasInfo_observed : off aliasInfo SysInfo.observed = trustedKernelHash := rfl

theorem aliasInfo_fields_subset : hashFields aliasInfo ⊆ bootloaderMem :=
  span_subset_of_toNat (by decide) (by decide) (by decide)

section Alias
variable (payload : ℕ → Byte) (T : List Byte) (ram : Mem)

theorem aliasFile_size : kernelSize ((aliasFile payload).mem T ram) = 5120 :=
  (aliasFile payload).kernelSize_eq T ram (by norm_num [aliasFile])

theorem aliasFile_headersInside : HeadersInside ((aliasFile payload).mem T ram) :=
  ((aliasFile payload).kernelImage T ram (by norm_num [aliasFile]) (by norm_num [aliasFile])).headersInside
    (by rw [aliasFile_size]; decide)

theorem aliasFile_loadAddr : bootLoadAddr (handover ((aliasFile payload).mem T ram)) = sysInfoPtr := by
  set m := (aliasFile payload).mem T ram
  have hi := aliasFile_headersInside payload T ram
  have hs : kernelSize m < FSSIZE * BSIZE := by rw [aliasFile_size]; decide
  have hd : Disjoint (imageSpan m) (span sysInfoPtr 8) := (imageSpan_disjoint hs).mono_right sysInfoPtr_subset
  rw [bootLoadAddr_eq_segVaddr (hi.transfer (handover_frame m) hd) (by rw [handover_kernelSize]; exact hs),
    hi.segVaddr_eq (handover_frame m) hd, (aliasFile payload).segVaddr_eq T ram]
  rfl

theorem aliasFile_range : bootRange (handover ((aliasFile payload).mem T ram)) = span sysInfoPtr 1024 := by
  rw [bootRange, aliasFile_loadAddr, numBlocks, handover_kernelSize, aliasFile_size]
  rfl

theorem aliasFile_measured (hart : Fin NCPU) :
    ∃ m', measureKernel (secureBootBuf hart) (handover ((aliasFile payload).mem T ram)) = some m' ∧
      InBuffer m' sha256Ctx ∧ load 64 m' sysInfoPtr = aliasInfo := by
  have hb := secureBootBuf_stackBuf hart
  set m := (aliasFile payload).mem T ram with hm
  have hsize : kernelSize m = 5120 := aliasFile_size payload T ram
  have hnum : numBlocks (handover m) = 5 := by
    rw [numBlocks, handover_kernelSize, hsize]
    rfl
  have hs : kernelSize (handover m) < FSSIZE * BSIZE := by
    rw [handover_kernelSize, hsize]
    decide
  have hcv : Disjoint (span sha256Ctx Ctx.size) (bootRange (handover m)) := by
    rw [aliasFile_range]
    exact span_disjoint (by decide) (by decide)
  obtain ⟨m1, -, m', h1, -, -, h', f', hg⟩ := measureKernel_run hb hs hcv
  refine ⟨m', h', hg, ?_⟩
  have hP := verifyBlock_placing hb (numBlocks_lt hs).le hcv
  rw [aliasFile_loadAddr, hnum] at h1 hP
  have hown : Disjoint (verifyOwn (secureBootBuf hart)) (loadRange sysInfoPtr 5) :=
    Set.disjoint_union_left.mpr
      ⟨(hb.disjoint_above (by decide) (by decide)).symm, span_disjoint (by decide) (by decide)⟩
  have hdisk : Disjoint (span RAMDISK (BSIZE * 5)) (loadRange sysInfoPtr 5) :=
    (span_disjoint (by decide) (by decide)).symm
  have f0 : Frame bootloaderMem m (prepared (handover m)) :=
    ((handover_frame m).mono sysInfoPtr_subset).trans ((prepared_frame _).mono prepareOwn_subset)
  have hbytes : ∀ k < 8, m1 (off sysInfoPtr k) = leByte aliasInfo.toNat k := by
    intro k hk
    have hk1 : k < BSIZE * (5 - 4) := by unfold BSIZE; omega
    have hk2 : 4 * BSIZE + k < FSSIZE * BSIZE := by unfold BSIZE FSSIZE; omega
    rw [hP.run_bytes (prepared_absorbed _).inBuffer hown hdisk h1 hk1,
      disk_byte f0 (diskSpan_disjoint .NORMAL) hk2]
    have hbody := (aliasFile payload).body_eq T ram (o := 4 * BSIZE + k) (by unfold BSIZE; omega) hk2
    refine hbody.trans ?_
    show (if 4 * BSIZE + k < 4104 then _ else _) = _
    rw [if_pos (by unfold BSIZE; omega), show 4 * BSIZE + k - 4096 = k by unfold BSIZE; omega]
  have hload : load 64 m1 sysInfoPtr = aliasInfo := by
    rw [load, leNat_congr (n := 8) hbytes, leNat_leByte]
    rfl
  rw [← hload]
  apply f'.load_eq _ (by norm_num)
  exact Set.disjoint_union_right.mpr ⟨hb.disjoint_above (by decide) (by decide), sysInfoPtr_disjoint_ctx⟩

/-- **Whatever the trusted hash, the payload and the RAM**, the image is accepted. -/
theorem aliasFile_boots (hart : Fin NCPU) :
    ∃ pc s', start hart ⟨(aliasFile payload).mem T ram, 0, 0, 0⟩ = some (.jumped pc, s') := by
  have hb := secureBootBuf_stackBuf hart
  set m := (aliasFile payload).mem T ram with hm
  obtain ⟨m', h', hg, hp⟩ := aliasFile_measured payload T ram hart
  obtain ⟨f2, hp2, hobs, hexp⟩ := recordHashes_spec hg hp (span_disjoint (by decide) (by decide)).symm
  have hsb : isSecureBoot hart (handover m) = some (true, recordHashes m') := by
    rw [isSecureBoot_of_measure h' hp2, hobs, hexp, aliasInfo_observed, decide_eq_true rfl]
  apply start_of_accepted (s := ⟨m, 0, 0, 0⟩) hsb
  have hcv : Disjoint (span sha256Ctx Ctx.size) (bootRange (handover m)) := by
    rw [aliasFile_range]
    exact span_disjoint (by decide) (by decide)
  obtain ⟨-, f1⟩ := measureKernel_frame hb h' hcv
  rw [aliasFile_range] at f1
  have hd1 : Disjoint (span RAMDISK Elfhdr.size)
      (measureOwn (secureBootBuf hart) ∪ span sysInfoPtr 1024) :=
    Set.disjoint_union_right.mpr ⟨header_disjoint_bootloader.mono_right (measureOwn_subset hb),
      (span_disjoint (by decide) (by decide)).symm⟩
  have hd2 : Disjoint (span RAMDISK Elfhdr.size) (span sha256Ctx Ctx.size ∪ hashFields aliasInfo) :=
    header_disjoint_bootloader.mono_right (Set.union_subset ctx_subset aliasInfo_fields_subset)
  rw [kernelSize_frame f2 hd2, kernelSize_frame f1 hd1, handover_kernelSize, aliasFile_size]
  decide

end Alias

theorem aliasFile_unauthentic : ∃ (T : List Byte) (s s' : Machine) (pc : Addr), Linked s.mem T ∧
    start 0 s = some (.jumped pc, s') ∧
    Sha256.digest (bytesAt s.mem RAMDISK (kernelSize s.mem)) ≠ T := by
  set f := aliasFile fun _ => 0 with hf
  obtain ⟨T, hT, hne⟩ := exists_other_hash f.hash
  obtain ⟨pc, s', h⟩ := aliasFile_boots (fun _ => 0) T (fun _ => 0) 0
  refine ⟨T, _, s', pc, resetMem_linked T f.byte _ hT, h, ?_⟩
  rw [aliasFile_size]
  have himg := f.image_eq T (fun _ => 0) (by decide)
  intro he
  apply hne
  rw [← he, KernelFile.hash]
  exact congrArg Sha256.digest himg.symm

/-! ## A rejected image -/

end Xv6Boot.Start
